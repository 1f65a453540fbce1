import Mathlib.Data.Nat.Digits.Lemmas

/-!
# Big-endian numbers of fixed width

A list of digits with the most significant first, read as a number (`ofBE`), and the digits of a
number padded with zeros to a width (`toBE`), in any base. The two are inverse to each other below
`b ^ w` (`Nat.setInvOn_digitsAppend_ofDigits`, for the reversed lists). `toBE_succ` gives the last
digit, as a loop finds it that divides by the base.
-/

namespace Hashmonkey.Lib

variable {b w n : ℕ} {l : List ℕ}

/-- The number with the given digits, the most significant first. -/
def ofBE (b : ℕ) (l : List ℕ) : ℕ := Nat.ofDigits b l.reverse

/-- The digits of a number, padded to a width. -/
def toBE (b w n : ℕ) : List ℕ := (Nat.digitsAppend b w n).reverse

theorem ofBE_lt (hb : 1 < b) (hl : ∀ d ∈ l, d < b) : ofBE b l < b ^ l.length := by
  have h := Nat.ofDigits_lt_base_pow_length (l := l.reverse) hb (by simpa using hl)
  rwa [List.length_reverse] at h

theorem ofBE_toBE (hb : 1 < b) (hn : n < b ^ w) : ofBE b (toBE b w n) = n := by
  rw [ofBE, toBE, List.reverse_reverse]
  exact (Nat.setInvOn_digitsAppend_ofDigits hb w).2 hn

theorem toBE_ofBE (hb : 1 < b) (hl : ∀ d ∈ l, d < b) : toBE b l.length (ofBE b l) = l := by
  have h := (Nat.setInvOn_digitsAppend_ofDigits hb l.length).1
    (show l.reverse ∈ {L : List ℕ | L.length = l.length ∧ ∀ x ∈ L, x < b} from
      ⟨List.length_reverse, by simpa using hl⟩)
  rw [toBE, ofBE, h, List.reverse_reverse]

theorem length_toBE (hb : 1 < b) (hn : n < b ^ w) : (toBE b w n).length = w := by
  rw [toBE, List.length_reverse, Nat.length_digitsAppend hb w hn]

theorem lt_of_mem_toBE (hb : 1 < b) {d : ℕ} (hd : d ∈ toBE b w n) : d < b :=
  Nat.lt_of_mem_digitsAppend hb w d (List.mem_reverse.mp hd)

/-- The last digit of a number. -/
theorem toBE_succ (hb : 1 < b) (w n : ℕ) : toBE b (w + 1) n = toBE b w (n / b) ++ [n % b] := by
  rw [toBE, toBE, ← List.reverse_cons]
  rcases Nat.eq_zero_or_pos n with rfl | hn
  · simp [Nat.digitsAppend, List.replicate_succ]
  · simp [Nat.digitsAppend, Nat.digits_def' hb hn]

theorem toBE_zero (b w : ℕ) : toBE b w 0 = List.replicate w 0 := by
  simp [toBE, Nat.digitsAppend]

end Hashmonkey.Lib
