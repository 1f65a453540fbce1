import Mathlib.Data.Nat.Bitwise
import Mathlib.Data.UInt
import Mathlib.Tactic.Ring

/-!
# Words of 64 bits (`epee/int-util.h`, `int-util.cpp`)

`mul128` builds the product of two words from their halves and carries. `div128_64` divides a number
of two words by one word; the long division in it is that of the two words as one number here. Fees,
rewards and difficulties are computed with the two.

* `hiDword`, `loDword`: the halves of a word;
* `wordsValue`: the number that a low and a high word stand for, in this order, as the source
  returns them.

Results: `mul128_value`, `div128_64_value`. **Both are exact**, and a value below `2 ^ 64` has the
high word 0 (`eq_of_wordsValue`), which is what the callers assert.
-/

namespace Hashmonkey.Epee

/-- `hi_dword`. -/
def hiDword (val : UInt64) : UInt64 := val >>> 32

/-- `lo_dword`. -/
def loDword (val : UInt64) : UInt64 := val &&& 0xffffffff

/-- `mul128`: the low and the high word of the product. -/
def mul128 (multiplier multiplicand : UInt64) : UInt64 × UInt64 :=
  let a := hiDword multiplier
  let b := loDword multiplier
  let c := hiDword multiplicand
  let d := loDword multiplicand
  let ac := a * c
  let ad := a * d
  let bc := b * c
  let bd := b * d
  let adbc := ad + bc
  let adbcCarry : UInt64 := if adbc < ad then 1 else 0
  let productLo := bd + (adbc <<< 32)
  let productLoCarry : UInt64 := if productLo < bd then 1 else 0
  (productLo, ac + (adbc >>> 32) + (adbcCarry <<< 32) + productLoCarry)

/-- The number of a low and a high word. -/
def wordsValue (w : UInt64 × UInt64) : ℕ := w.2.toNat * 2 ^ 64 + w.1.toNat

/-- `div128_64`: the low and the high word of the quotient. -/
def div12864 (dividend : UInt64 × UInt64) (divisor : UInt64) : UInt64 × UInt64 :=
  let q := wordsValue dividend / divisor.toNat
  (UInt64.ofNat q, UInt64.ofNat (q / 2 ^ 64))

@[simp] theorem toNat_hiDword (val : UInt64) : (hiDword val).toNat = val.toNat / 2 ^ 32 := by
  simp [hiDword, Nat.shiftRight_eq_div_pow]

@[simp] theorem toNat_loDword (val : UInt64) : (loDword val).toNat = val.toNat % 2 ^ 32 := by
  exact Nat.and_two_pow_sub_one_eq_mod _ 32

/-- A product of two words, from the products of their halves, which are words. -/
theorem mul_halves (x y : UInt64) : ∃ ac ad bc bd : ℕ,
    (x.toNat / 2 ^ 32 * (y.toNat / 2 ^ 32) = ac ∧ x.toNat / 2 ^ 32 * (y.toNat % 2 ^ 32) = ad ∧
      x.toNat % 2 ^ 32 * (y.toNat / 2 ^ 32) = bc ∧ x.toNat % 2 ^ 32 * (y.toNat % 2 ^ 32) = bd) ∧
    (∀ p ∈ [ac, ad, bc, bd], p ≤ (2 ^ 32 - 1) * (2 ^ 32 - 1)) ∧
    x.toNat * y.toNat = ac * 2 ^ 64 + (ad + bc) * 2 ^ 32 + bd := by
  have hx := x.toNat_lt
  have hy := y.toNat_lt
  refine ⟨_, _, _, _, ⟨rfl, rfl, rfl, rfl⟩, ?_, ?_⟩
  · simp only [List.forall_mem_cons, List.not_mem_nil, false_implies, implies_true, and_true]
    refine ⟨?_, ?_, ?_, ?_⟩
    all_goals exact Nat.mul_le_mul (by omega) (by omega)
  · nth_rewrite 1 [← Nat.div_add_mod x.toNat (2 ^ 32), ← Nat.div_add_mod y.toNat (2 ^ 32)]
    ring

theorem toNat_ite_one (p : Prop) [Decidable p] :
    (if p then (1 : UInt64) else 0).toNat = if p then 1 else 0 := by
  split <;> rfl

/-- **`mul128` is exact.** -/
theorem mul128_value (x y : UInt64) : wordsValue (mul128 x y) = x.toNat * y.toNat := by
  obtain ⟨ac, ad, bc, bd, ⟨hac, had, hbc, hbd⟩, hle, hmul⟩ := mul_halves x y
  simp only [List.forall_mem_cons] at hle
  simp only [mul128, wordsValue, UInt64.toNat_add, UInt64.toNat_mul, UInt64.toNat_shiftLeft,
    UInt64.toNat_shiftRight, UInt64.lt_iff_toNat_lt, toNat_hiDword, toNat_loDword, toNat_ite_one,
    Nat.shiftLeft_eq, Nat.shiftRight_eq_div_pow, hac, had, hbc, hbd]
  have hshift : (32 : UInt64).toNat % 64 = 32 := rfl
  rw [hshift]
  split_ifs <;> omega

/-- **`div128_64` is exact.** -/
theorem div128_64_value (w : UInt64 × UInt64) (d : UInt64) :
    wordsValue (div12864 w d) = wordsValue w / d.toNat := by
  have hhi := w.2.toNat_lt
  have hlo := w.1.toNat_lt
  have hle : wordsValue w / d.toNat ≤ wordsValue w := Nat.div_le_self _ _
  simp only [div12864, wordsValue, UInt64.toNat_ofNat'] at hle ⊢
  generalize (w.2.toNat * 2 ^ 64 + w.1.toNat) / d.toNat = q at hle ⊢
  omega

/-- A number of one word has the high word 0. -/
theorem eq_of_wordsValue {w : UInt64 × UInt64} {v : UInt64} (h : wordsValue w = v.toNat) :
    w = (v, 0) := by
  obtain ⟨lo, hi⟩ := w
  have hv := v.toNat_lt
  dsimp only [wordsValue] at h
  have hhi : hi.toNat = (0 : UInt64).toNat := by
    rw [UInt64.toNat_zero]
    omega
  rw [UInt64.toNat_inj] at hhi
  subst hhi
  rw [UInt64.toNat_zero, Nat.zero_mul, Nat.zero_add, UInt64.toNat_inj] at h
  rw [h]

end Hashmonkey.Epee
