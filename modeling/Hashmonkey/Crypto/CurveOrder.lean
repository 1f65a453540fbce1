import Hashmonkey.Lib.Pocklington
import Mathlib.NumberTheory.LucasPrimality
import Mathlib.Tactic.NormNum.Prime
import Mathlib.Tactic.ReduceModChar

/-!
# The scalars (`crypto/crypto-ops.c`)

The order of the subgroup of the curve that the base point generates is the prime
`l = 2^252 + 27742317777372353535851937790883648493`. The scalars of the `sc_*` functions are the
residues modulo `l`, so `Scalar` is `ZMod l`; how they are computed with limbs is left out. They are
a field because `l` is prime, which is certified by a chain of prime factors of predecessors
(`curveOrder_prime`, with `Lib/Pocklington`).
-/

namespace Hashmonkey

open Lib

/-- The order `l` of the base point. -/
def curveOrder : ℕ := 2 ^ 252 + 27742317777372353535851937790883648493

theorem prime_1257559732178653 : Nat.Prime 1257559732178653 := by
  refine lucas_primality _ (2 : ZMod 1257559732178653) (by reduce_mod_char) ?_
  intro q hq hdvd
  have hfactors : 1257559732178653 - 1 = 2 * (2 * (3 * (7 * (23 * (531581 * 1224481))))) := by
    norm_num
  rw [hfactors] at hdvd
  simp only [hq.dvd_mul] at hdvd
  have hcases : q = 2 ∨ q = 3 ∨ q = 7 ∨ q = 23 ∨ q = 531581 ∨ q = 1224481 := by
    have hprime : ∀ p : ℕ, p.Prime → q ∣ p → q = p := fun p hp h =>
      (Nat.prime_dvd_prime_iff_eq hq hp).1 h
    rcases hdvd with h | h | h | h | h | h | h
    · exact Or.inl (hprime 2 (by norm_num) h)
    · exact Or.inl (hprime 2 (by norm_num) h)
    · exact Or.inr (Or.inl (hprime 3 (by norm_num) h))
    · exact Or.inr (Or.inr (Or.inl (hprime 7 (by norm_num) h)))
    · exact Or.inr (Or.inr (Or.inr (Or.inl (hprime 23 (by norm_num) h))))
    · exact Or.inr (Or.inr (Or.inr (Or.inr (Or.inl (hprime 531581 (by norm_num) h)))))
    · exact Or.inr (Or.inr (Or.inr (Or.inr (Or.inr (hprime 1224481 (by norm_num) h)))))
  rcases hcases with rfl | rfl | rfl | rfl | rfl | rfl <;> norm_num <;> reduce_mod_char <;> decide

theorem prime_4434155615661930479 : Nat.Prime 4434155615661930479 :=
  pocklington (m := 3526) (by norm_num) (by norm_num) prime_1257559732178653 (by norm_num)
    2 1010501025739283171 (by reduce_mod_char) (by reduce_mod_char)

theorem prime_172054593956031949258510691 : Nat.Prime 172054593956031949258510691 :=
  pocklington (m := 38802110) (by norm_num) (by norm_num) prime_4434155615661930479 (by norm_num)
    2 154275350521713489305385904 (by reduce_mod_char) (by reduce_mod_char)

theorem prime_19757330305831588566944191468367130476339 :
    Nat.Prime 19757330305831588566944191468367130476339 :=
  pocklington (m := 114831751082918) (by norm_num) (by norm_num) prime_172054593956031949258510691
    (by norm_num) 2 16371654433361644093796961727196399386194 (by reduce_mod_char)
    (by reduce_mod_char)

theorem prime_276602624281642239937218680557139826668747 :
    Nat.Prime 276602624281642239937218680557139826668747 :=
  pocklington (m := 14) (by norm_num) (by norm_num) prime_19757330305831588566944191468367130476339
    (by norm_num) 2 94074944912245044309966580483695483989395 (by reduce_mod_char)
    (by reduce_mod_char)

theorem curveOrder_prime : curveOrder.Prime := by
  have hl : curveOrder =
      7237005577332262213973186563042994240857116359379907606001950938285454250989 := by
    norm_num [curveOrder]
  rw [hl]
  exact pocklington (m := 26163907866482859529727157400808004) (by norm_num) (by norm_num)
    prime_276602624281642239937218680557139826668747 (by norm_num) 2
    2233364593245673852815932892735013076939656528578070433728021143254617821614
    (by reduce_mod_char) (by reduce_mod_char)

instance : Fact curveOrder.Prime := ⟨curveOrder_prime⟩

/-- A scalar: what the `sc_*` functions compute, reduced modulo `l`. -/
def Scalar : Type := ZMod curveOrder

namespace Scalar

instance : Field Scalar := inferInstanceAs (Field (ZMod curveOrder))

instance : DecidableEq Scalar := inferInstanceAs (DecidableEq (ZMod curveOrder))

/-- The number that the bytes of a scalar stand for. -/
def val (x : Scalar) : ℕ := ZMod.val (n := curveOrder) x

end Scalar

end Hashmonkey
