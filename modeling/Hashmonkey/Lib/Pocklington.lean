import Mathlib.FieldTheory.Finite.Basic

/-!
# Pocklington's criterion

A number above 1 is prime when a large prime factor of its predecessor divides the order of some
residue, modulo each of its prime factors. Unlike Lucas's test it asks for one factor of the
predecessor only, so a chain of such factors certifies a large prime.

`dvd_orderOf` is the fact about orders, in any monoid, and `pocklington` the criterion; its
conditions are equations between residues, which are checked by computing.
-/

namespace Hashmonkey.Lib

/-- `q` divides the order of a unit whose `q * m`-th power is 1, but not its `m`-th power. -/
theorem dvd_orderOf {M : Type} [Monoid M] {x : M} {q m : ℕ} (hq : q.Prime) (hone : x ^ (q * m) = 1)
    (hne : x ^ m ≠ 1) : q ∣ orderOf x := by
  by_contra hnot
  have hcoprime : (orderOf x).Coprime q := ((hq.coprime_iff_not_dvd).2 hnot).symm
  have hdvd : orderOf x ∣ m := hcoprime.dvd_of_dvd_mul_left (orderOf_dvd_of_pow_eq_one hone)
  exact hne (orderOf_dvd_iff_pow_eq_one.1 hdvd)

/-- **Pocklington's criterion**, for one prime factor `q` above the square root; `b` shows that
`a ^ m - 1` is a unit. -/
theorem pocklington {n q m : ℕ} (hn : n = q * m + 1) (hm : 0 < m) (hq : q.Prime) (hlt : n < q * q)
    (a b : ZMod n) (ha : a ^ (q * m) = 1) (hb : b * (a ^ m - 1) = 1) : n.Prime := by
  have hpos : 0 < q * m := Nat.mul_pos hq.pos hm
  by_contra hnot
  have hr : n.minFac.Prime := Nat.minFac_prime (by omega)
  have hsq : n.minFac * n.minFac ≤ n := by
    have := Nat.minFac_sq_le_self (by omega) hnot
    rwa [sq] at this
  have : Fact n.minFac.Prime := ⟨hr⟩
  -- modulo the least prime factor the same powers are 1 and not 1
  let f := ZMod.castHom n.minFac_dvd (ZMod n.minFac)
  have hone : f a ^ (q * m) = 1 := by rw [← map_pow, ha, map_one]
  have hne : f a ^ m ≠ 1 := by
    intro h
    have hzero := congrArg f hb
    rw [map_mul, map_sub, map_pow, map_one, h, sub_self, mul_zero] at hzero
    exact zero_ne_one hzero
  have hunit : f a ≠ 0 := by
    intro h
    rw [h, zero_pow hpos.ne'] at hone
    exact zero_ne_one hone
  have horder : q ∣ n.minFac - 1 :=
    (dvd_orderOf hq hone hne).trans (ZMod.orderOf_dvd_card_sub_one hunit)
  have hle : q ≤ n.minFac - 1 := Nat.le_of_dvd (by have := hr.two_le; omega) horder
  have hle' : q ≤ n.minFac := by omega
  exact absurd (Nat.mul_le_mul hle' hle') (by omega)

end Hashmonkey.Lib
