import Hashmonkey.Epee.IntUtil

/-!
# Fees per byte (`cryptonote_core/blockchain.cpp`)

`getDynamicBaseFee` is the fee that `check_fee` asks for a byte: the reward times a reference weight
of 3000 over the square of the median weight, less five percent, and at least 1, in words of 64
bits. A median below 300000 counts as 300000.

* `dynamicFeeWords`: the product and the two divisions, with `mul128` and `div128_64`. The source
  asserts that the high word is 0;
* `feeQuotient`: the quotient over the naturals.

Result: `dynamic_base_fee_exact`. **The fee is the exact quotient's**, the assertion holds, and the
fee moves with the reward and against the median.
-/

namespace Hashmonkey.Core

open Epee

/-- The two divisions of `get_dynamic_base_fee`: the low word, and the high one that it asserts to
be 0. -/
def dynamicFeeWords (blockReward medianBlockWeight : UInt64) : UInt64 × UInt64 :=
  let median := if medianBlockWeight < 300000 then 300000 else medianBlockWeight
  div12864 (div12864 (mul128 blockReward 3000) median) median

/-- `get_dynamic_base_fee`. -/
def getDynamicBaseFee (blockReward medianBlockWeight : UInt64) : UInt64 :=
  let lo := (dynamicFeeWords blockReward medianBlockWeight).1
  let lo := lo - lo / 20
  if lo = 0 then 1 else lo

/-- The quotient of the two divisions, over the naturals. -/
def feeQuotient (R m : ℕ) : ℕ := 3000 * R / max m 300000 ^ 2

theorem feeQuotient_mono {r r' k k' : ℕ} (hr : r ≤ r') (hk : k' ≤ k) :
    feeQuotient r k ≤ feeQuotient r' k' :=
  Nat.div_le_div (Nat.mul_le_mul_left _ hr) (Nat.pow_le_pow_left (max_le_max hk le_rfl) 2)
    (pow_ne_zero 2 (by omega))

theorem feeQuotient_lt (R m : UInt64) : feeQuotient R.toNat m.toNat < 2 ^ 64 := by
  have hR := R.toNat_lt
  have hle : feeQuotient R.toNat m.toNat ≤ feeQuotient R.toNat 0 :=
    feeQuotient_mono le_rfl (Nat.zero_le _)
  simp only [feeQuotient, Nat.zero_max] at hle ⊢
  omega

theorem dynamicFeeWords_value (R m : UInt64) :
    wordsValue (dynamicFeeWords R m) = feeQuotient R.toNat m.toNat := by
  have hmedian : (if m < 300000 then 300000 else m).toNat = max m.toNat 300000 := by
    have h300000 : (300000 : UInt64).toNat = 300000 := rfl
    split
    all_goals
      rename_i h
      rw [UInt64.lt_iff_toNat_lt, h300000] at h
      omega
  rw [dynamicFeeWords, div128_64_value, div128_64_value, mul128_value, hmedian,
    Nat.div_div_eq_div_mul, feeQuotient, sq, Nat.mul_comm R.toNat]
  rfl

theorem dynamicFeeWords_eq (R m : UInt64) : (dynamicFeeWords R m).2 = 0 ∧
    (dynamicFeeWords R m).1.toNat = feeQuotient R.toNat m.toNat := by
  have hvalue := dynamicFeeWords_value R m
  have hlt := feeQuotient_lt R m
  rw [wordsValue] at hvalue
  refine ⟨UInt64.toNat_inj.mp ?_, by omega⟩
  rw [UInt64.toNat_zero]
  omega

theorem toNat_getDynamicBaseFee (R m : UInt64) : (getDynamicBaseFee R m).toNat =
    max 1 (feeQuotient R.toNat m.toNat - feeQuotient R.toNat m.toNat / 20) := by
  have hlo := (dynamicFeeWords_eq R m).2
  rw [getDynamicBaseFee, ← hlo]
  generalize (dynamicFeeWords R m).1 = lo
  have hsub : (lo - lo / 20).toNat = lo.toNat - lo.toNat / 20 := by
    rw [UInt64.toNat_sub_of_le _ _ (UInt64.le_iff_toNat_le.mpr ?_), UInt64.toNat_div]
    · rfl
    · exact Nat.div_le_self _ _
  rw [← hsub]
  split
  · rename_i h0
    rw [h0]
    rfl
  · rename_i hne
    have hpos : (lo - lo / 20).toNat ≠ 0 := fun h0 => hne (UInt64.toNat_inj.mp h0)
    omega

/-- **`get_dynamic_base_fee` is exact**: it is `max 1 (q - q / 20)` for the quotient `q` over the
naturals, the word that it asserts on is 0, and the fee does not fall when the reward grows and does
not grow when the median does. -/
theorem dynamic_base_fee_exact (R m : UInt64) :
    (dynamicFeeWords R m).2 = 0 ∧
    (getDynamicBaseFee R m).toNat =
      max 1 (feeQuotient R.toNat m.toNat - feeQuotient R.toNat m.toNat / 20) ∧
    (∀ R', R ≤ R' → getDynamicBaseFee R m ≤ getDynamicBaseFee R' m) ∧
    ∀ m', m ≤ m' → getDynamicBaseFee R m' ≤ getDynamicBaseFee R m := by
  have hmono {R R' m m' : UInt64} (hR : R ≤ R') (hm : m' ≤ m) :
      getDynamicBaseFee R m ≤ getDynamicBaseFee R' m' := by
    have hq := feeQuotient_mono (UInt64.le_iff_toNat_le.mp hR) (UInt64.le_iff_toNat_le.mp hm)
    rw [UInt64.le_iff_toNat_le, toNat_getDynamicBaseFee, toNat_getDynamicBaseFee]
    omega
  exact ⟨(dynamicFeeWords_eq R m).1, toNat_getDynamicBaseFee R m,
    fun R' hR => hmono hR (UInt64.le_refl m), fun m' hm => hmono (UInt64.le_refl R) hm⟩

end Hashmonkey.Core
