import Hashmonkey.Core.BlockReward
import Hashmonkey.Epee.IntUtil
import Mathlib.Tactic.Linarith

/-!
# The penalty of a block above the median weight (`cryptonote_basic_impl.cpp`)

`get_block_reward` cuts the base reward of a block with weight `W` above the median `M` to
`base * (2 * M - W) * W / M / M`, with a product of two words and two divisions (`penaltyWords`).
The median counts as at least the zone of full reward of the version (`effectiveMedian`).

* `idealReward`: the reward over the naturals;
* `penalty_antitone`: the parabola falls from its top at `M` on.

Result: **`get_block_reward_exact`**, for medians below `2 ^ 32` nothing overflows, the high word is
0, and the reward falls with the weight from the base reward on, up to twice the median. A block
above that gets none.
-/

namespace Hashmonkey.Core

open Epee

/-- `mul128` and the two calls of `div128_64` in `get_block_reward`. -/
def penaltyWords (baseReward multiplicand medianWeight : UInt64) : UInt64 × UInt64 :=
  div12864 (div12864 (mul128 baseReward multiplicand) medianWeight) medianWeight

/-- The median that `get_block_reward` reckons with. -/
def effectiveMedian (medianWeight : UInt64) (version : UInt8) : UInt64 :=
  if medianWeight < getMinBlockWeight version then getMinBlockWeight version else medianWeight

/-- The reward in natural numbers. -/
def idealReward (base M W : ℕ) : ℕ := if W ≤ M then base else base * ((2 * M - W) * W) / M / M

/-- The parabola falls from its top at `M` on. -/
theorem penalty_antitone {M W W' : ℕ} (hM : M ≤ W) (hW : W ≤ W') (hle : W' ≤ 2 * M) :
    (2 * M - W') * W' ≤ (2 * M - W) * W := by
  obtain ⟨a, rfl⟩ := Nat.exists_eq_add_of_le hM
  obtain ⟨b, rfl⟩ := Nat.exists_eq_add_of_le hW
  obtain ⟨c, rfl⟩ : ∃ c, M = a + b + c := ⟨M - (a + b), by omega⟩
  have h1 : 2 * (a + b + c) - (a + b + c + a + b) = c := by omega
  have h2 : 2 * (a + b + c) - (a + b + c + a) = b + c := by omega
  nlinarith [Nat.zero_le (b * a), Nat.zero_le (b * b), Nat.zero_le (b * c)]

theorem penalty_le {M W : ℕ} (hM : M ≤ W) (hle : W ≤ 2 * M) : (2 * M - W) * W ≤ M * M := by
  have h := penalty_antitone le_rfl hM hle
  rwa [show 2 * M - M = M by omega] at h

theorem idealReward_le (base : ℕ) {M W : ℕ} (hle : W ≤ 2 * M) : idealReward base M W ≤ base := by
  unfold idealReward
  split_ifs with h
  · exact le_rfl
  rw [Nat.div_div_eq_div_mul]
  exact Nat.div_le_of_le_mul (by
    rw [Nat.mul_comm (M * M)]
    exact Nat.mul_le_mul_left _ (penalty_le (by omega) hle))

theorem idealReward_antitone (base : ℕ) {M W W' : ℕ} (hW : W ≤ W') (hle : W' ≤ 2 * M) :
    idealReward base M W' ≤ idealReward base M W := by
  by_cases hM : W ≤ M
  · refine (idealReward_le base hle).trans (le_of_eq ?_)
    rw [idealReward, if_pos hM]
  rw [idealReward, idealReward, if_neg hM, if_neg (by omega)]
  exact Nat.div_le_div_right (Nat.div_le_div_right
    (Nat.mul_le_mul_left _ (penalty_antitone (by omega) hW hle)))

section Reward

variable {median weight : UInt64} (generated : UInt64) {version : UInt8}
  (hM : (effectiveMedian median version).toNat < 2 ^ 32)

include hM

theorem toNat_two_mul_median :
    (2 * effectiveMedian median version).toNat = 2 * (effectiveMedian median version).toNat := by
  rw [UInt64.toNat_mul]
  change 2 * _ % 2 ^ 64 = _
  omega

/-- The multiplicand in words. -/
theorem toNat_multiplicand (hle : weight.toNat ≤ 2 * (effectiveMedian median version).toNat)
    (hgt : (effectiveMedian median version).toNat < weight.toNat) :
    ((2 * effectiveMedian median version - weight) * weight).toNat =
      (2 * (effectiveMedian median version).toNat - weight.toNat) * weight.toNat := by
  have hdouble := toNat_two_mul_median hM
  have hlt := penalty_le hgt.le hle
  have hsq := Nat.mul_lt_mul'' hM hM
  rw [UInt64.toNat_mul, UInt64.toNat_sub_of_le _ _ (UInt64.le_iff_toNat_le.mpr (by omega)), hdouble,
    Nat.mod_eq_of_lt (by omega)]

/-- **`get_block_reward` in natural numbers.** -/
theorem getBlockReward_eq :
    getBlockReward median weight generated version =
      if weight.toNat ≤ 2 * (effectiveMedian median version).toNat then
        some (UInt64.ofNat (idealReward (baseBlockReward generated version).toNat
          (effectiveMedian median version).toNat weight.toNat))
      else none := by
  have hdouble := toNat_two_mul_median hM
  have hunfold : getBlockReward median weight generated version =
      if weight ≤ effectiveMedian median version then some (baseBlockReward generated version)
      else if weight > 2 * effectiveMedian median version then none
      else some (UInt64.ofNat ((baseBlockReward generated version).toNat *
        ((2 * effectiveMedian median version - weight) * weight).toNat /
          (effectiveMedian median version).toNat / (effectiveMedian median version).toNat)) := rfl
  rw [hunfold]
  simp only [UInt64.le_iff_toNat_le, gt_iff_lt, UInt64.lt_iff_toNat_lt, hdouble]
  by_cases hsmall : weight.toNat ≤ (effectiveMedian median version).toNat
  · rw [if_pos hsmall, if_pos (by omega), idealReward, if_pos hsmall, UInt64.ofNat_toNat]
  rw [if_neg hsmall]
  by_cases hle : weight.toNat ≤ 2 * (effectiveMedian median version).toNat
  · rw [if_neg (by omega), if_pos hle, toNat_multiplicand hM hle (by omega), idealReward,
      if_neg hsmall]
  · rw [if_pos (by omega), if_neg hle]

end Reward

/-- **The reward of a block**, for a median below `2 ^ 32`: none above twice the median, the base
reward up to the median, and the penalised one between. There the product of 128 bits does not
overflow, the quotient has the high word 0, and the reward never grows with the weight. -/
theorem get_block_reward_exact (median weight generated : UInt64) (version : UInt8)
    (hM : (effectiveMedian median version).toNat < 2 ^ 32) :
    (getBlockReward median weight generated version = none ↔
        2 * (effectiveMedian median version).toNat < weight.toNat) ∧
      (weight ≤ effectiveMedian median version →
        getBlockReward median weight generated version =
          some (baseBlockReward generated version)) ∧
      (effectiveMedian median version < weight →
        weight.toNat ≤ 2 * (effectiveMedian median version).toNat →
        ∃ reward, getBlockReward median weight generated version = some reward ∧
          reward.toNat = (baseBlockReward generated version).toNat *
            ((2 * (effectiveMedian median version).toNat - weight.toNat) * weight.toNat) /
              (effectiveMedian median version).toNat / (effectiveMedian median version).toNat ∧
          (baseBlockReward generated version).toNat *
            ((2 * (effectiveMedian median version).toNat - weight.toNat) * weight.toNat) <
              2 ^ 128 ∧
          penaltyWords (baseBlockReward generated version)
            ((2 * effectiveMedian median version - weight) * weight)
              (effectiveMedian median version) = (reward, 0)) ∧
      (∀ reward, getBlockReward median weight generated version = some reward →
        reward ≤ baseBlockReward generated version) ∧
      ∀ weight' reward reward', weight ≤ weight' →
        getBlockReward median weight generated version = some reward →
        getBlockReward median weight' generated version = some reward' → reward' ≤ reward := by
  have hbase := (baseBlockReward generated version).toNat_lt
  have hnat : ∀ w : UInt64, w.toNat ≤ 2 * (effectiveMedian median version).toNat →
      (UInt64.ofNat (idealReward (baseBlockReward generated version).toNat
        (effectiveMedian median version).toNat w.toNat)).toNat =
      idealReward (baseBlockReward generated version).toNat
        (effectiveMedian median version).toNat w.toNat := fun w hw => by
    rw [UInt64.toNat_ofNat', Nat.mod_eq_of_lt ((idealReward_le _ hw).trans_lt hbase)]
  refine ⟨?_, fun hsmall => ?_, fun hgt hle => ?_, fun reward hreward => ?_,
    fun weight' reward reward' hw hreward hreward' => ?_⟩
  · rw [getBlockReward_eq generated hM]
    split_ifs with hle
    · simp only [false_iff]
      omega
    simp only [true_iff]
    omega
  · rw [UInt64.le_iff_toNat_le] at hsmall
    rw [getBlockReward_eq generated hM, if_pos (by omega), idealReward, if_pos hsmall,
      UInt64.ofNat_toNat]
  · rw [UInt64.lt_iff_toNat_lt] at hgt
    have hreward : getBlockReward median weight generated version = _ :=
      (getBlockReward_eq generated hM).trans (if_pos hle)
    have hideal := hnat weight hle
    have hsq := Nat.mul_lt_mul'' hM hM
    have hpen := penalty_le hgt.le hle
    have hlt := Nat.mul_lt_mul'' hbase (hpen.trans_lt hsq)
    have hwords : wordsValue (penaltyWords (baseBlockReward generated version)
        ((2 * effectiveMedian median version - weight) * weight)
          (effectiveMedian median version)) =
        idealReward (baseBlockReward generated version).toNat
          (effectiveMedian median version).toNat weight.toNat := by
      rw [penaltyWords, div128_64_value, div128_64_value, mul128_value,
        toNat_multiplicand hM hle hgt, idealReward, if_neg (by omega)]
    refine ⟨_, hreward, ?_, hlt, ?_⟩
    · rw [hideal, idealReward, if_neg (by omega)]
    · exact eq_of_wordsValue (hwords.trans hideal.symm)
  · rw [getBlockReward_eq generated hM] at hreward
    split_ifs at hreward with hle
    cases hreward
    rw [UInt64.le_iff_toNat_le, hnat weight hle]
    exact idealReward_le _ hle
  · rw [getBlockReward_eq generated hM] at hreward hreward'
    split_ifs at hreward hreward' with hle hle'
    cases hreward
    cases hreward'
    rw [UInt64.le_iff_toNat_le, hnat weight hle, hnat weight' hle']
    exact idealReward_antitone _ (UInt64.le_iff_toNat_le.mp hw) hle'

/-- A block half again as heavy as the zone of full reward loses a quarter of the reward. -/
theorem get_block_reward_exact_sample :
    (effectiveMedian 0 16).toNat < 2 ^ 32 ∧
      ∃ reward, getBlockReward 0 450000 0 16 = some reward ∧
        reward.toNat = 35184372088831 * ((2 * 300000 - 450000) * 450000) / 300000 / 300000 := by
  have hM : (effectiveMedian 0 16).toNat < 2 ^ 32 := by decide
  obtain ⟨reward, hreward, hvalue, -⟩ :=
    (get_block_reward_exact 0 450000 0 16 hM).2.2.1 (by decide) (by decide)
  exact ⟨hM, reward, hreward, hvalue⟩

end Hashmonkey.Core
