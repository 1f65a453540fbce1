import Hashmonkey.Basic.FormatUtils
import Hashmonkey.Lib.WrapSum

/-!
# The reward of a block

* `getBlockReward`: `get_block_reward` (`cryptonote_basic_impl.cpp`), the reward that the emission
  allows for a block, less the penalty for a block above the median weight;
* `prevalidateMinerTransaction`: the form of a coinbase transaction;
* `validateMinerTransaction`: its amounts. It yields the reward allowed and the base reward that is
  left: from version 2 to 12 a miner may claim less, and the rest is emitted later;
* `nextGeneratedCoins`: `already_generated_coins` after the block.

Amounts are `uint64_t` and every sum and difference wraps. **`validateMinerTransaction_spec`** says
what an accepted coinbase transaction pays in natural numbers, as long as the allowed reward and
the fees together fit: `checkOutsOverflow_sum` makes the sum of the outputs exact, and a claim below
the fees would wrap to more than the reward.
-/

namespace Hashmonkey.Core

open Basic Lib

/-! ## Definitions -/

/-- `MONEY_SUPPLY`. -/
def moneySupply : UInt64 := 0xffffffffffffffff

/-- `get_min_block_weight`: `CRYPTONOTE_BLOCK_GRANTED_FULL_REWARD_ZONE_V1`, `_V2`, `_V5`. -/
def getMinBlockWeight (version : UInt8) : UInt64 :=
  if version < 2 then 20000 else if version < 5 then 60000 else 300000

/-- The base reward of `get_block_reward`: a part of what is left, at least the final subsidy. -/
def baseBlockReward (alreadyGeneratedCoins : UInt64) (version : UInt8) : UInt64 :=
  let targetMinutes : UInt64 := if version < 2 then 1 else 2
  let emissionSpeedFactor := 20 - (targetMinutes - 1)
  let baseReward := (moneySupply - alreadyGeneratedCoins) >>> emissionSpeedFactor
  if baseReward < 300000000000 * targetMinutes then 300000000000 * targetMinutes else baseReward

/-- `get_block_reward`. The product and the two quotients have 128 bits. -/
def getBlockReward (medianWeight currentBlockWeight alreadyGeneratedCoins : UInt64)
    (version : UInt8) : Option UInt64 :=
  let baseReward := baseBlockReward alreadyGeneratedCoins version
  let fullRewardZone := getMinBlockWeight version
  let medianWeight := if medianWeight < fullRewardZone then fullRewardZone else medianWeight
  if currentBlockWeight ≤ medianWeight then some baseReward
  else if currentBlockWeight > 2 * medianWeight then none
  else
    let multiplicand := (2 * medianWeight - currentBlockWeight) * currentBlockWeight
    let product := baseReward.toNat * multiplicand.toNat
    some (UInt64.ofNat (product / medianWeight.toNat / medianWeight.toNat))

/-- The loop of `check_outs_overflow`. -/
def checkOutsOverflowFrom : UInt64 → List TxOut → Bool
  | _, [] => true
  | money, o :: vout =>
    if money > o.amount + money then false else checkOutsOverflowFrom (money + o.amount) vout

/-- `check_outs_overflow`. -/
def checkOutsOverflow (p : TransactionPrefix) : Bool := checkOutsOverflowFrom 0 p.vout

/-- `get_outs_money_amount`, and `money_in_use` of `validate_miner_transaction`. -/
def getOutsMoneyAmount (p : TransactionPrefix) : UInt64 :=
  p.vout.foldl (fun money o => money + o.amount) 0

/-- `while (amount % 10 == 0) amount /= 10`, for an amount that is not zero. -/
def stripZeros (amount : Nat) : Nat :=
  if amount ≠ 0 ∧ amount % 10 = 0 then stripZeros (amount / 10) else amount
termination_by amount

/-- `is_valid_decomposed_amount`. -/
def isValidDecomposedAmount (amount : UInt64) : Bool :=
  amount ≠ 0 ∧ stripZeros amount.toNat < 10

/-- Whether an output target is a `txout_to_key`. -/
def isTxoutToKey : TxoutTargetV → Bool
  | .key _ => true
  | _ => false

/-- Whether an output target is a `txout_to_tagged_key`. -/
def isTxoutToTaggedKey : TxoutTargetV → Bool
  | .taggedKey .. => true
  | _ => false

/-- `check_output_types`: from version 15 on keys with view tags, and only those after it. -/
def checkOutputTypes (p : TransactionPrefix) (hfVersion : UInt8) : Bool :=
  if hfVersion > 15 then p.vout.all fun o => isTxoutToTaggedKey o.target
  else if hfVersion < 15 then p.vout.all fun o => isTxoutToKey o.target
  else
    p.vout.all (fun o => isTxoutToKey o.target) ||
      p.vout.all fun o => isTxoutToTaggedKey o.target

/-- `Blockchain::prevalidate_miner_transaction`, with `CRYPTONOTE_MINED_MONEY_UNLOCK_WINDOW`. -/
def prevalidateMinerTransaction (b : Block) (height : Nat) (hfVersion : UInt8) : Bool :=
  match b.minerTx.vin with
  | [.gen h] =>
    (b.minerTx.version > 1 || hfVersion < 12) &&
    (!(hfVersion ≥ 12 && b.minerTx.version ≥ 2) || b.minerTx.rctSignatures.type = .null) &&
    h = UInt64.ofNat height &&
    b.minerTx.unlockTime = UInt64.ofNat height + 60 &&
    checkOutsOverflow b.minerTx.toTransactionPrefix &&
    checkOutputTypes b.minerTx.toTransactionPrefix hfVersion
  | _ => false

/-- What `validate_miner_transaction` finds: the reward that `get_block_reward` allows, the base
reward it leaves, and `partial_block_reward`. -/
structure MinerReward where
  allowed : UInt64
  baseReward : UInt64
  partialReward : Bool
  deriving DecidableEq

/-- `Blockchain::validate_miner_transaction`. -/
def validateMinerTransaction (b : Block) (cumulativeBlockWeight fee alreadyGeneratedCoins
    medianWeight : UInt64) (version : UInt8) : Option MinerReward :=
  let moneyInUse := getOutsMoneyAmount b.minerTx.toTransactionPrefix
  if version = 3 ∧ ¬ b.minerTx.vout.all (fun o => isValidDecomposedAmount o.amount) then none
  else
    match getBlockReward medianWeight cumulativeBlockWeight alreadyGeneratedCoins version with
    | none => none
    | some reward =>
      if reward + fee < moneyInUse then none
      else if version < 2 ∨ version ≥ 13 then
        if reward + fee ≠ moneyInUse then none else some ⟨reward, reward, false⟩
      else if ¬ moneyInUse - fee ≤ reward then none
      else some ⟨reward, moneyInUse - fee, reward + fee ≠ moneyInUse⟩

/-- `already_generated_coins` after a block: capped at `MONEY_SUPPLY`. -/
def nextGeneratedCoins (alreadyGeneratedCoins baseReward : UInt64) : UInt64 :=
  if baseReward < moneySupply - alreadyGeneratedCoins then alreadyGeneratedCoins + baseReward
  else moneySupply

/-! ## Sums that do not wrap -/

/-- What a coinbase transaction pays, in natural numbers. -/
def coinbaseTotal (b : Block) : Nat :=
  (b.minerTx.vout.map fun o => o.amount.toNat).sum

theorem checkOutsOverflowFrom_sum {money : UInt64} {vout : List TxOut}
    (h : checkOutsOverflowFrom money vout = true) :
    (vout.foldl (fun money o => money + o.amount) money).toNat =
      money.toNat + (vout.map fun o => o.amount.toNat).sum := by
  induction vout generalizing money with
  | nil => rfl
  | cons o vout ih =>
    rw [checkOutsOverflowFrom] at h
    split at h
    · cases h
    rename_i hle
    have hadd : (money + o.amount).toNat = money.toNat + o.amount.toNat := by
      rw [gt_iff_lt, UInt64.lt_iff_toNat_lt, UInt64.toNat_add, Nat.add_comm,
        wrap_lt_iff money.toNat_lt o.amount.toNat_lt] at hle
      rw [UInt64.toNat_add, Nat.mod_eq_of_lt (Nat.not_le.mp hle)]
    rw [List.foldl_cons, ih h, hadd, List.map_cons, List.sum_cons, Nat.add_assoc]

/-- A coinbase transaction that passes the first checks has outputs whose sum is exact. -/
theorem getOutsMoneyAmount_toNat {b : Block} {height : Nat} {hf : UInt8}
    (h : prevalidateMinerTransaction b height hf = true) :
    (getOutsMoneyAmount b.minerTx.toTransactionPrefix).toNat = coinbaseTotal b := by
  unfold prevalidateMinerTransaction at h
  split at h
  · simp only [Bool.and_eq_true] at h
    rw [getOutsMoneyAmount, checkOutsOverflowFrom_sum h.1.2, coinbaseTotal]
    exact Nat.zero_add _
  · cases h

/-- The stored amount of coins is the natural-number sum, capped. -/
theorem nextGeneratedCoins_toNat (coins reward : UInt64) :
    (nextGeneratedCoins coins reward).toNat = min (2 ^ 64 - 1) (coins.toNat + reward.toNat) := by
  have hc := coins.toNat_lt
  have hsub : (moneySupply - coins).toNat = 2 ^ 64 - 1 - coins.toNat := by
    rw [UInt64.toNat_sub_of_le _ _ (UInt64.le_iff_toNat_le.mpr (Nat.le_of_lt_succ hc))]
    rfl
  unfold nextGeneratedCoins
  split
  · rename_i hlt
    rw [UInt64.lt_iff_toNat_lt, hsub] at hlt
    rw [UInt64.toNat_add, Nat.mod_eq_of_lt (by omega), Nat.min_eq_right (by omega)]
  · rename_i hge
    rw [UInt64.lt_iff_toNat_lt, hsub] at hge
    rw [Nat.min_eq_left (by omega)]
    rfl

/-- **What an accepted coinbase transaction pays**, when the allowed reward and the fees together
fit in 64 bits: never more than both; exactly both below version 2 and from 13 on; and at least the
fees in between, with the rest as the base reward that is left. -/
theorem validateMinerTransaction_spec {b : Block} {height : Nat} {hf : UInt8}
    {weight fee coins median : UInt64} {r : MinerReward}
    (hpre : prevalidateMinerTransaction b height hf = true)
    (h : validateMinerTransaction b weight fee coins median hf = some r)
    (hfit : r.allowed.toNat + fee.toNat < 2 ^ 64) :
    getBlockReward median weight coins hf = some r.allowed ∧
      coinbaseTotal b = r.baseReward.toNat + fee.toNat ∧ r.baseReward ≤ r.allowed ∧
      (hf < 2 ∨ hf ≥ 13 → r.baseReward = r.allowed) := by
  have hsum := getOutsMoneyAmount_toNat hpre
  unfold validateMinerTransaction at h
  dsimp only at h
  split at h
  · cases h
  split at h
  · cases h
  rename_i reward hreward
  generalize getOutsMoneyAmount b.minerTx.toTransactionPrefix = money at h hsum
  split at h
  · cases h
  split at h
  · split at h
    · cases h
    · rename_i heq
      cases h
      -- the exact versions: reward and fees are what is paid
      rw [← hsum, ← not_not.mp heq, UInt64.toNat_add, Nat.mod_eq_of_lt hfit]
      exact ⟨hreward, rfl, UInt64.le_refl _, fun _ => rfl⟩
  · rename_i hver
    split at h
    · cases h
    rename_i hle
    cases h
    -- a claim below the fees would wrap to more than the reward
    have hfee : fee ≤ money := by
      rw [not_not, UInt64.le_iff_toNat_le, UInt64.toNat_sub] at hle
      rw [UInt64.le_iff_toNat_le]
      dsimp only at hfit
      by_contra hlt
      omega
    have hsub := UInt64.toNat_sub_of_le _ _ hfee
    rw [UInt64.le_iff_toNat_le] at hfee
    refine ⟨hreward, ?_, not_not.mp hle, fun hc => absurd hc hver⟩
    rw [← hsum, hsub, Nat.sub_add_cancel hfee]

end Hashmonkey.Core
