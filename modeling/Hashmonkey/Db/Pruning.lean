import Hashmonkey.Db.Tables

/-!
# Pruning stripes (`common/pruning.cpp`)

A node may drop the prunable data of old blocks. Runs of 4096 blocks are dealt out to stripes in
turn. A pruning seed of 32 bits says how many stripes there are (a power of two) and which of them a
node keeps; the last 5500 blocks are in no stripe, and everyone keeps them.

* `getPruningLogStripes`, `getPruningStripe`: what a seed says;
* `blockPruningStripe`: the stripe of a block, by its height and that of the chain;
* `hasUnprunedBlock`: whether a node with a seed has a block in full;
* `makePruningSeed`: the seed of a stripe; the two errors are the exceptions it throws.

Heights are natural numbers. What follows for the blocks that a node asks its peers for is in
`Protocol/SpanHeights`.
-/

namespace Hashmonkey.Db

/-- `CRYPTONOTE_PRUNING_STRIPE_SIZE`. -/
def pruningStripeSize : Nat := 4096

/-- `CRYPTONOTE_PRUNING_LOG_STRIPES`. -/
def pruningLogStripes : UInt32 := 3

/-- `CRYPTONOTE_PRUNING_TIP_BLOCKS`. -/
def pruningTipBlocks : Nat := 5500

/-- `get_pruning_log_stripes`. -/
def getPruningLogStripes (pruningSeed : UInt32) : UInt32 := (pruningSeed >>> 7) &&& 0x7

/-- `get_pruning_stripe` of a seed. -/
def getPruningStripe (pruningSeed : UInt32) : UInt32 :=
  if pruningSeed = 0 then 0 else 1 + ((pruningSeed >>> (0 : UInt32)) &&& 0x7f)

/-- `get_pruning_stripe` of a block. -/
def blockPruningStripe (blockHeight blockchainHeight : Nat) (logStripes : UInt32) : UInt32 :=
  if blockchainHeight ≤ blockHeight + pruningTipBlocks then 0
  else UInt32.ofNat ((blockHeight / pruningStripeSize) &&& (2 ^ logStripes.toNat - 1)) + 1

/-- `has_unpruned_block`. -/
def hasUnprunedBlock (blockHeight blockchainHeight : Nat) (pruningSeed : UInt32) : Bool :=
  let stripe := getPruningStripe pruningSeed
  if stripe = 0 then true
  else
    let blockStripe :=
      blockPruningStripe blockHeight blockchainHeight (getPruningLogStripes pruningSeed)
    blockStripe = 0 || blockStripe = stripe

/-- `make_pruning_seed`. -/
def makePruningSeed (stripe logStripes : UInt32) : Except String UInt32 :=
  if ¬ logStripes ≤ 7 then .error "log_stripes out of range"
  else if ¬ (stripe > 0 ∧ stripe.toNat ≤ 2 ^ logStripes.toNat) then .error "stripe out of range"
  else .ok ((logStripes <<< 7) ||| ((stripe - 1) <<< (0 : UInt32)))

end Hashmonkey.Db
