import Hashmonkey.Core.TxInputs
import Hashmonkey.Core.HardFork
import Hashmonkey.Core.Difficulty
import Hashmonkey.Core.BlockReward

/-!
# The blockchain (`cryptonote_core/blockchain.cpp`)

The state of a node, and what is read off it when a block comes in.

* `Blockchain`: the blocks of the main chain (top block first) with what the database keeps for
  each, the table of alternative blocks, the hard fork state, the caches of the difficulty, the
  weight limits, the ids of invalid blocks, the tables that `prepare_handle_incoming_blocks` fills,
  the transaction pool and the clock;
* `Node`: what stays fixed. The hash functions, the proofs of transactions, transaction weights and
  the pool are parameters; the schedule of forks, the checkpoints, the precomputed block hashes and
  `--fixed-difficulty` are configuration;
* the outputs, key images and transactions of the chain, as `m_db` finds them;
* `getDifficultyForNextBlock` with its two caches, and the weight limits.

The database keeps blocks, not their blobs. Heights are natural numbers.
-/

namespace Hashmonkey.Core

open Basic Ringct

/-! ## State -/

/-- A block of the main chain with what `m_db->add_block` stores for it. -/
structure StoredBlock where
  bl : Block
  txs : List Transaction
  weight : UInt64
  longTermWeight : UInt64
  cumulativeDifficulty : Nat
  alreadyGeneratedCoins : UInt64

/-- `block_extended_info`, also what the table of alternative blocks keeps. -/
structure BlockExtendedInfo where
  bl : Block
  height : Nat
  blockCumulativeWeight : UInt64
  cumulativeDifficulty : Nat
  alreadyGeneratedCoins : UInt64

/-- What `take_tx` hands out. -/
structure PoolTx where
  tx : Transaction
  weight : UInt64
  fee : UInt64
  pruned : Bool
  validInputVerificationId : Hash

/-- The operations of `tx_memory_pool` that the blockchain uses. -/
structure TxPool (P : Type) where
  takeTx : P → Hash → Option (PoolTx × P)
  /-- `add_tx` at a version, with a verification id: the result and `m_verifivation_failed` -/
  addTx : P → Transaction → UInt8 → Hash → P × Bool × Bool
  haveTx : P → Hash → Bool
  /-- the weight in `get_transaction_info` -/
  txWeight : P → Hash → Option UInt64
  onBlockchainInc : P → Nat → Hash → P
  onBlockchainDec : P → Nat → Hash → P
  validate : P → UInt8 → P

/-- What stays fixed while a node runs. -/
structure Node (P : Type) where
  getBlockHash : Block → Hash
  cnFastHash : Bytes → Hash
  /-- `get_block_longhash` for a height and a seed hash -/
  getBlockLonghash : Block → Nat → Hash → Hash
  getAltblockLonghash : Block → Hash → Hash
  verInputProofsRings : Transaction → List (List CtKey) → Bool
  makeInputVerificationId : Hash → List (List CtKey) → Hash
  verNonInputConsensus : List (Hash × Transaction) → UInt8 → Bool
  zeroCommit : UInt64 → Key
  getTransactionWeight : Transaction → UInt64
  getPrunedTransactionWeight : Transaction → UInt64
  txPool : TxPool P
  schedule : Schedule
  /-- as in all tables of `hardforks.cpp` -/
  forks_unvoted : schedule.Unvoted
  checkpoints : List (Nat × Hash)
  /-- `m_blocks_hash_check`: expected ids and weights by height -/
  blocksHashCheck : List (Hash × UInt64)
  fixedDifficulty : Nat
  longTermBlockWeightsWindow : Nat := 100000

/-- What `get_difficulty_for_next_block` keeps: the last difficulty with the top block it was for,
and the window of the last blocks that the next one can be computed from. -/
structure DifficultyCache where
  /-- `m_difficulty_for_next_block_top_hash` -/
  topHash : Hash := nullHash
  /-- `m_difficulty_for_next_block` -/
  forNextBlock : Nat := 1
  /-- `m_timestamps_and_difficulties_height` -/
  height : Nat := 0
  /-- `m_reset_timestamps_and_difficulties_height` -/
  reset : Bool := true
  timestamps : List UInt64 := []
  difficulties : List Nat := []

/-- The state of the `Blockchain` object and of its database. -/
structure Blockchain (P : Type) where
  /-- the main chain, top block first -/
  chain : List StoredBlock := []
  altBlocks : List (Hash × BlockExtendedInfo) := []
  hardFork : HardFork := {}
  difficultyCache : DifficultyCache := {}
  currentBlockCumulWeightLimit : UInt64 := 0
  currentBlockCumulWeightMedian : UInt64 := 0
  longTermEffectiveMedianBlockWeight : UInt64 := 0
  invalidBlocks : List Hash := []
  blocksLonghashTable : List (Hash × Hash) := []
  scanTable : Hash → KeyImage → Option (List OutputData) := fun _ _ => none
  txPool : P
  /-- `time(NULL)` -/
  now : UInt64 := 0
  /-- how often "PANIC! failed to add (again) block" was logged -/
  panics : Nat := 0

variable {P : Type} (n : Node P)

/-! ## Reading the chain -/

/-- The elements of a list that is kept last first, from index `lo` up to index `hi` excluded, in
ascending order. -/
def between {α : Type} (l : List α) (lo hi : Nat) : List α :=
  ((l.drop (l.length - hi)).take (hi - lo)).reverse

/-- The id of the last block of a chain, the null hash for an empty one. -/
def topId (chain : List StoredBlock) : Hash :=
  match chain with
  | [] => nullHash
  | e :: _ => n.getBlockHash e.bl

@[simp] theorem topId_cons (e : StoredBlock) (chain : List StoredBlock) :
    topId n (e :: chain) = n.getBlockHash e.bl := rfl

theorem topId_eq_of_map_eq {c c' : List StoredBlock}
    (h : c.map StoredBlock.bl = c'.map StoredBlock.bl) : topId n c = topId n c' := by
  cases c with
  | nil =>
    rw [List.map_eq_nil_iff.mp h.symm]
  | cons e c =>
    obtain ⟨e', c', rfl, he, -⟩ := List.map_eq_cons_iff.mp h.symm
    rw [topId_cons, topId_cons, he]

namespace Blockchain

/-- `m_db->height()`. -/
def height (s : Blockchain P) : Nat := s.chain.length

/-- The blocks of the main chain, top block first. -/
def blocks (s : Blockchain P) : List Block := s.chain.map StoredBlock.bl

/-- `m_db->top_block_hash()`. -/
def topBlockHash (s : Blockchain P) : Hash := topId n s.chain

/-- The cumulative difficulty of the top block. -/
def topCumulativeDifficulty (s : Blockchain P) : Nat :=
  match s.chain with
  | [] => 0
  | e :: _ => e.cumulativeDifficulty

/-- `m_db->get_block_already_generated_coins` of the top block, zero for an empty chain. -/
def topGeneratedCoins (s : Blockchain P) : UInt64 :=
  match s.chain with
  | [] => 0
  | e :: _ => e.alreadyGeneratedCoins

/-- `get_block_id_by_height`. -/
def getBlockIdByHeight (s : Blockchain P) (height : Nat) : Hash :=
  match (between s.chain height (height + 1)).head? with
  | none => nullHash
  | some e => n.getBlockHash e.bl

/-- The part of the main chain that ends in the block with the given id. -/
def upTo (s : Blockchain P) (id : Hash) : List StoredBlock :=
  s.chain.dropWhile fun e => n.getBlockHash e.bl ≠ id

/-- `m_db->block_exists`. -/
def blockExists (s : Blockchain P) (id : Hash) : Bool := !(s.upTo n id).isEmpty

/-- `m_db->get_block_height`, of a block that exists. -/
def getBlockHeight (s : Blockchain P) (id : Hash) : Nat := (s.upTo n id).length - 1

/-- `get_current_hard_fork_version`. -/
def hfVersion (s : Blockchain P) : UInt8 := s.hardFork.getCurrentVersion n.schedule

/-- `get_last_n_blocks_weights`. -/
def getLastNBlocksWeights (s : Blockchain P) (count : Nat) : List UInt64 :=
  (between s.chain (s.height - min s.height count) s.height).map StoredBlock.weight

end Blockchain

/-- The outputs that `add_transaction` stores: those of a miner transaction of version 2 are kept
with amount zero and a commitment to the amount. -/
def txOutputs (height : Nat) (tx : Transaction) : List (UInt64 × OutputData) :=
  let minerTx := tx.vin.any fun | .gen _ => true | _ => false
  tx.vout.zipIdx.filterMap fun (o, i) =>
    (getOutputPublicKey o).map fun key =>
      if minerTx ∧ tx.version = 2 then (0, ⟨key, tx.unlockTime, height, n.zeroCommit o.amount⟩)
      else if o.amount = 0 then
        (0, ⟨key, tx.unlockTime, height, (tx.rctSignatures.outPk.map CtKey.mask).getD i nullHash⟩)
      else (o.amount, ⟨key, tx.unlockTime, height, n.zeroCommit o.amount⟩)

namespace Blockchain

/-- All outputs of the main chain with their amounts, oldest first. -/
def outputs (s : Blockchain P) : List (UInt64 × OutputData) :=
  s.chain.reverse.zipIdx.flatMap fun (e, h) =>
    txOutputs n h e.bl.minerTx ++ e.txs.flatMap (txOutputs n h)

/-- The key images spent on the main chain. -/
def spentKeys (s : Blockchain P) : List KeyImage := s.chain.flatMap fun e =>
  e.txs.flatMap fun tx => keyImages tx.vin

/-- `m_db->tx_exists`. -/
def txExists (s : Blockchain P) (id : Hash) : Bool :=
  s.chain.any fun e => e.bl.txHashes.contains id ||
    getTransactionHash n.cnFastHash e.bl.minerTx = some id

/-- What `check_tx_inputs` reads. -/
def view (s : Blockchain P) : ChainView where
  hfVersion := s.hfVersion n
  timestamps := s.chain.reverse.map fun e => e.bl.timestamp
  now := s.now
  numOutputs := fun amount => UInt64.ofNat ((s.outputs n).countP fun o => o.1 = amount)
  outputKey := fun amount index =>
    (((s.outputs n).filter fun o => o.1 = amount)[index.toNat]?).map Prod.snd
  spent := fun k => s.spentKeys.contains k
  scanTable := s.scanTable

end Blockchain

/-! ## Difficulty of the next block -/

/-- The first block of the window of `get_difficulty_for_next_block`, for a chain of the given
height: the genesis block is left out. -/
def difficultyOffset (height : Nat) : Nat :=
  let offset := height - min height difficultyBlocksCount
  if offset = 0 then 1 else offset

/-- `m_timestamps_and_difficulties_height = 0` and
`m_reset_timestamps_and_difficulties_height = true`. -/
def DifficultyCache.invalidate (c : DifficultyCache) : DifficultyCache :=
  { c with height := 0, reset := true }

/-- The two branches of `get_difficulty_for_next_block` that bring the window up to the top block:
one more entry if it ends just below, or all entries. -/
def DifficultyCache.fill (c : DifficultyCache) (chain : List StoredBlock) : DifficultyCache :=
  let height := chain.length
  let tdHeight := if c.reset then 0 else c.height
  if tdHeight ≠ 0 ∧ height = tdHeight + 1 ∧ c.timestamps.length ≥ difficultyBlocksCount then
    let last := between chain (height - 1) height
    let timestamps := c.timestamps ++ last.map fun e => e.bl.timestamp
    let difficulties := c.difficulties ++ last.map StoredBlock.cumulativeDifficulty
    { c with
      timestamps := timestamps.drop (timestamps.length - difficultyBlocksCount)
      difficulties := difficulties.drop (difficulties.length - difficultyBlocksCount)
      height := height }
  else
    let window := between chain (difficultyOffset height) height
    { c with
      timestamps := window.map fun e => e.bl.timestamp
      difficulties := window.map StoredBlock.cumulativeDifficulty
      height := height }

/-- `DIFFICULTY_TARGET_V1` or `DIFFICULTY_TARGET_V2`, by the version. -/
def difficultyTarget (version : UInt8) : Nat :=
  if version < 2 then difficultyTargetV1.toNat else difficultyTargetV2.toNat

/-- `get_difficulty_for_next_block`, for a chain and the version in force: the difficulty, and what
is kept of it. -/
def DifficultyCache.next (c : DifficultyCache) (chain : List StoredBlock) (version : UInt8) :
    Nat × DifficultyCache :=
  if n.fixedDifficulty ≠ 0 then (if chain.length = 0 then 1 else n.fixedDifficulty, c)
  else if topId n chain = c.topHash then (c.forNextBlock, c)
  else
    let c := c.fill chain
    let diff := nextDifficulty c.timestamps c.difficulties (difficultyTarget version)
    (diff, { c with topHash := topId n chain, forNextBlock := diff })

namespace Blockchain

/-- `get_difficulty_for_next_block`. -/
def getDifficultyForNextBlock (s : Blockchain P) : Nat × DifficultyCache :=
  s.difficultyCache.next n s.chain (s.hfVersion n)

/-! ## Weight limits -/

/-- `get_long_term_block_weight_median` of the last blocks. -/
def getLongTermBlockWeightMedian (s : Blockchain P) : UInt64 :=
  median ((between s.chain (s.height - min n.longTermBlockWeightsWindow s.height) s.height).map
    StoredBlock.longTermWeight)

/-- `get_next_long_term_block_weight`. -/
def getNextLongTermBlockWeight (s : Blockchain P) (blockWeight : UInt64) : UInt64 :=
  let hf := s.hfVersion n
  if hf < 10 then blockWeight
  else
    let median := max 300000 (s.getLongTermBlockWeightMedian n)
    if hf ≥ 15 then min (max blockWeight (median * 10 / 17)) (median + median * 7 / 10)
    else min blockWeight (median + median * 2 / 5)

/-- `update_next_cumulative_weight_limit`. -/
def updateNextCumulativeWeightLimit (s : Blockchain P) : Blockchain P :=
  let hf := s.hfVersion n
  let fullRewardZone := getMinBlockWeight hf
  let shortTermMedian := median (s.getLastNBlocksWeights 100)
  let longTermEffective := max 300000 (s.getLongTermBlockWeightMedian n)
  let effectiveMedian :=
    if hf < 10 then shortTermMedian
    else if hf ≥ 15 then min (max longTermEffective shortTermMedian) (50 * longTermEffective)
    else min (max 300000 shortTermMedian) (50 * longTermEffective)
  let median := if effectiveMedian ≤ fullRewardZone then fullRewardZone else effectiveMedian
  { s with
    currentBlockCumulWeightMedian := median
    currentBlockCumulWeightLimit := median * 2
    longTermEffectiveMedianBlockWeight :=
      if hf < 10 then s.longTermEffectiveMedianBlockWeight else longTermEffective }

end Blockchain

end Hashmonkey.Core
