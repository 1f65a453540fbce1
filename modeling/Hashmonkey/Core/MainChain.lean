import Hashmonkey.Core.Blockchain

/-!
# Adding a block to the main chain (`blockchain.cpp`, `handle_block_to_main_chain`)

* `checkPlace`, `checkWork`: the checks before the transactions, in the order of the source;
* `takeTxs`: the loop that takes the transactions of the block from the pool or from the
  supplement, checks their inputs, and sums up fees and weights (both wrap);
* `addBlockAllowed`: whether `m_db->add_block` throws;
* `handleBlockToMainChain`: all of it, with what a refused block leaves behind.

A transaction pool and a supplement are given; the supplement maps ids to transactions.

Results: `handleBlockToMainChain_ok` says what an accepted block went through and what the state is
then, `handleBlockToMainChain_error` what a refused block leaves alone. Later proofs use these two
and never unfold the function.
-/

namespace Hashmonkey.Core

open Basic

variable {P : Type} (n : Node P)

/-! ## Checkpoints (`checkpoints.cpp`) -/

/-- `is_in_checkpoint_zone`. -/
def isInCheckpointZone (points : List (Nat × Hash)) (height : Nat) : Bool :=
  points.any fun c => height ≤ c.1

/-- `check_block`. -/
def checkpointPassed (points : List (Nat × Hash)) (height : Nat) (id : Hash) : Bool :=
  match points.lookup height with
  | none => true
  | some expected => expected = id

/-- `is_alternative_block_allowed`: the last checkpoint up to the height of the chain, if there is
one, is below the block. -/
def isAlternativeBlockAllowed (points : List (Nat × Hash)) (blockchainHeight blockHeight : Nat) :
    Bool :=
  blockHeight ≠ 0 ∧ points.all fun c => blockchainHeight < c.1 ∨ c.1 < blockHeight

/-! ## Checks before the transactions -/

/-- Why a block is not added to the main chain. -/
inductive BlockError
  | wrongPrevId
  | oldVersion
  | invalidTimestamp
  | difficultyOverhead
  | unexpectedId
  | proofOfWork
  | checkpoint
  | prevalidation
  | poolSupplement
  | txExists
  | unknownTx
  | wrongInputs
  | prunedWithoutWeight
  | minerTransaction
  | addBlock
  deriving DecidableEq

/-- `check_block_timestamp(timestamps, b)`. -/
def checkTimestampMedian (timestamps : List UInt64) (b : Block) : Bool :=
  ¬ b.timestamp < median timestamps

/-- `check_block_timestamp(b)`. -/
def Blockchain.checkBlockTimestamp (s : Blockchain P) (b : Block) : Bool :=
  if b.timestamp > s.now + blockFutureTimeLimit then false
  else if s.height < timestampCheckWindow then true
  else
    let window := between s.chain (s.height - timestampCheckWindow) s.height
    checkTimestampMedian (window.map fun e => e.bl.timestamp) b

/-- `rx_seedheight`: the epoch changes every 2048 blocks, 64 blocks late. -/
def rxSeedheight (height : Nat) : Nat :=
  if height ≤ 2048 + 64 then 0 else (height - 64 - 1) / 2048 * 2048

/-- The checks that need no work: the parent, the version and the timestamp. -/
def checkPlace (s : Blockchain P) (b : Block) : Except BlockError Unit :=
  if b.prevId ≠ s.topBlockHash n then .error .wrongPrevId
  else if ¬ s.hardFork.check n.schedule b.toBlockHeader then .error .oldVersion
  else if ¬ s.checkBlockTimestamp b then .error .invalidTimestamp
  else .ok ()

/-- The precomputed id of the block at a height, unless it is null. -/
def expectedHash (height : Nat) : Option Hash :=
  match n.blocksHashCheck[height]? with
  | none => none
  | some (hash, _) => if hash = nullHash then none else some hash

/-- The proof of work of a block: a hash from the table, or computed with the seed of its epoch. -/
def proofOfWork (s : Blockchain P) (b : Block) : Hash :=
  (s.blocksLonghashTable.lookup (n.getBlockHash b)).getD
    (n.getBlockLonghash b s.height (s.getBlockIdByHeight n (rxSeedheight s.height)))

/-- The checks from the difficulty to the pool supplement. A block with a precomputed id
(`fast_check`, the result) needs no proof of work and no check of its transactions. -/
def checkWork (s : Blockchain P) (b : Block) (currentDiffic : Nat)
    (extraBlockTxs : List (Hash × Transaction)) : Except BlockError Bool :=
  let id := n.getBlockHash b
  let expected := expectedHash n s.height
  let fastCheck := expected.isSome
  if currentDiffic = 0 then .error .difficultyOverhead
  else if expected.any (· ≠ id) then .error .unexpectedId
  else if ¬ fastCheck ∧ ¬ checkHash (proofOfWork n s b) currentDiffic then .error .proofOfWork
  else if isInCheckpointZone n.checkpoints s.height ∧
      ¬ checkpointPassed n.checkpoints s.height id then .error .checkpoint
  else if ¬ prevalidateMinerTransaction b s.height (s.hfVersion n) then .error .prevalidation
  else if ¬ fastCheck ∧ ¬ n.verNonInputConsensus extraBlockTxs (s.hfVersion n) then
    .error .poolSupplement
  else .ok fastCheck

/-! ## Transactions -/

/-- `get_tx_fee`: zero if the inputs do not cover the outputs. -/
def getTxFee (tx : Transaction) : UInt64 :=
  if tx.version > 1 then tx.rctSignatures.txnFee
  else
    let amountIn : UInt64 :=
      tx.vin.foldl (fun sum i => match i with | .key i => sum + i.amount | _ => sum) 0
    let amountOut := getOutsMoneyAmount tx.toTransactionPrefix
    let keys := tx.vin.all fun | .key _ => true | _ => false
    if keys ∧ amountIn ≥ amountOut then amountIn - amountOut else 0

/-- What the loop over the transactions of a block has gathered. -/
structure TakenTxs (P : Type) where
  txPool : P
  extraBlockTxs : List (Hash × Transaction)
  /-- `txs` and `txs_meta`; the flag says whether the transaction was in the pool -/
  txs : List (PoolTx × Bool) := []
  feeSummary : UInt64 := 0
  cumulativeBlockWeight : UInt64

/-- The end of a turn of the loop: the inputs of a transaction that was found. -/
def checkTaken (s : Blockchain P) (fastCheck : Bool) (p : PoolTx) (inPool : Bool)
    (t : TakenTxs P) : TakenTxs P × Option BlockError :=
  let t := { t with txs := t.txs ++ [(p, inPool)] }
  let inputs := checkTxInputs n.cnFastHash n.verInputProofsRings n.makeInputVerificationId
    (s.view n) p.tx p.validInputVerificationId
  if ¬ fastCheck ∧ ¬ inputs.isOk then (t, some .wrongInputs)
  else
    ({ t with
        feeSummary := t.feeSummary + p.fee
        cumulativeBlockWeight := t.cumulativeBlockWeight + p.weight }, none)

/-- One turn of the loop over the transactions. -/
def takeTx (s : Blockchain P) (fastCheck : Bool) (txId : Hash) (t : TakenTxs P) :
    TakenTxs P × Option BlockError :=
  if s.txExists n txId then (t, some .txExists)
  else
    match n.txPool.takeTx t.txPool txId with
    | some (p, txPool) => checkTaken n s fastCheck p true { t with txPool }
    | none =>
      match t.extraBlockTxs.lookup txId with
      | none => (t, some .unknownTx)
      | some tx =>
        let weight :=
          if tx.pruned then n.getPrunedTransactionWeight tx else n.getTransactionWeight tx
        let p : PoolTx := ⟨tx, weight, getTxFee tx, tx.pruned, nullHash⟩
        checkTaken n s fastCheck p false
          { t with extraBlockTxs := t.extraBlockTxs.filter fun x => x.1 ≠ txId }

/-- The loop over the transactions: it stops at the first error. -/
def takeTxs (s : Blockchain P) (fastCheck : Bool) :
    List Hash → TakenTxs P → TakenTxs P × Option BlockError
  | [], t => (t, none)
  | txId :: txIds, t =>
    match takeTx n s fastCheck txId t with
    | (t, none) => takeTxs s fastCheck txIds t
    | (t, some e) => (t, some e)

/-- `return_txs_to_pool`. -/
def returnTxsToPool (hfVersion : UInt8) (t : TakenTxs P) : P :=
  (t.txs.filter Prod.snd).foldl (fun txPool (p, _) =>
    (n.txPool.addTx txPool p.tx hfVersion p.validInputVerificationId).1) t.txPool

/-- The weight of the block: for pruned transactions the precomputed one, if there is one. -/
def blockWeight (s : Blockchain P) (t : TakenTxs P) : Option UInt64 :=
  if t.txs.any fun (p, _) => p.pruned then
    match n.blocksHashCheck[s.height]? with
    | none => none
    | some (_, weight) => if weight = 0 then none else some weight
  else some t.cumulativeBlockWeight

/-- The median weight that `validate_miner_transaction` uses. -/
def penaltyMedian (s : Blockchain P) : UInt64 :=
  if s.hfVersion n ≥ 12 then s.currentBlockCumulWeightMedian
  else median (s.getLastNBlocksWeights 100)

/-- Whether `m_db->add_block` stores the block. It throws for a block, a transaction or a key image
that is there already, for inputs and outputs it does not know, and for outputs of amount zero
without a commitment. -/
def addBlockAllowed (s : Blockchain P) (b : Block) (txs : List Transaction) : Bool :=
  let all := b.minerTx :: txs
  let images := all.flatMap fun tx => keyImages tx.vin
  match getTransactionHash n.cnFastHash b.minerTx with
  | none => false
  | some minerTxHash =>
    let ids := minerTxHash :: b.txHashes
    !s.blockExists n (n.getBlockHash b) &&
    decide ids.Nodup && ids.all (fun id => !s.txExists n id) &&
    decide images.Nodup && images.all (fun k => !s.spentKeys.contains k) &&
    all.all (fun tx => tx.vin.all fun | .gen _ => true | .key _ => true | _ => false) &&
    all.all (fun tx => tx.vout.all fun o =>
      (getOutputPublicKey o).isSome && (o.amount ≠ 0 || tx.version > 1)) &&
    (b.majorVersion < 4 || s.height ≠ 0)

/-! ## The whole function -/

/-- What was found out about a block that is added. -/
structure BlockReport where
  /-- the fees of its transactions -/
  fees : List UInt64
  reward : MinerReward
  weight : UInt64
  medianWeight : UInt64
  /-- the coins generated before the block -/
  alreadyGeneratedCoins : UInt64
  hfVersion : UInt8
  difficulty : Nat
  deriving DecidableEq

/-- `m_db->add_block`, which also adds the block to the hard fork state, and the rest of the
function: the new weight limit, the pool, and the difficulty of the next block. -/
def Blockchain.addBlock (s : Blockchain P) (e : StoredBlock) : Blockchain P :=
  let hfVersion := s.hfVersion n
  let s := { s with
    chain := e :: s.chain
    hardFork := s.hardFork.add n.schedule e.bl.toBlockHeader s.height }
  let s := s.updateNextCumulativeWeightLimit n
  let s := { s with
    txPool := n.txPool.onBlockchainInc s.txPool s.height (n.getBlockHash e.bl)
    difficultyCache := (s.getDifficultyForNextBlock n).2 }
  if s.hfVersion n ≠ hfVersion ∧ s.height ≠ 1 then
    { s with txPool := n.txPool.validate s.txPool (s.hfVersion n) }
  else s

/-- The rest of the function once the transactions are taken: the coinbase transaction, and what is
stored with the block. -/
def storeBlock (s : Blockchain P) (b : Block) (currentDiffic : Nat) (t : TakenTxs P) :
    Blockchain P × Except BlockError BlockReport :=
  let hfVersion := s.hfVersion n
  -- the pool without the transactions taken, or with them again
  let taken := { s with txPool := t.txPool }
  let returned := { s with txPool := returnTxsToPool n hfVersion t }
  match blockWeight n s t with
  | none => (taken, .error .prunedWithoutWeight)
  | some weight =>
    let coins := s.topGeneratedCoins
    let median := penaltyMedian n s
    match validateMinerTransaction b weight t.feeSummary coins median hfVersion with
    | none => (returned, .error .minerTransaction)
    | some reward =>
      let txs := t.txs.map fun (p, _) => p.tx
      if ¬ addBlockAllowed n s b txs then (returned, .error .addBlock)
      else
        (taken.addBlock n
          { bl := b
            txs
            weight
            longTermWeight := s.getNextLongTermBlockWeight n weight
            cumulativeDifficulty := addDifficulty currentDiffic s.topCumulativeDifficulty
            alreadyGeneratedCoins := nextGeneratedCoins coins reward.baseReward },
          .ok
            { fees := t.txs.map fun (p, _) => p.fee
              reward
              weight
              medianWeight := median
              alreadyGeneratedCoins := coins
              hfVersion
              difficulty := currentDiffic })

/-- `Blockchain::handle_block_to_main_chain`. -/
def handleBlockToMainChain (s : Blockchain P) (b : Block)
    (extraBlockTxs : List (Hash × Transaction)) : Blockchain P × Except BlockError BlockReport :=
  match checkPlace n s b with
  | .error e => (s, .error e)
  | .ok () =>
    let (currentDiffic, difficultyCache) := s.getDifficultyForNextBlock n
    let s := { s with difficultyCache }
    match checkWork n s b currentDiffic extraBlockTxs with
    | .error e => (s, .error e)
    | .ok fastCheck =>
      let start : TakenTxs P :=
        { txPool := s.txPool
          extraBlockTxs
          cumulativeBlockWeight := n.getTransactionWeight b.minerTx }
      match takeTxs n s fastCheck b.txHashes start with
      | (t, some e) =>
        let invalidBlocks :=
          if e = .wrongInputs then n.getBlockHash b :: s.invalidBlocks else s.invalidBlocks
        ({ s with txPool := returnTxsToPool n (s.hfVersion n) t, invalidBlocks }, .error e)
      | (t, none) => storeBlock n s b currentDiffic t

/-! ## What an accepted block goes through -/

variable {n}

/-- The accumulated fees are the wrapped sum of those of the transactions taken. -/
def TakenTxs.FeesSummed (t : TakenTxs P) : Prop :=
  t.feeSummary.toNat = (t.txs.map fun p => p.1.fee.toNat).sum % 2 ^ 64

variable {s : Blockchain P} {fast : Bool} {t t' : TakenTxs P}

theorem checkTaken_feesSummed {inPool : Bool} {p : PoolTx}
    (h : checkTaken n s fast p inPool t = (t', none)) (ht : t.FeesSummed) : t'.FeesSummed := by
  unfold checkTaken at h
  dsimp only at h
  split at h
  · cases h
  cases h
  unfold TakenTxs.FeesSummed at ht ⊢
  rw [UInt64.toNat_add, ht, List.map_append, List.sum_append, Nat.mod_add_mod]
  rfl

theorem takeTx_feesSummed {id : Hash}
    (h : takeTx n s fast id t = (t', none)) (ht : t.FeesSummed) : t'.FeesSummed := by
  unfold takeTx at h
  split at h
  · cases h
  split at h
  · exact checkTaken_feesSummed h ht
  split at h
  · cases h
  · exact checkTaken_feesSummed h ht

theorem takeTxs_feesSummed {ids : List Hash}
    (h : takeTxs n s fast ids t = (t', none)) (ht : t.FeesSummed) : t'.FeesSummed := by
  induction ids generalizing t with
  | nil =>
    cases h
    exact ht
  | cons id ids ih =>
    rw [takeTxs] at h
    split at h
    · rename_i t1 hone
      exact ih h (takeTx_feesSummed hone ht)
    · cases h

variable {b : Block}

theorem checkPlace_ok {u : Unit} (h : checkPlace n s b = .ok u) :
    b.prevId = s.topBlockHash n ∧ s.hardFork.check n.schedule b.toBlockHeader = true := by
  unfold checkPlace at h
  split at h
  · cases h
  split at h
  · cases h
  rename_i hprev hver
  exact ⟨not_not.mp hprev, not_not.mp hver⟩

variable {sup : List (Hash × Transaction)}

theorem checkWork_ok {d : Nat} (h : checkWork n s b d sup = .ok fast) :
    d ≠ 0 ∧ prevalidateMinerTransaction b s.height (s.hfVersion n) = true := by
  unfold checkWork at h
  dsimp only at h
  split at h
  · cases h
  rename_i hd
  iterate 3 (split at h; · cases h)
  split at h
  · cases h
  rename_i hpre
  exact ⟨hd, not_not.mp hpre⟩

theorem addBlockAllowed_unknown {txs : List Transaction}
    (h : addBlockAllowed n s b txs = true) : s.blockExists n (n.getBlockHash b) = false := by
  unfold addBlockAllowed at h
  split at h
  · cases h
  simp only [Bool.and_eq_true, Bool.not_eq_true'] at h
  exact h.1.1.1.1.1.1.1

/-- What `handle_block_to_main_chain` found and did when it added block `b` to the state `s`. -/
structure Added (n : Node P) (s : Blockchain P) (b : Block) (s' : Blockchain P)
    (r : BlockReport) : Prop where
  prev : b.prevId = s.topBlockHash n
  version : s.hardFork.check n.schedule b.toBlockHeader = true
  difficulty : r.difficulty = (s.getDifficultyForNextBlock n).1
  difficulty_ne_zero : r.difficulty ≠ 0
  prevalidated : prevalidateMinerTransaction b s.height (s.hfVersion n) = true
  /-- the id is not on the main chain yet -/
  unknown : s.blockExists n (n.getBlockHash b) = false
  hfVersion : r.hfVersion = s.hfVersion n
  coins : r.alreadyGeneratedCoins = s.topGeneratedCoins
  validated : ∃ fee : UInt64, fee.toNat = (r.fees.map UInt64.toNat).sum % 2 ^ 64 ∧
    validateMinerTransaction b r.weight fee r.alreadyGeneratedCoins r.medianWeight r.hfVersion =
      some r.reward
  chain : ∃ e, s'.chain = e :: s.chain ∧ e.bl = b ∧
    e.cumulativeDifficulty = addDifficulty r.difficulty s.topCumulativeDifficulty ∧
    e.alreadyGeneratedCoins = nextGeneratedCoins r.alreadyGeneratedCoins r.reward.baseReward
  altBlocks : s'.altBlocks = s.altBlocks
  hardFork : s'.hardFork = s.hardFork.add n.schedule b.toBlockHeader s.height
  difficultyCache : s'.difficultyCache =
    ((s.getDifficultyForNextBlock n).2.next n s'.chain (s'.hfVersion n)).2
  panics : s'.panics = s.panics

/-- What a refused block does not touch. -/
structure Unchanged (n : Node P) (s s' : Blockchain P) : Prop where
  chain : s'.chain = s.chain
  altBlocks : s'.altBlocks = s.altBlocks
  hardFork : s'.hardFork = s.hardFork
  difficultyCache : s'.difficultyCache = s.difficultyCache ∨
    s'.difficultyCache = (s.getDifficultyForNextBlock n).2
  panics : s'.panics = s.panics

/-- Adding a block keeps the alternative blocks and the panics, and puts the block on top. -/
theorem addBlock_frame (s : Blockchain P) (e : StoredBlock) :
    (s.addBlock n e).chain = e :: s.chain ∧ (s.addBlock n e).altBlocks = s.altBlocks ∧
      (s.addBlock n e).hardFork = s.hardFork.add n.schedule e.bl.toBlockHeader s.height ∧
      (s.addBlock n e).difficultyCache = (s.difficultyCache.next n (s.addBlock n e).chain
        ((s.addBlock n e).hfVersion n)).2 ∧
      (s.addBlock n e).panics = s.panics := by
  unfold Blockchain.addBlock
  dsimp only
  split <;> exact ⟨rfl, rfl, rfl, rfl, rfl⟩

/-- **A block that is added** passed every check, and the state is the one `Added` describes. -/
theorem handleBlockToMainChain_ok {s' : Blockchain P} {r : BlockReport}
    (h : handleBlockToMainChain n s b sup = (s', .ok r)) : Added n s b s' r := by
  unfold handleBlockToMainChain at h
  split at h
  · cases h
  rename_i hplace
  obtain ⟨hprev, hver⟩ := checkPlace_ok hplace
  dsimp only at h
  split at h
  · cases h
  rename_i hwork
  obtain ⟨hd, hpre⟩ := checkWork_ok hwork
  split at h
  · cases h
  rename_i t htake
  have hfees : t.FeesSummed := takeTxs_feesSummed htake rfl
  unfold storeBlock at h
  dsimp only at h
  split at h
  · cases h
  split at h
  · cases h
  rename_i reward hreward
  split at h
  · cases h
  rename_i hallowed
  cases h
  obtain ⟨hchain, halt, hfork, hcache, hpanics⟩ := addBlock_frame _ _
  refine
    { prev := hprev
      version := hver
      difficulty := rfl
      difficulty_ne_zero := hd
      prevalidated := hpre
      unknown := addBlockAllowed_unknown (not_not.mp hallowed)
      hfVersion := rfl
      coins := rfl
      validated := ⟨t.feeSummary, ?_, hreward⟩
      chain := ⟨_, hchain, rfl, rfl, by dsimp only [Blockchain.topGeneratedCoins]⟩
      altBlocks := halt
      hardFork := hfork
      difficultyCache := hcache
      panics := hpanics }
  rw [List.map_map]
  exact hfees

/-- **A block that is refused** leaves the chain, the alternative blocks and the forks alone. -/
theorem handleBlockToMainChain_error {s' : Blockchain P} {e : BlockError}
    (h : handleBlockToMainChain n s b sup = (s', .error e)) : Unchanged n s s' := by
  unfold handleBlockToMainChain at h
  split at h
  · cases h
    exact ⟨rfl, rfl, rfl, .inl rfl, rfl⟩
  dsimp only at h
  split at h
  · cases h
    exact ⟨rfl, rfl, rfl, .inr rfl, rfl⟩
  split at h
  · cases h
    exact ⟨rfl, rfl, rfl, .inr rfl, rfl⟩
  unfold storeBlock at h
  dsimp only at h
  split at h
  · cases h
    exact ⟨rfl, rfl, rfl, .inr rfl, rfl⟩
  split at h
  · cases h
    exact ⟨rfl, rfl, rfl, .inr rfl, rfl⟩
  split at h
  · cases h
    exact ⟨rfl, rfl, rfl, .inr rfl, rfl⟩
  · cases h

/-! ## A small node -/

/-- A node for examples: ids are nonces, every proof of work and every proof of a transaction is
accepted, and the pool is empty. -/
def sampleNode (fixedDifficulty : Nat) : Node Unit where
  getBlockHash b := Blob.fill b.nonce.toUInt8
  cnFastHash := sumHash
  getBlockLonghash _ _ _ := nullHash
  getAltblockLonghash _ _ := nullHash
  verInputProofsRings _ _ := true
  makeInputVerificationId _ _ := nullHash
  verNonInputConsensus _ _ := true
  zeroCommit _ := nullHash
  getTransactionWeight _ := 100
  getPrunedTransactionWeight _ := 100
  txPool :=
    { takeTx := fun _ _ => none
      addTx := fun p _ _ _ => (p, true, false)
      haveTx := fun _ _ => false
      txWeight := fun _ _ => none
      onBlockchainInc := fun p _ _ => p
      onBlockchainDec := fun p _ _ => p
      validate := fun p _ => p }
  schedule := mainnetHardForks
  forks_unvoted := mainnetHardForks_unvoted
  checkpoints := []
  blocksHashCheck := []
  longTermBlockWeightsWindow := 10
  fixedDifficulty

/-- A block for examples, without transactions. -/
def sampleBlock (version : UInt8) (height : Nat) (nonce prev : UInt8) (reward : UInt64) :
    Block where
  majorVersion := version
  minorVersion := version
  timestamp := 0
  prevId := Blob.fill prev
  nonce := nonce.toUInt32
  minerTx :=
    { unlockTime := UInt64.ofNat height + 60
      vin := [.gen (UInt64.ofNat height)]
      vout := [⟨reward, .key (Blob.fill 1)⟩] }
  txHashes := []

end Hashmonkey.Core
