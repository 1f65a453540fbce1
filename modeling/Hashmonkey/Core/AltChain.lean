import Hashmonkey.Core.MainChain

/-!
# Alternative chains (`blockchain.cpp`, from `handle_alternative_block` on)

A block whose parent is not the top block goes to the table of alternative blocks. When the chain
it ends has more work than the main chain, the node switches: it pops blocks off the main chain down
to the fork, adds the alternative blocks through `handle_block_to_main_chain`, and goes back if one
of them is refused.

* `popBlockFromBlockchain`, `popUntil`, `popN`: the top blocks come off and their transactions go
  back to the pool;
* `rollbackBlockchainSwitching`, `switchToAlternativeBlockchain`;
* `buildAltChain`, `getNextDifficultyForAlternativeChain`, `acceptAlternative`: everything
  `handle_alternative_block` checks before it decides;
* `handleAlternativeBlock`, `addNewBlock`: the decision, and the entry point.

A call that throws gives `none`. The switch hands disconnected blocks back to
`handle_alternative_block`, so it takes that function as a parameter, and `handleAlternativeBlock`
has a bound on how deep switches may nest.
-/

namespace Hashmonkey.Core

open Basic Ringct

variable {P : Type} (n : Node P)

/-! ## Popping blocks -/

/-- The mix ring of a popped transaction; nothing if an input or an output is missing. -/
def dereferencedMixRing (v : ChainView) (txPrefixHash : Hash) :
    List TxinV → Option (List (List CtKey))
  | [] => some []
  | .key i :: vin =>
    match scanOutputkeysForIndexes v (fun _ => true) i txPrefixHash 0 with
    | none => none
    | some (ring, _) => (dereferencedMixRing v txPrefixHash vin).map (ring :: ·)
  | _ :: _ => none

/-- The verification id with which a popped transaction goes back to the pool. -/
def poppedVerificationId (v : ChainView) (tx : Transaction) : Hash :=
  let txPrefixHash := getTransactionPrefixHash n.cnFastHash tx.toTransactionPrefix
  match dereferencedMixRing v txPrefixHash tx.vin, getTransactionHash n.cnFastHash tx with
  | some (ring :: rings), some txid => n.makeInputVerificationId txid (ring :: rings)
  | _, _ => nullHash

/-- The transactions of a popped block go back to the pool, the last first, unless pruned. -/
def returnPopped (s : Blockchain P) (e : StoredBlock) : P :=
  let version := n.schedule.getIdealVersion s.height
  (e.txs.reverse.filter fun tx => !tx.pruned && !isCoinbase tx.toTransactionPrefix).foldl
    (fun txPool tx =>
      (n.txPool.addTx txPool tx version (poppedVerificationId n (s.view n) tx)).1) s.txPool

/-- `pop_block_from_blockchain`. The genesis block stays. -/
def popBlockFromBlockchain (s : Blockchain P) : Option (Block × Blockchain P) :=
  match s.chain with
  | e :: e' :: rest =>
    let previousHfVersion := s.hfVersion n
    let s := { s with
      chain := e' :: rest
      hardFork := s.hardFork.onBlockPopped n.schedule (rest.length + 1)
      difficultyCache := s.difficultyCache.invalidate }
    let s := { s with
      txPool := n.txPool.onBlockchainDec (returnPopped n s e) rest.length (s.topBlockHash n)
      blocksLonghashTable := []
      scanTable := fun _ _ => none }
    if s.hfVersion n ≠ previousHfVersion then
      some (e.bl, { s with txPool := n.txPool.validate s.txPool (s.hfVersion n) })
    else some (e.bl, s)
  | _ => none

/-- `while (m_db->top_block_hash() != prev_id)`: pops and collects, with a bound on the number of
pops. -/
def popUntil (prevId : Hash) : Nat → Blockchain P → List Block → Option (Blockchain P × List Block)
  | 0, s, disconnected => if s.topBlockHash n = prevId then some (s, disconnected) else none
  | fuel + 1, s, disconnected =>
    if s.topBlockHash n = prevId then some (s, disconnected)
    else
      match popBlockFromBlockchain n s with
      | none => none
      | some (b, s) => popUntil prevId fuel s (b :: disconnected)

/-- `while (m_db->height() != rollback_height)`, as the number of pops. -/
def popN : Nat → Blockchain P → Option (Blockchain P)
  | 0, s => some s
  | k + 1, s =>
    match popBlockFromBlockchain n s with
    | none => none
    | some (_, s) => popN k s

/-! ## Switching -/

/-- `m_hardfork->reorganize_from_chain_height`. -/
def Blockchain.reorganizeForks (s : Blockchain P) (height : Nat) : Blockchain P :=
  let blocks := s.chain.reverse.map fun e => e.bl.toBlockHeader
  { s with hardFork := s.hardFork.reorganizeFromChainHeight n.schedule blocks height }

/-- Both resets of the window of the difficulty. -/
def Blockchain.invalidateDifficulty (s : Blockchain P) : Blockchain P :=
  { s with difficultyCache := s.difficultyCache.invalidate }

/-- The loop of `rollback_blockchain_switching` over the original blocks. A block that is refused
stops it with "PANIC!" in the log. -/
def readd : List Block → Blockchain P → Blockchain P × Bool
  | [], s => (s, true)
  | b :: bs, s =>
    match handleBlockToMainChain n s b [] with
    | (s, .ok _) => readd bs s
    | (s, .error _) => ({ s with panics := s.panics + 1 }, false)

/-- `rollback_blockchain_switching`. -/
def rollbackBlockchainSwitching (s : Blockchain P) (originalChain : List Block)
    (rollbackHeight : Nat) : Option (Blockchain P × Bool) :=
  if rollbackHeight > s.height then some (s, true)
  else
    match popN n (s.height - rollbackHeight) s.invalidateDifficulty with
    | none => none
    | some s =>
      let s := (s.updateNextCumulativeWeightLimit n).reorganizeForks n rollbackHeight
      match readd n originalChain s with
      | (s, true) => some (s.reorganizeForks n rollbackHeight, true)
      | (s, false) => some (s, false)

/-- The loop over the alternative chain: the state, and the blocks from the first refused one on. -/
def connectAlternative :
    List BlockExtendedInfo → Blockchain P → Blockchain P × List BlockExtendedInfo
  | [], s => (s, [])
  | bei :: rest, s =>
    match handleBlockToMainChain n s bei.bl [] with
    | (s, .ok _) => connectAlternative rest s
    | (s, .error _) => (s, bei :: rest)

/-- `m_db->remove_alt_block`: throws if the block is not there. -/
def removeAltBlock (table : List (Hash × BlockExtendedInfo)) (id : Hash) :
    Option (List (Hash × BlockExtendedInfo)) :=
  if table.any fun x => x.1 = id then some (table.filter fun x => x.1 ≠ id) else none

/-- `remove_alt_block` for the blocks of an alternative chain. -/
def removeAltBlocks : List BlockExtendedInfo → Blockchain P → Option (Blockchain P)
  | [], s => some s
  | bei :: rest, s =>
    match removeAltBlock s.altBlocks (n.getBlockHash bei.bl) with
    | none => none
    | some altBlocks => removeAltBlocks rest { s with altBlocks }

/-- "pushing old chain as alternative chain": the results do not matter. -/
def pushDisconnected (handleAlternative : Blockchain P → Block → Option (Blockchain P × Bool)) :
    List Block → Blockchain P → Option (Blockchain P)
  | [], s => some s
  | b :: bs, s =>
    match handleAlternative s b with
    | none => none
    | some (s, _) => pushDisconnected handleAlternative bs s

/-- The rest of `switch_to_alternative_blockchain` once all blocks are connected. -/
def finishSwitch (handleAlternative : Blockchain P → Block → Option (Blockchain P × Bool))
    (altChain : List BlockExtendedInfo) (discard : Bool) (disconnected : List Block)
    (splitHeight : Nat) (s : Blockchain P) : Option (Blockchain P × Bool) :=
  match pushDisconnected handleAlternative (if discard then [] else disconnected) s with
  | none => none
  | some s =>
    match removeAltBlocks n altChain s with
    | none => none
    | some s => some (s.reorganizeForks n splitHeight, true)

/-- The rest of `switch_to_alternative_blockchain` when the first of `failed` was refused. -/
def failSwitch (failed : List BlockExtendedInfo) (disconnected : List Block) (splitHeight : Nat)
    (s : Blockchain P) : Option (Blockchain P × Bool) :=
  match rollbackBlockchainSwitching n s disconnected splitHeight with
  | none => none
  | some (s, _) =>
    match removeAltBlocks n failed s with
    | none => none
    | some s => some (s, false)

/-- `switch_to_alternative_blockchain`. -/
def switchToAlternativeBlockchain
    (handleAlternative : Blockchain P → Block → Option (Blockchain P × Bool))
    (s : Blockchain P) (altChain : List BlockExtendedInfo) (discard : Bool) :
    Option (Blockchain P × Bool) :=
  let s := s.invalidateDifficulty
  match altChain with
  | [] => some (s, false)
  | front :: _ =>
    if ¬ s.blockExists n front.bl.prevId then some (s, false)
    else
      match popUntil n front.bl.prevId s.height s [] with
      | none => none
      | some (s, disconnected) =>
        let s := s.updateNextCumulativeWeightLimit n
        match connectAlternative n altChain s with
        | (s', []) => finishSwitch n handleAlternative altChain discard disconnected s.height s'
        | (s', failed) => failSwitch n failed disconnected s.height s'

/-! ## Alternative blocks -/

/-- `complete_timestamps_vector`: timestamps of the main chain from a height down, the genesis block
left out. -/
def completeTimestampsVector (s : Blockchain P) (startTopHeight : Nat) (timestamps : List UInt64) :
    List UInt64 :=
  if timestamps.length ≥ timestampCheckWindow ∨ startTopHeight ≥ s.height then timestamps
  else
    let stopOffset := startTopHeight - (timestampCheckWindow - timestamps.length)
    let main := between s.chain (stopOffset + 1) (startTopHeight + 1)
    timestamps ++ (main.map fun e => e.bl.timestamp).reverse

/-- The loop of `build_alt_chain` from a block id down, with a bound on its turns. -/
def altAncestors (table : List (Hash × BlockExtendedInfo)) :
    Nat → Hash → List BlockExtendedInfo → Option (List BlockExtendedInfo)
  | 0, id, altChain => if (table.lookup id).isSome then none else some altChain
  | fuel + 1, id, altChain =>
    match table.lookup id with
    | none => some altChain
    | some bei => altAncestors table fuel bei.bl.prevId (bei :: altChain)

/-- `build_alt_chain`: the chain of alternative blocks that ends in the given one, oldest first, and
the timestamps before the block to come, newest first. -/
def buildAltChain (s : Blockchain P) (prevId : Hash) :
    Option (List BlockExtendedInfo × List UInt64) :=
  match altAncestors s.altBlocks s.altBlocks.length prevId [] with
  | none => none
  | some [] =>
    if ¬ s.blockExists n prevId then none
    else some ([], completeTimestampsVector s (s.getBlockHeight n prevId) [])
  | some (front :: rest) =>
    let timestamps := ((front :: rest).map fun bei => bei.bl.timestamp).reverse
    if ¬ s.height > front.height then none
    else if ¬ s.blockExists n front.bl.prevId then none
    else if s.getBlockIdByHeight n (front.height - 1) ≠ front.bl.prevId then none
    else
      some (front :: rest,
        completeTimestampsVector s (s.getBlockHeight n front.bl.prevId) timestamps)

/-- `get_next_difficulty_for_alternative_chain`, for a block at the given height. -/
def getNextDifficultyForAlternativeChain (s : Blockchain P) (altChain : List BlockExtendedInfo)
    (height : Nat) : Nat :=
  if n.fixedDifficulty ≠ 0 then if s.height = 0 then 1 else n.fixedDifficulty
  else
    let target := difficultyTarget (n.schedule.getIdealVersion height)
    let stop := (altChain.head?.map BlockExtendedInfo.height).getD height
    let count := min (difficultyBlocksCount - min difficultyBlocksCount altChain.length) stop
    let start := if stop - count = 0 then 1 else stop - count
    let main := between s.chain start stop
    if altChain.length < difficultyBlocksCount then
      if altChain.length + main.length > difficultyBlocksCount then 0
      else
        nextDifficulty
          (main.map (fun e => e.bl.timestamp) ++ altChain.map fun bei => bei.bl.timestamp)
          (main.map StoredBlock.cumulativeDifficulty ++
            altChain.map BlockExtendedInfo.cumulativeDifficulty) target
    else
      let last := altChain.drop (altChain.length - difficultyBlocksCount)
      nextDifficulty (last.map fun bei => bei.bl.timestamp)
        (last.map BlockExtendedInfo.cumulativeDifficulty) target

/-- The seed of the epoch of an alternative block: on the alternative chain or on the main one. -/
def altSeedHash (s : Blockchain P) (altChain : List BlockExtendedInfo) (height : Nat) : Hash :=
  let seedheight := rxSeedheight height
  if altChain.head?.any fun front => front.height ≤ seedheight then
    ((altChain.find? fun bei => bei.height = seedheight + 1).map fun bei => bei.bl.prevId).getD
      nullHash
  else s.getBlockIdByHeight n seedheight

/-- The proof of work of an alternative block. -/
def altProofOfWork (s : Blockchain P) (b : Block) (altChain : List BlockExtendedInfo)
    (height : Nat) : Hash :=
  if b.majorVersion ≥ 12 then n.getAltblockLonghash b (altSeedHash n s altChain height)
  else n.getBlockLonghash b height (s.getBlockIdByHeight n (rxSeedheight height))

/-- The supplement goes to the pool, up to the first transaction that is refused. -/
def addSupplement (s : Blockchain P) (hfVersion : UInt8) :
    List (Hash × Transaction) → P → P × Bool
  | [], txPool => (txPool, true)
  | (txid, tx) :: rest, txPool =>
    if n.txPool.haveTx txPool txid || s.txExists n txid then addSupplement s hfVersion rest txPool
    else
      match n.txPool.addTx txPool tx hfVersion nullHash with
      | (txPool, true, false) => addSupplement s hfVersion rest txPool
      | (txPool, _) => (txPool, false)

/-- `m_db->get_pruned_tx_blob`. -/
def Blockchain.getPrunedTx (s : Blockchain P) (txid : Hash) : Option Transaction :=
  s.chain.findSome? fun e =>
    if getTransactionHash n.cnFastHash e.bl.minerTx = some txid then some e.bl.minerTx
    else (e.bl.txHashes.zip e.txs).lookup txid

/-- The loop that sums up `block_cumulative_weight`: zero if a transaction is not known. It fails if
the pool has a transaction but not its weight. -/
def altBlockWeight (s : Blockchain P) (txPool : P) : List Hash → UInt64 → Option UInt64
  | [], weight => some weight
  | txid :: txids, weight =>
    if n.txPool.haveTx txPool txid then
      match n.txPool.txWeight txPool txid with
      | none => none
      | some w => altBlockWeight s txPool txids (weight + w)
    else
      match s.getPrunedTx n txid with
      | none => some 0
      | some tx => altBlockWeight s txPool txids (weight + n.getPrunedTransactionWeight tx)

/-- `get_block_height`: the height that the miner transaction claims. -/
def claimedHeight (b : Block) : Nat :=
  match b.minerTx.vin with
  | [.gen h] => h.toNat
  | _ => 0

/-- Why a block does not get into the table of alternative blocks. -/
inductive AltError
  | zeroHeight
  | notAllowed
  | oldVersion
  | orphaned
  | brokenAltChain
  | invalidTimestamp
  | checkpoint
  | difficultyOverhead
  | proofOfWork
  | prevalidation
  | poolSupplement
  | unknownWeight
  | alreadyExists
  deriving DecidableEq

/-- What `handle_alternative_block` knows of a block once it is in the table. -/
structure AltBlock where
  /-- the alternative blocks before it, oldest first -/
  altChain : List BlockExtendedInfo
  bei : BlockExtendedInfo
  /-- the cumulative difficulty of its parent -/
  prevCumulativeDifficulty : Nat
  currentDiff : Nat
  isACheckpoint : Bool

/-- What `handle_alternative_block` reads of the parent: of the last alternative block, or of the
main chain. -/
def parentData (s : Blockchain P) (altChain : List BlockExtendedInfo) (prevId : Hash) :
    Nat × Nat × UInt64 :=
  match altChain.getLast?, s.upTo n prevId with
  | some prev, _ => (prev.height, prev.cumulativeDifficulty, prev.alreadyGeneratedCoins)
  | none, e :: below => (below.length, e.cumulativeDifficulty, e.alreadyGeneratedCoins)
  | none, [] => (0, 0, 0)

/-- The checks of an alternative block against the chain it ends. -/
def checkAlternative (s : Blockchain P) (b : Block) (altChain : List BlockExtendedInfo)
    (timestamps : List UInt64) (hfVersion : UInt8) : Except AltError AltBlock :=
  let (prevHeight, prevCumulativeDifficulty, prevGeneratedCoins) := parentData n s altChain b.prevId
  let height := prevHeight + 1
  let currentDiff := getNextDifficultyForAlternativeChain n s altChain height
  if ¬ checkTimestampMedian timestamps b then .error .invalidTimestamp
  else if ¬ checkpointPassed n.checkpoints height (n.getBlockHash b) then .error .checkpoint
  else if currentDiff = 0 then .error .difficultyOverhead
  else if ¬ checkHash (altProofOfWork n s b altChain height) currentDiff then .error .proofOfWork
  else if ¬ prevalidateMinerTransaction b height hfVersion then .error .prevalidation
  else
    .ok
      { altChain
        bei :=
          { bl := b
            height
            blockCumulativeWeight := n.getTransactionWeight b.minerTx
            cumulativeDifficulty := addDifficulty prevCumulativeDifficulty currentDiff
            alreadyGeneratedCoins := nextGeneratedCoins prevGeneratedCoins
              (getOutsMoneyAmount b.minerTx.toTransactionPrefix) }
        prevCumulativeDifficulty
        currentDiff
        isACheckpoint := (n.checkpoints.lookup height).isSome }

/-- The part of `handle_alternative_block` from the pool supplement to the table. -/
def storeAlternative (s : Blockchain P) (a : AltBlock) (hfVersion : UInt8)
    (extraBlockTxs : List (Hash × Transaction)) : Blockchain P × Except AltError AltBlock :=
  let id := n.getBlockHash a.bei.bl
  if ¬ n.verNonInputConsensus extraBlockTxs hfVersion then (s, .error .poolSupplement)
  else
    match addSupplement n s hfVersion extraBlockTxs s.txPool with
    | (txPool, false) => ({ s with txPool }, .error .poolSupplement)
    | (txPool, true) =>
      let s := { s with txPool }
      match altBlockWeight n s txPool a.bei.bl.txHashes a.bei.blockCumulativeWeight with
      | none => (s, .error .unknownWeight)
      | some weight =>
        if (s.altBlocks.lookup id).isSome then (s, .error .alreadyExists)
        else
          let bei := { a.bei with blockCumulativeWeight := weight }
          ({ s with altBlocks := (id, bei) :: s.altBlocks }, .ok { a with bei })

/-- `handle_alternative_block` up to the decision what to do with the block. -/
def acceptAlternative (s : Blockchain P) (b : Block) (extraBlockTxs : List (Hash × Transaction)) :
    Blockchain P × Except AltError AltBlock :=
  let s := s.invalidateDifficulty
  let blockHeight := claimedHeight b
  let hfVersion := n.schedule.getIdealVersion blockHeight
  if blockHeight = 0 then (s, .error .zeroHeight)
  else if ¬ isAlternativeBlockAllowed n.checkpoints s.height blockHeight then
    (s, .error .notAllowed)
  else if ¬ s.hardFork.checkForHeight n.schedule b.toBlockHeader blockHeight then
    (s, .error .oldVersion)
  else if ¬ ((s.altBlocks.lookup b.prevId).isSome ∨ s.blockExists n b.prevId) then
    (s, .error .orphaned)
  else
    match buildAltChain n s b.prevId with
    | none => (s, .error .brokenAltChain)
    | some (altChain, timestamps) =>
      match checkAlternative n s b altChain timestamps hfVersion with
      | .error e => (s, .error e)
      | .ok a => storeAlternative n s a hfVersion extraBlockTxs

/-- `handle_alternative_block`: `none` also if more than `fuel` switches nest. -/
def handleAlternativeBlock :
    Nat → Blockchain P → Block → List (Hash × Transaction) → Option (Blockchain P × Bool)
  | 0, _, _, _ => none
  | fuel + 1, s, b, extraBlockTxs =>
    match acceptAlternative n s b extraBlockTxs with
    | (s, .error e) => some (s, e = .orphaned)
    | (s, .ok a) =>
      let handleAlternative := fun s b => handleAlternativeBlock fuel s b []
      if a.isACheckpoint then
        switchToAlternativeBlockchain n handleAlternative s (a.altChain ++ [a.bei]) true
      else if s.topCumulativeDifficulty < a.bei.cumulativeDifficulty then
        switchToAlternativeBlockchain n handleAlternative s (a.altChain ++ [a.bei]) false
      else some (s, true)

/-- `have_block`: on the main chain, in the table, or known as invalid. -/
def Blockchain.haveBlock (s : Blockchain P) (id : Hash) : Bool :=
  s.blockExists n id || (s.altBlocks.lookup id).isSome || s.invalidBlocks.contains id

/-- `add_new_block`. -/
def addNewBlock (fuel : Nat) (s : Blockchain P) (b : Block)
    (extraBlockTxs : List (Hash × Transaction)) : Option (Blockchain P × Bool) :=
  if s.haveBlock n (n.getBlockHash b) then some (s, false)
  else if b.prevId ≠ s.topBlockHash n then handleAlternativeBlock n fuel s b extraBlockTxs
  else
    match handleBlockToMainChain n s b extraBlockTxs with
    | (s, .ok _) => some (s, true)
    | (s, .error _) => some (s, false)

/-- `cleanup_handle_incoming_blocks`, after blocks that caused no error of the database. -/
def cleanupHandleIncomingBlocks (s : Blockchain P) : Blockchain P :=
  let c := s.difficultyCache
  { s with
    difficultyCache := if c.reset then { c with height := 0, reset := false } else c
    blocksLonghashTable := []
    scanTable := fun _ _ => none }

end Hashmonkey.Core
