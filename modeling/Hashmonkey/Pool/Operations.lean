import Hashmonkey.Pool.State

/-!
# The operations of the transaction pool (`cryptonote_core/tx_pool.cpp`)

* `addTx`: the checks in the order of the source, the two ways to store a transaction (its inputs
  passed, or they failed and it comes from a block), and the pruning at the end;
* `takeTx`: a transaction is handed out and removed, for a block that takes it;
* `prune`: transactions go until the weight is below the limit, those with the lowest fee first;
* `removeStuckTransactions`, `setRelayed`, `validate`, `onBlockchainChange`;
* `init`: the lists are built again from the tables.

Every `LockedTXN` commits, apart from that of `prune`: it leaves its loop when a blob does not parse
or a call of the database throws, and then the tables are rolled back, if it had started the
transaction (`batch`). Which calls throw is an argument, by transaction. The other queries of the
pool, which change nothing, are left out.
-/

open Hashmonkey.Core

namespace Hashmonkey.Pool

open Basic Db Serialization Std

variable (P : PoolParams) (b : BlockchainAccess)

namespace TxMemoryPool

/-! ## Pruning -/

/-- Why `prune` leaves its loop. -/
inductive PruneError
  /-- "Failed to parse tx from txpool" -/
  | parse
  /-- "Error while pruning txpool" -/
  | database
  deriving DecidableEq

/-- What a turn of the loop of `prune` comes to. -/
inductive PruneTurn
  | stop
  | fail (e : PruneError)
  | skip
  | remove (p : TxMemoryPool)

/-- One turn of the loop of `prune`. -/
def pruneTurn (throws : Hash → Bool) (bytes : Nat) (p : TxMemoryPool) (txid : Hash) : PruneTurn :=
  if p.txpoolWeight ≤ bytes then .stop
  else if throws txid then .fail .database
  else
    match p.txpool[txid]? with
    | none => .skip
    | some e =>
      if e.txMeta.keptByBlock then .skip
      else
        match parsePrefix e.blob with
        | none => .fail .parse
        | some tx => .remove (p.removeEntry P txid e tx.vin)

/-- The loop of `prune` over the ids that are left to look at, the last in the order of fees
first. -/
def pruneLoop (throws : Hash → Bool) (bytes : Nat) :
    List Hash → TxMemoryPool → TxMemoryPool × Option PruneError
  | [], p => (p, none)
  | txid :: txids, p =>
    match pruneTurn P throws bytes p txid with
    | .stop => (p, none)
    | .fail e => (p, some e)
    | .skip => pruneLoop throws bytes txids p
    | .remove p' => pruneLoop throws bytes txids p'

/-- The ids that `prune` looks at, in its order: the first transaction always stays. -/
def pruneOrder (p : TxMemoryPool) : List Hash := p.lists.sorted.tail.reverse.map SortedTx.txid

/-- The limit that `prune` uses. -/
def pruneLimit (p : TxMemoryPool) (bytes : Nat) : Nat :=
  if bytes = 0 then p.txpoolMaxWeight else bytes

/-- `prune`. -/
def prune (throws : Hash → Bool) (batch : Bool) (p : TxMemoryPool) (bytes : Nat) :
    TxMemoryPool × Option PruneError :=
  match pruneLoop P throws (p.pruneLimit bytes) p.pruneOrder p with
  | (p', none) => (p', none)
  | (p', some e) => (if batch then { p' with txpool := p.txpool } else p', some e)

/-- `prune` when no call of the database throws. -/
def pruned (p : TxMemoryPool) (bytes : Nat) : TxMemoryPool :=
  (p.prune P (fun _ => false) true bytes).1

/-! ## Adding -/

/-- `tx_memory_pool::check_tx_inputs`, with its cache. -/
def checkTxInputs (p : TxMemoryPool) (tx : Transaction) (txid validId : Hash)
    (keptByBlock : Bool) : InputsVerdict × TxMemoryPool :=
  match if keptByBlock then none else p.inputCache[txid]? with
  | some (passed, height, blockId) => (⟨passed, validId, height, blockId⟩, p)
  | none =>
    let v := b.checkTxInputs tx validId keptByBlock
    let p := { p with checks := p.checks ++ [(tx, validId)] }
    (v, if keptByBlock then p
      else { p with
        inputCache := p.inputCache.insert txid (v.passed, v.maxUsedBlockHeight, v.maxUsedBlockId) })

/-- Why `add_tx` refuses a transaction. -/
inductive AddTxError
  | timedOut
  | nonInputConsensus
  | feeTooLow
  | txExtraTooBig
  | nonzeroUnlockTime
  | doubleSpend
  | invalidInput
  | keyImages
  deriving DecidableEq

/-- The arguments of `add_tx`. -/
structure NewTx where
  tx : Transaction
  id : Hash
  blob : Bytes
  weight : Nat
  txRelay : RelayMethod
  relayed : Bool := false
  version : UInt8
  nicVerifiedHfVersion : UInt8 := 0
  validInputVerificationId : Hash := nullHash

/-- `kept_by_block`. -/
def NewTx.keptByBlock (t : NewTx) : Bool := t.txRelay = .block

/-- The checks of `add_tx` before the key images: the fee. -/
def checkNewTx (p : TxMemoryPool) (t : NewTx) : Except AddTxError UInt64 :=
  let fee := getTxFee t.tx
  if ¬ t.keptByBlock ∧ t.id ∈ p.timedOutTransactions then .error .timedOut
  else if t.version ≠ t.nicVerifiedHfVersion ∧ ¬ nicPasses P t.tx t.version then
    .error .nonInputConsensus
  else if ¬ (t.keptByBlock ∨ b.checkFee t.weight fee) then .error .feeTooLow
  else if ¬ t.keptByBlock ∧ t.tx.extra.length > 1060 then .error .txExtraTooBig
  else if ¬ t.keptByBlock ∧ t.tx.unlockTime ≠ 0 then .error .nonzeroUnlockTime
  else .ok fee

/-- `m_parsed_tx_cache.insert`, for transactions of blocks. -/
def cacheParsed (p : TxMemoryPool) (t : NewTx) : TxMemoryPool :=
  if t.keptByBlock ∧ t.id ∉ p.parsedTxCache then
    { p with parsedTxCache := p.parsedTxCache.insert t.id t.tx }
  else p

/-- The fee by weight under which `add_tx` sorts a transaction. -/
def NewTx.feePerByte (t : NewTx) (fee : UInt64) : Nat :=
  P.feePerByte fee (if t.weight = 0 then 1 else t.weight)

/-- `insert_key_images`, and what follows if it returns true. -/
def withKeyImages (p : TxMemoryPool) (id : Hash) (txRelay : RelayMethod) (vin : List TxinV)
    (next : TxMemoryPool → TxMemoryPool) : TxMemoryPool × Bool :=
  match insertKeyImages p.txpool id txRelay vin p.spentKeyImages with
  | (images, true) => (next { p with spentKeyImages := images }, true)
  | (images, false) => ({ p with spentKeyImages := images }, false)

/-- The inputs failed, but the transaction comes from a block: it may become valid again. -/
def storeFailed (p : TxMemoryPool) (t : NewTx) (fee : UInt64) (receiveTime : Nat)
    (v : InputsVerdict) : TxMemoryPool × Bool :=
  let txMeta : TxpoolTxMeta :=
    { weight := t.weight
      fee
      receiveTime
      lastRelayedTime := p.time P
      relayed := t.relayed
      doubleSpendSeen := haveTxKeyimgesAsSpent p.txpool p.spentKeyImages t.tx.vin t.id
      pruned := t.tx.pruned
      validInputVerificationId := v.validInputVerificationId }
  (p.tick.cacheParsed t).withKeyImages t.id t.txRelay t.tx.vin fun p =>
    (p.addTxpoolTx t.id t.blob (txMeta.setRelayMethod t.txRelay)).addTxToTransientLists P t.id
      (t.feePerByte P fee) receiveTime

/-- The meta data of a transaction that is stored anew or upgraded. -/
def passedMeta (p : TxMemoryPool) (t : NewTx) (fee : UInt64) (receiveTime : Nat)
    (v : InputsVerdict) (txRelay : RelayMethod) (stored : TxpoolTxMeta) : TxpoolTxMeta :=
  { stored.upgradeRelayMethod txRelay with
    lastRelayedTime :=
      if txRelay = .forward then p.time P + P.randomSeconds p.reads else 2 ^ 64 - 1
    receiveTime
    weight := t.weight
    fee
    maxUsedBlockId := v.maxUsedBlockId
    maxUsedBlockHeight := v.maxUsedBlockHeight
    lastFailedHeight := 0
    lastFailedId := nullHash
    relayed := t.relayed
    doubleSpendSeen := false
    pruned := t.tx.pruned }

/-- The meta data that `add_tx` starts from when the inputs passed: what is stored, or none. -/
def storedMeta (p : TxMemoryPool) (t : NewTx) (v : InputsVerdict) : TxpoolTxMeta :=
  match p.txpool[t.id]? with
  | some e => e.txMeta
  | none =>
    let txMeta : TxpoolTxMeta := { validInputVerificationId := v.validInputVerificationId }
    txMeta.setRelayMethod .none

/-- The relay method that counts: a stem transaction that comes back went round in a loop. -/
def relayMethod (p : TxMemoryPool) (t : NewTx) : RelayMethod :=
  match p.txpool[t.id]? with
  | some e => if t.txRelay = .stem ∧ e.txMeta.dandelionppStem then .fluff else t.txRelay
  | none => t.txRelay

/-- The inputs passed. -/
def storePassed (p : TxMemoryPool) (t : NewTx) (fee : UInt64) (receiveTime : Nat)
    (v : InputsVerdict) : TxMemoryPool × Bool :=
  let txRelay := p.relayMethod t
  let stored := p.storedMeta t v
  if stored.upgrades txRelay ∨ t.id ∉ p.txpool then
    (p.tick.cacheParsed t).withKeyImages t.id txRelay t.tx.vin fun p' =>
      ((p'.removeTxpoolTx t.id).addTxpoolTx t.id t.blob
        (p.passedMeta P t fee receiveTime v txRelay stored)).addTxToTransientLists P t.id
          (t.feePerByte P fee) receiveTime
  else (p.cacheParsed t, true)

/-- `add_tx`: whether the transaction is new, or why it is refused. -/
def addTx (p : TxMemoryPool) (t : NewTx) : TxMemoryPool × Except AddTxError Bool :=
  match p.checkNewTx P b t with
  | .error e => (p, .error e)
  | .ok fee =>
    if ¬ t.keptByBlock ∧ haveTxKeyimgesAsSpent p.txpool p.spentKeyImages t.tx.vin t.id then
      ({ p with txpool := markDoubleSpend p.spentKeyImages t.tx.vin p.txpool },
        .error .doubleSpend)
    else
      let receiveTime := p.time P
      let (v, p) := p.tick.checkTxInputs b t.tx t.id t.validInputVerificationId t.keptByBlock
      if ¬ v.passed ∧ ¬ t.keptByBlock then (p, .error .invalidInput)
      else
        let added := !v.passed || t.id ∉ p.txpool
        let stored :=
          if v.passed then p.storePassed P t fee receiveTime v
          else p.storeFailed P t fee receiveTime v
        if stored.2 then
          let p := stored.1
          let p :=
            if added then { p with txpoolWeight := p.txpoolWeight + t.weight } else p
          (p.pruned P p.txpoolMaxWeight, .ok added)
        else (stored.1, .error .keyImages)

/-! ## Taking and removing -/

/-- What `take_tx` hands out. -/
structure TakenTx where
  tx : Transaction
  blob : Bytes
  txMeta : TxpoolTxMeta

/-- The transaction of an entry: from the cache, or parsed again. -/
def parseEntry (p : TxMemoryPool) (id : Hash) (e : PoolEntry) : Option Transaction :=
  match p.parsedTxCache[id]? with
  | some tx => some tx
  | none =>
    (if e.txMeta.pruned then parseAndValidateTxBaseFromBlob P.nic.scalarmultKey e.blob
      else parseAndValidateTxFromBlob P.nic.scalarmultKey e.blob).map
        fun tx => { tx with hash := id }

/-- `take_tx`. -/
def takeTx (p : TxMemoryPool) (id : Hash) : TxMemoryPool × Option TakenTx :=
  match p.txpool[id]? with
  | none => (p, none)
  | some e =>
    match p.parseEntry P id e with
    | none => (p, none)
    | some tx =>
      (p.removeEntry P id e tx.vin, some ⟨tx, e.blob, e.txMeta⟩)

/-- `tx_age`. It wraps. -/
def txAge (now receiveTime : Nat) : Nat := (2 ^ 64 + now - receiveTime) % 2 ^ 64

/-- Whether `remove_stuck_transactions` finds a transaction outdated, at time `now`. -/
def outdated (now : Nat) (txMeta : TxpoolTxMeta) : Bool :=
  txAge now txMeta.receiveTime > if txMeta.keptByBlock then 604800 else 86400 * 3

/-- The first loop of `remove_stuck_transactions`, with the list `remove`. -/
def findStuck : List (Hash × PoolEntry) → TxMemoryPool × List (Hash × Nat) →
    TxMemoryPool × List (Hash × Nat)
  | [], r => r
  | (txid, e) :: entries, (p, remove) =>
    findStuck entries
      (if outdated (p.time P) e.txMeta then
        let p := p.tick.removeTxFromTransientLists P txid e.txMeta.sensitive
        ({ p with timedOutTransactions := insert txid p.timedOutTransactions },
          remove ++ [(txid, e.txMeta.weight)])
      else (p.tick, remove))

/-- One turn of its second loop. -/
def removeStuck (p : TxMemoryPool) (entry : Hash × Nat) : TxMemoryPool :=
  match p.txpool[entry.1]? with
  | none => p
  | some e =>
    match parsePrefix e.blob with
    | none => p
    | some tx => p.removeStored entry.1 entry.2 tx.vin

/-- `remove_stuck_transactions`. -/
def removeStuckTransactions (p : TxMemoryPool) : TxMemoryPool :=
  let (p, remove) := findStuck P p.txpool.toList (p, [])
  remove.foldl removeStuck p

/-! ## Relaying and validating -/

/-- The new meta data of one transaction in `set_relayed`. -/
def relayedMeta (p : TxMemoryPool) (now : Nat) (method : RelayMethod) (txMeta : TxpoolTxMeta) :
    TxpoolTxMeta :=
  let txMeta := { txMeta.upgradeRelayMethod method with relayed := true }
  { txMeta with
    lastRelayedTime := if txMeta.dandelionppStem then now + P.randomSeconds p.reads else now }

/-- One turn of `set_relayed`; `now` was read before the loop. -/
def setRelayedOne (now : Nat) (method : RelayMethod) (p : TxMemoryPool) (hash : Hash) :
    TxMemoryPool :=
  match p.txpool[hash]? with
  | none => p
  | some e =>
    let txMeta := p.relayedMeta P now method e.txMeta
    let p := p.tick.updateTxpoolTx hash txMeta
    if e.txMeta.sensitive ∧ ¬ txMeta.sensitive then
      p.addTxToTransientLists P hash (P.feePerByte txMeta.fee txMeta.weight) now
    else p

/-- `set_relayed`. -/
def setRelayed (p : TxMemoryPool) (hashes : List Hash) (method : RelayMethod) : TxMemoryPool :=
  hashes.foldl (setRelayedOne P (p.time P) method) p.tick

/-- The call of `add_tx` that puts a transaction back. If it could not be taken, the transaction and
its blob are empty. -/
def revalidated (version : UInt8) (txid : Hash) (txMeta : TxpoolTxMeta) (taken : Option TakenTx) :
    NewTx :=
  { tx := (taken.map TakenTx.tx).getD {}
    id := txid
    blob := (taken.map TakenTx.blob).getD []
    weight := txMeta.weight
    txRelay := txMeta.getRelayMethod
    relayed := (taken.map fun t => t.txMeta.relayed).getD false
    version
    validInputVerificationId :=
      (taken.map fun t => t.txMeta.validInputVerificationId).getD nullHash }

/-- One turn of `validate`: the transaction is taken out and put back in. -/
def validateOne (version : UInt8) (p : TxMemoryPool) (entry : Hash × PoolEntry) : TxMemoryPool :=
  let (p, taken) := p.takeTx P entry.1
  match p.addTx P b (revalidated version entry.1 entry.2.txMeta taken) with
  | (p, .error _) => p
  | (p, .ok _) => p.updateTxpoolTx entry.1 entry.2.txMeta

/-- `validate`. -/
def validate (p : TxMemoryPool) (version : UInt8) : TxMemoryPool :=
  (p.txpool.toList.filter fun entry => !entry.2.txMeta.pruned).foldl (validateOne P b version)
    { p with lists := p.lists.forget }

/-- `on_blockchain_inc` and `on_blockchain_dec`. -/
def onBlockchainChange (p : TxMemoryPool) : TxMemoryPool :=
  { p with inputCache := ∅, parsedTxCache := ∅ }

/-! ## Start -/

/-- What `init` does to the lists and the weight with one transaction. -/
def indexEntry (id : Hash) (e : PoolEntry) (p : TxMemoryPool) : TxMemoryPool :=
  let p := p.addTxToTransientLists P id (P.feePerByte e.txMeta.fee e.txMeta.weight)
    e.txMeta.receiveTime
  { p with txpoolWeight := p.txpoolWeight + e.txMeta.weight }

/-- One pass of `init` over the tables: the ids whose blobs do not parse, and whether it got to the
end. -/
def initPass (kept : Bool) : List (Hash × PoolEntry) → TxMemoryPool → List Hash →
    TxMemoryPool × List Hash × Bool
  | [], p, remove => (p, remove, true)
  | (txid, e) :: entries, p, remove =>
    if kept ≠ e.txMeta.keptByBlock then initPass kept entries p remove
    else
      match parsePrefix e.blob with
      | none => initPass kept entries p (remove ++ [txid])
      | some tx =>
        match p.withKeyImages txid e.txMeta.getRelayMethod tx.vin (indexEntry P txid e) with
        | (p, false) => (p, remove, false)
        | (p, true) => initPass kept entries p remove

/-- The state that `init` starts from. -/
def cleared (p : TxMemoryPool) (maxTxpoolWeight : Nat) : TxMemoryPool :=
  { p with
    txpoolMaxWeight := if maxTxpoolWeight = 0 then 648000000 else maxTxpoolWeight
    lists := {}
    spentKeyImages := ∅
    txpoolWeight := 0 }

/-- `init`: first the transactions not kept by block, then the others. -/
def init (p : TxMemoryPool) (maxTxpoolWeight : Nat) (mineStemTxes : Bool) : TxMemoryPool × Bool :=
  match initPass P false p.txpool.toList (p.cleared maxTxpoolWeight) [] with
  | (p, _, false) => (p, false)
  | (p, remove, true) =>
    match initPass P true p.txpool.toList p remove with
    | (p, _, false) => (p, false)
    | (p, remove, true) => ({ remove.foldl removeTxpoolTx p with mineStemTxes }, true)

end TxMemoryPool

end Hashmonkey.Pool
