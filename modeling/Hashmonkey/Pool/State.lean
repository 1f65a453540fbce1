import Hashmonkey.Core.MainChain
import Hashmonkey.Core.TxVerification
import Hashmonkey.Db.Tables
import Mathlib.Data.Finset.Erase
import Mathlib.Data.Finset.Insert

/-!
# The state of the transaction pool (`cryptonote_core/tx_pool.h`)

`tx_memory_pool` keeps the transactions themselves in two tables of the database and, in memory,
what it wants to find quickly: which transactions spend a key image, the total weight, the
transactions by fee, and when transactions came and went. This module has the data and the
functions that touch one of these structures.

* `RelayMethod`, `TxpoolTxMeta`: how a transaction got here is kept in five flags of its meta data;
* `TransientLists`: the container sorted by fee, the times of the transactions that are here, and
  the log of those removed, which is cut by size and by age;
* `insertKeyImages`, `removeTransactionKeyimages`: the index by key images;
* `TxMemoryPool`: all of it, with the tables.

`PoolParams` has what a pool cannot influence: the readings of the clock, random delays, the
quotient of a fee and a weight as a `double`, and the cryptography under the consensus rules that
are not about inputs (`Core/TxVerification`). `BlockchainAccess` is what the pool asks of the
blockchain. The pool also counts its readings of the clock and keeps the calls of
`Blockchain::check_tx_inputs` it made; the code has neither.

`prune` erases an entry of the sorted container and goes on using a reference to the id in it; here
the id is a value. Weights and times are natural numbers. The counter `m_cookie`, the flags in
`tx_verification_context` and `m_next_check` are left out.
-/

open Hashmonkey.Core

namespace Hashmonkey.Pool

open Basic Db Ringct Serialization Std

/-! ## Relaying -/

/-- `relay_method`; `localOnly` is `relay_method::local`. -/
inductive RelayMethod
  | none
  | localOnly
  | forward
  | stem
  | fluff
  | block
  deriving DecidableEq

/-- The value of the enumeration. -/
def RelayMethod.rank : RelayMethod → Nat
  | .none => 0
  | .localOnly => 1
  | .forward => 2
  | .stem => 3
  | .fluff => 4
  | .block => 5

/-- `relay_category`. -/
inductive RelayCategory
  | broadcasted
  | relayable
  | legacy
  | all
  deriving DecidableEq

/-- `matches_category`. -/
def matchesCategory (method : RelayMethod) (category : RelayCategory) : Bool :=
  match category with
  | .all => true
  | .relayable => method ≠ .none
  | .broadcasted | .legacy =>
    match method with
    | .localOnly | .forward | .stem => false
    | .block | .fluff => true
    | .none => category = .legacy

/-- `txpool_tx_meta_t`. -/
structure TxpoolTxMeta where
  maxUsedBlockId : Hash := nullHash
  lastFailedId : Hash := nullHash
  weight : Nat := 0
  fee : UInt64 := 0
  maxUsedBlockHeight : Nat := 0
  lastFailedHeight : Nat := 0
  receiveTime : Nat := 0
  lastRelayedTime : Nat := 0
  keptByBlock : Bool := false
  relayed : Bool := false
  doNotRelay : Bool := false
  doubleSpendSeen : Bool := false
  pruned : Bool := false
  isLocal : Bool := false
  dandelionppStem : Bool := false
  isForwarding : Bool := false
  validInputVerificationId : Hash := nullHash
  deriving DecidableEq

namespace TxpoolTxMeta

/-- `set_relay_method`. -/
def setRelayMethod (txMeta : TxpoolTxMeta) (method : RelayMethod) : TxpoolTxMeta :=
  { txMeta with
    keptByBlock := method = .block
    doNotRelay := method = .none
    isLocal := method = .localOnly
    isForwarding := method = .forward
    dandelionppStem := method = .stem }

/-- `get_relay_method`. More than one flag is an error case. -/
def getRelayMethod (txMeta : TxpoolTxMeta) : RelayMethod :=
  match txMeta.keptByBlock, txMeta.doNotRelay, txMeta.isLocal, txMeta.isForwarding,
    txMeta.dandelionppStem with
  | true, false, false, false, false => .block
  | false, true, false, false, false => .none
  | false, false, true, false, false => .localOnly
  | false, false, false, true, false => .forward
  | false, false, false, false, true => .stem
  | _, _, _, _, _ => .fluff

/-- Whether `upgrade_relay_method` changes anything. -/
def upgrades (txMeta : TxpoolTxMeta) (method : RelayMethod) : Bool :=
  txMeta.getRelayMethod.rank < method.rank

/-- `upgrade_relay_method`. -/
def upgradeRelayMethod (txMeta : TxpoolTxMeta) (method : RelayMethod) : TxpoolTxMeta :=
  if txMeta.upgrades method then txMeta.setRelayMethod method else txMeta

/-- `matches`. -/
def matchesRelay (txMeta : TxpoolTxMeta) (category : RelayCategory) : Bool :=
  matchesCategory txMeta.getRelayMethod category

/-- `!meta.matches(relay_category::broadcasted)`. -/
def sensitive (txMeta : TxpoolTxMeta) : Bool := !txMeta.matchesRelay .broadcasted

end TxpoolTxMeta

/-- The entries of a transaction in the tables `txpool_meta` and `txpool_blob`. -/
structure PoolEntry where
  txMeta : TxpoolTxMeta
  blob : Bytes
  deriving DecidableEq

/-- The tables of the pool. -/
abbrev PoolTable := ExtTreeMap Hash PoolEntry compareHash32

/-- `txpool_tx_matches_category`. -/
def txpoolTxMatchesCategory (txpool : PoolTable) (txid : Hash) (category : RelayCategory) : Bool :=
  match txpool[txid]? with
  | none => false
  | some e => e.txMeta.matchesRelay category

/-! ## Surroundings -/

/-- What the pool cannot influence. -/
structure PoolParams where
  /-- the readings of the clock -/
  clock : Nat → Nat
  /-- the bits of the `double` nearest to the quotient of a fee and a weight: doubles that are not
  negative compare as their bits do -/
  feePerByte : UInt64 → Nat → Nat
  /-- `random_poisson_seconds` -/
  randomSeconds : Nat → Nat
  /-- the cryptography that `ver_non_input_consensus` and the parser call -/
  nic : NicCrypto

/-- What `Blockchain::check_tx_inputs` gives back. -/
structure InputsVerdict where
  passed : Bool
  validInputVerificationId : Hash
  maxUsedBlockHeight : Nat
  maxUsedBlockId : Hash

/-- What the pool asks of the blockchain, as it is during one call. -/
structure BlockchainAccess where
  checkFee : Nat → UInt64 → Bool
  /-- `check_tx_inputs` for a verification id, with `kept_by_block` -/
  checkTxInputs : Transaction → Hash → Bool → InputsVerdict
  topBlockHeight : Nat
  topBlockHash : Hash

/-- Whether `ver_non_input_consensus` returns true; nothing is done if it throws, as if it returned
false. -/
def nicPasses (P : PoolParams) (tx : Transaction) (version : UInt8) : Bool :=
  match verNonInputConsensus P.nic tx version {} with
  | .ok (passed, _) => passed
  | .error _ => false

/-- `parse_and_validate_tx_prefix_from_blob`: what follows the prefix is not looked at. -/
def parsePrefix (blob : Bytes) : Option TransactionPrefix :=
  (transactionPrefix.read false blob).map Prod.fst

/-! ## Lists that are not stored -/

/-- An entry of `m_txs_by_fee_and_receive_time`. -/
structure SortedTx where
  fee : Nat
  time : Nat
  txid : Hash
  deriving DecidableEq

/-- `txFeeCompare`: the greatest fee first. -/
def txFeeLess (a b : SortedTx) : Bool :=
  if a.fee > b.fee then true else if a.fee < b.fee then false else a.time < b.time

/-- An entry goes behind those it does not compare less than. -/
def insertByFee (e : SortedTx) : List SortedTx → List SortedTx
  | [] => [e]
  | x :: l => if txFeeLess e x then e :: x :: l else x :: insertByFee e l

/-- An entry of `m_removed_txs_by_time`. -/
structure RemovedTx where
  time : Nat
  txid : Hash
  sensitive : Bool
  deriving DecidableEq

/-- `std::multimap::insert`: behind the entries of the same time. -/
def insertByTime (r : RemovedTx) : List RemovedTx → List RemovedTx
  | [] => [r]
  | x :: l => if r.time < x.time then r :: x :: l else x :: insertByTime r l

/-- What the pool keeps of its transactions in memory, apart from key images and weights. -/
structure TransientLists where
  /-- `m_txs_by_fee_and_receive_time` -/
  sorted : List SortedTx := []
  /-- `m_added_txs_by_id` -/
  addedById : ExtTreeMap Hash Nat compareHash32 := ∅
  /-- `m_added_txs_start_time` -/
  addedStart : Nat := 0
  /-- `m_removed_txs_by_time` -/
  removedByTime : List RemovedTx := []
  /-- `m_removed_txs_start_time` -/
  removedStart : Nat := 0

/-- `MAX_REMOVED`. -/
def maxRemoved : Nat := 20000

namespace TransientLists

/-- `m_txs_by_fee_and_receive_time.erase` of the entry with an id, if there is one. -/
def eraseSorted (l : List SortedTx) (txid : Hash) : List SortedTx := l.eraseP (·.txid = txid)

/-- `m_txs_by_fee_and_receive_time.insert`: refused if the id is there. -/
def insertSorted (l : List SortedTx) (e : SortedTx) : List SortedTx :=
  if l.any (·.txid = e.txid) then l else insertByFee e l

/-- `add_tx_to_transient_lists` at time `now`. -/
def addTx (l : TransientLists) (txid : Hash) (fee receiveTime now : Nat) : TransientLists :=
  let sorted := if txid ∈ l.addedById then eraseSorted l.sorted txid else l.sorted
  { l with
    sorted := insertSorted sorted ⟨fee, receiveTime, txid⟩
    addedById := l.addedById.insert txid now
    addedStart := if l.addedStart = 0 then now else l.addedStart }

/-- `track_removed_tx` at time `now`. -/
def trackRemovedTx (l : TransientLists) (txid : Hash) (sensitive : Bool) (now : Nat) :
    TransientLists :=
  let removed := insertByTime ⟨now, txid, sensitive⟩ l.removedByTime
  let start := if l.removedStart = 0 then now else l.removedStart
  if removed.length > maxRemoved then
    let kept := removed.drop (maxRemoved / 4 + 1)
    { l with removedByTime := kept, removedStart := (kept.head?.map RemovedTx.time).getD start }
  else
    let earliest := now - 30 * 60
    let kept := removed.dropWhile (·.time < earliest)
    if removed.length - kept.length > 0 then
      { l with removedByTime := kept, removedStart := earliest }
    else { l with removedByTime := removed, removedStart := start }

/-- `remove_tx_from_transient_lists` at time `now`. -/
def removeTx (l : TransientLists) (txid : Hash) (sensitive : Bool) (now : Nat) : TransientLists :=
  trackRemovedTx
    { l with sorted := eraseSorted l.sorted txid, addedById := l.addedById.erase txid }
    txid sensitive now

/-- `validate` throws the log of additions and removals away. -/
def forget (l : TransientLists) : TransientLists :=
  { l with addedById := ∅, addedStart := 0, removedByTime := [], removedStart := 0 }

end TransientLists

/-! ## Key images -/

/-- `key_images_container`. -/
abbrev KeyImagesContainer := ExtTreeMap KeyImage (Finset Hash) compareHash32

/-- The loop of `insert_key_images`: the container afterwards, and whether it got to the end. -/
def insertKeyImages (txpool : PoolTable) (id : Hash) (txRelay : RelayMethod) :
    List TxinV → KeyImagesContainer → KeyImagesContainer × Bool
  | [], images => (images, true)
  | .key txin :: vin, images =>
    let keiImageSet := images.getD txin.kImage ∅
    -- only allow multiple transactions per key image if kept by block
    if txRelay ≠ .block ∧ ¬ (keiImageSet = ∅ ∨ keiImageSet = {id}) then
      (images.insert txin.kImage keiImageSet, false)
    else if id ∈ keiImageSet ∧ txpoolTxMatchesCategory txpool id .legacy then
      (images.insert txin.kImage keiImageSet, false)
    else insertKeyImages txpool id txRelay vin (images.insert txin.kImage (insert id keiImageSet))
  | _ :: _, images => (images, false)

/-- The loop of `remove_transaction_keyimages`. All callers ignore whether it got to the end. -/
def removeTransactionKeyimages (actualHash : Hash) :
    List TxinV → KeyImagesContainer → KeyImagesContainer
  | .key txin :: vin, images =>
    match images[txin.kImage]? with
    | none => images
    | some keyImageSet =>
      if actualHash ∈ keyImageSet then
        removeTransactionKeyimages actualHash vin
          (if keyImageSet.erase actualHash = ∅ then images.erase txin.kImage
           else images.insert txin.kImage (keyImageSet.erase actualHash))
      else images
  | _, images => images

/-- `have_tx_keyimg_as_spent`. -/
def haveTxKeyimgAsSpent (txpool : PoolTable) (images : KeyImagesContainer) (keyIm : KeyImage)
    (txid : Hash) : Bool :=
  let found := images.getD keyIm ∅
  if found = ∅ then false
  else if found ≠ {txid} then true
  else txpoolTxMatchesCategory txpool txid .legacy

/-- `have_tx_keyimges_as_spent`: an input of another type counts as spent. -/
def haveTxKeyimgesAsSpent (txpool : PoolTable) (images : KeyImagesContainer) (vin : List TxinV)
    (txid : Hash) : Bool :=
  vin.any fun
    | .key txin => haveTxKeyimgAsSpent txpool images txin.kImage txid
    | _ => true

/-- `mark_double_spend`: the transactions in the pool with one of these key images. With an input of
another type it leaves without committing. -/
def markDoubleSpend (images : KeyImagesContainer) (vin : List TxinV) (txpool : PoolTable) :
    PoolTable :=
  if checkInputsTypesSupported vin then
    txpool.map fun id e =>
      if (keyImages vin).any fun k => id ∈ images.getD k ∅ then
        { e with txMeta := { e.txMeta with doubleSpendSeen := true } }
      else e
  else txpool

/-! ## The pool -/

/-- `tx_memory_pool` and its tables. -/
structure TxMemoryPool where
  txpool : PoolTable := ∅
  /-- `m_spent_key_images` -/
  spentKeyImages : KeyImagesContainer := ∅
  /-- `m_txpool_weight` -/
  txpoolWeight : Nat := 0
  /-- `m_txpool_max_weight` -/
  txpoolMaxWeight : Nat := 648000000
  lists : TransientLists := {}
  /-- `m_timed_out_transactions` -/
  timedOutTransactions : Finset Hash := ∅
  /-- `m_parsed_tx_cache` -/
  parsedTxCache : ExtTreeMap Hash Transaction compareHash32 := ∅
  /-- `m_input_cache`, without verification contexts -/
  inputCache : ExtTreeMap Hash (Bool × Nat × Hash) compareHash32 := ∅
  /-- `m_mine_stem_txes` -/
  mineStemTxes : Bool := false
  /-- how often the clock was read or a random delay drawn -/
  reads : Nat := 0
  /-- the calls of `Blockchain::check_tx_inputs`: the transaction and the verification id given -/
  checks : List (Transaction × Hash) := []

namespace TxMemoryPool

/-- `time(NULL)`. -/
def time (P : PoolParams) (p : TxMemoryPool) : Nat := P.clock p.reads

/-- The clock is read. -/
def tick (p : TxMemoryPool) : TxMemoryPool := { p with reads := p.reads + 1 }

/-- `add_txpool_tx`. The tables have no duplicates, where `MDB_NODUPDATA` does nothing: an entry
that is there already is overwritten. -/
def addTxpoolTx (p : TxMemoryPool) (txid : Hash) (blob : Bytes) (txMeta : TxpoolTxMeta) :
    TxMemoryPool :=
  { p with txpool := p.txpool.insert txid ⟨txMeta, blob⟩ }

/-- `update_txpool_tx`; nothing if the transaction is not there, where it throws and the callers
catch that. -/
def updateTxpoolTx (p : TxMemoryPool) (txid : Hash) (txMeta : TxpoolTxMeta) : TxMemoryPool :=
  match p.txpool[txid]? with
  | none => p
  | some e => { p with txpool := p.txpool.insert txid { e with txMeta } }

/-- `remove_txpool_tx`. -/
def removeTxpoolTx (p : TxMemoryPool) (txid : Hash) : TxMemoryPool :=
  { p with txpool := p.txpool.erase txid }

/-- `reduce_txpool_weight`: not below zero. -/
def reduceTxpoolWeight (p : TxMemoryPool) (weight : Nat) : TxMemoryPool :=
  { p with txpoolWeight := p.txpoolWeight - weight }

/-- `add_tx_to_transient_lists`. -/
def addTxToTransientLists (P : PoolParams) (p : TxMemoryPool) (txid : Hash)
    (fee receiveTime : Nat) : TxMemoryPool :=
  { p.tick with lists := p.lists.addTx txid fee receiveTime (p.time P) }

/-- `remove_tx_from_transient_lists`. -/
def removeTxFromTransientLists (P : PoolParams) (p : TxMemoryPool) (txid : Hash)
    (sensitive : Bool) : TxMemoryPool :=
  { p.tick with lists := p.lists.removeTx txid sensitive (p.time P) }

/-- The transaction leaves the tables, the weight and the key images. -/
def removeStored (p : TxMemoryPool) (txid : Hash) (weight : Nat) (vin : List TxinV) :
    TxMemoryPool :=
  let p := (p.removeTxpoolTx txid).reduceTxpoolWeight weight
  { p with spentKeyImages := removeTransactionKeyimages txid vin p.spentKeyImages }

/-- The transaction leaves the tables and everything kept in memory. -/
def removeEntry (P : PoolParams) (p : TxMemoryPool) (txid : Hash) (e : PoolEntry)
    (vin : List TxinV) : TxMemoryPool :=
  (p.removeStored txid e.txMeta.weight vin).removeTxFromTransientLists P txid e.txMeta.sensitive

end TxMemoryPool

end Hashmonkey.Pool
