import Hashmonkey.Db.Tables

/-!
# Adding a block to the database (`blockchain_db/blockchain_db.cpp`, `lmdb/db_lmdb.cpp`)

`BlockchainDb.addBlock` is `BlockchainDB::add_block`: the coinbase transaction, the other
transactions in the order of the block, and last the block itself. `m_hardfork->add` and its table
are left out, and so are `m_cum_size` and `m_cum_count`, which only size the map.

* An output goes into `outputTxs` under the next output id, and into `outputAmounts` under its
  amount and the number of outputs of that amount. The outputs of a transaction of version 2 with a
  `txin_gen` are stored with amount zero.
* A transaction is split at its unprunable size. While a pruning seed is set its id also goes into
  `txsPrunableTip`.
* The running count of amount-zero outputs in `blockInfo` takes in the count of the block below
  only from version 4 on.
-/

namespace Hashmonkey.Db

open Std Basic Ringct Lib

namespace Lmdb

/-! ## Outputs and key images -/

/-- `add_spent_key`. -/
def addSpentKey (db : Lmdb) (kImage : KeyImage) : Except DbException Lmdb :=
  match Table.putNew db.spentKeys kImage () with
  | none =>
    .error (.keyImageExists "Attempting to add spent key image that's already in the db")
  | some spentKeys => .ok { db with spentKeys }

/-- `add_output`: the index among the outputs of the amount. -/
def addOutput (db : Lmdb) (txHash : Hash) (txOutput : TxOut) (localIndex : Nat)
    (unlockTime : UInt64) (commitment : Option Key) : Except DbException (Nat × Lmdb) :=
  match getOutputPublicKey txOutput with
  | none => .error (.dbError "Could not get an output public key from a tx output.")
  | some pubkey =>
    if txOutput.amount = 0 ∧ commitment = none then
      .error (.dbError "RCT output without commitment")
    else do
      let outputTxs ← append db.outputTxs db.numOutputs ⟨txHash, localIndex⟩ 48
        "Failed to add output tx hash to db transaction: "
      let amountIndex := Table.dupCount db.outputAmounts txOutput.amount
      let ok : OutKey :=
        { outputId := db.numOutputs
          pubkey
          unlockTime
          height := db.height
          commitment := if txOutput.amount = 0 then commitment else none }
      let outputAmounts ← orThrow
        (Table.appendDup db.outputAmounts txOutput.amount amountIndex ok)
        (.dbError (lmdbError "Failed to add output pubkey to db transaction: " .keyExist))
      .ok (amountIndex, { db with outputTxs, outputAmounts })

/-- `add_tx_amount_output_indices`. -/
def addTxAmountOutputIndices (db : Lmdb) (txId : Nat) (amountOutputIndices : List Nat) :
    Except DbException Lmdb := do
  let txOutputs ← append db.txOutputs txId amountOutputIndices (8 * amountOutputIndices.length)
    "Failed to add <tx hash, amount output index array> to db transaction: "
  .ok { db with txOutputs }

/-! ## Transactions -/

/-- The size at which `add_transaction_data` splits a transaction. -/
def splitSize (tx : Transaction) : Except DbException Nat :=
  if tx.unprunableSize ≠ 0 then .ok tx.unprunableSize.toNat
  else
    let base := serializeBase.write tx
    if base.2 then .ok (base.1.length % 2 ^ 32)
    else .error (.dbError "Failed to serialize pruned tx")

/-- The put into `txs_prunable_tip`, while a pruning seed is set. -/
def putTip (db : Lmdb) (txId : Nat) : ExtTreeMap (Nat × Nat) Unit Table.dupCmp :=
  if db.getBlockchainPruningSeed = 0 then db.txsPrunableTip
  else db.txsPrunableTip.insert (txId, db.height) ()

/-- The put into `txs_prunable_hash`, which a transaction of version 1 does not have. -/
def putPrunableHash (db : Lmdb) (tx : Transaction) (txId : Nat) (txPrunableHash : Hash) :
    Except DbException (ExtTreeMap Nat Hash) :=
  if tx.version > 1 then
    append db.txsPrunableHash txId txPrunableHash 32
      "Failed to add prunable tx prunable hash to db transaction: "
  else .ok db.txsPrunableHash

/-- `add_transaction_data`: the id of the transaction. -/
def addTransactionData (db : Lmdb) (tx : Transaction) (blob : Bytes)
    (txHash txPrunableHash : Hash) : Except DbException (Nat × Lmdb) :=
  let txId := db.getTxCount
  match db.txIndices[txHash]? with
  | some ti =>
    .error (.txExists ("Attempting to add transaction that's already in the db (tx id " ++
      toString ti.txId ++ ")"))
  | none => do
    let unprunableSize ← splitSize tx
    if blob.length < unprunableSize then
      .error (.dbError "pruned tx size is larger than tx size")
    else do
      let txsPruned ← append db.txsPruned txId (blob.take unprunableSize) unprunableSize
        "Failed to add pruned tx blob to db transaction: "
      let txsPrunable ← append db.txsPrunable txId (blob.drop unprunableSize)
        (blob.length - unprunableSize) "Failed to add prunable tx blob to db transaction: "
      let txsPrunableHash ← putPrunableHash db tx txId txPrunableHash
      .ok (txId, { db with
        txIndices := db.txIndices.insert txHash ⟨txId, tx.unlockTime, db.height⟩
        txsPruned
        txsPrunable
        txsPrunableTip := putTip db txId
        txsPrunableHash })

/-! ## The block itself -/

/-- The count of amount-zero outputs that `add_block` adds the block's own to. -/
def prevCumRct (db : Lmdb) (majorVersion : UInt8) : Except DbException Nat :=
  if majorVersion < 4 then .ok 0
  else
    -- at height zero this looks up 2 ^ 64 - 1
    match if db.height = 0 then none else db.blockInfo[db.height - 1]? with
    | none => .error (.blockDne (lmdbError "Failed to get block info: " .notFound))
    | some bi => .ok bi.cumRct

/-- The check of `add_block` that the new block is on top of the last one. -/
def checkParent (db : Lmdb) (prevId : Hash) : Except DbException Unit :=
  if db.height = 0 then .ok ()
  else
    match db.blockHeights[prevId]? with
    | none =>
      .error (.dbError (lmdbError
        "Failed to get top block hash to check for new block's parent: " .notFound))
    | some h =>
      if h ≠ db.height - 1 then .error (.blockParentDne "Top block is not new block's parent")
      else .ok ()

/-- `BlockchainLMDB::add_block`. -/
def addBlock (db : Lmdb) (blk : Block) (blockWeight longTermBlockWeight : UInt64)
    (cumulativeDifficulty : Nat) (coinsGenerated : UInt64) (numRctOuts : Nat) (blkHash : Hash) :
    Except DbException Lmdb :=
  if db.blockHeights.contains blkHash then
    .error (.blockExists "Attempting to add block that's already in the db")
  else do
    checkParent db blk.prevId
    let blob := (blockToBlob blk).1
    let blocks ← append db.blocks db.height blob blob.length
      "Failed to add block blob to db transaction: "
    let prev ← prevCumRct db blk.majorVersion
    let bi : BlockInfo :=
      { timestamp := blk.timestamp
        coins := coinsGenerated
        weight := blockWeight
        diffHi := UInt64.ofNat (cumulativeDifficulty / 2 ^ 64)
        diffLo := UInt64.ofNat cumulativeDifficulty
        hash := blkHash
        cumRct := numRctOuts + prev
        longTermBlockWeight }
    let blockInfo ← append db.blockInfo db.height bi 96
      "Failed to add block info to db transaction: "
    .ok { db with blocks, blockInfo, blockHeights := db.blockHeights.insert blkHash db.height }

end Lmdb

namespace BlockchainDb

open Lmdb

/-! ## `BlockchainDB` -/

/-- The inputs of `add_transaction`: the key images are stored, and a `txin_gen` is noted. -/
def addInputs (db : Lmdb) : List TxinV → Except DbException (Bool × Lmdb)
  | [] => .ok (false, db)
  | .key i :: vin => do
    let db ← db.addSpentKey i.kImage
    addInputs db vin
  | .gen _ :: vin => do
    let (_, db) ← addInputs db vin
    .ok (true, db)
  | _ :: _ => .error (.runtimeError "Unexpected input type, aborting")

/-- The output that `add_transaction` stores for the output at an index, and its commitment. -/
def storedOutput (p : Primitives) (tx : Transaction) (minerTx : Bool) (o : TxOut) (i : Nat) :
    Except DbException (TxOut × Option Key) :=
  if minerTx ∧ tx.version = 2 then .ok ({ o with amount := 0 }, some (p.zeroCommit o.amount))
  else if tx.version > 1 then
    match tx.rctSignatures.outPk[i]? with
    | some c => .ok (o, some c.mask)
    | none =>
      -- the address of a missing element is only followed for an amount of zero
      if o.amount = 0 then .error (.undefined "outPk[i]") else .ok (o, some nullHash)
  else .ok (o, none)

/-- The outputs of `add_transaction` with their positions. -/
def addOutputs (p : Primitives) (tx : Transaction) (minerTx : Bool) (txHash : Hash) (db : Lmdb) :
    List (TxOut × Nat) → Except DbException (List Nat × Lmdb)
  | [] => .ok ([], db)
  | (o, i) :: outs => do
    let (out, commitment) ← storedOutput p tx minerTx o i
    let (index, db) ← db.addOutput txHash out i tx.unlockTime commitment
    let (indices, db) ← addOutputs p tx minerTx txHash db outs
    .ok (index :: indices, db)

/-- `get_transaction_prunable_hash`, with its cache. -/
def getTransactionPrunableHash (p : Primitives) (tx : Transaction) (blob : Bytes) :
    Except DbException Hash :=
  match tx.prunableHash with
  | some h => .ok h
  | none =>
    orThrow (calculateTransactionPrunableHash p.cnFastHash tx (some blob))
      (.runtimeError "Failed to calculate tx prunable hash")

/-- The prunable hash that `add_transaction` passes on; for version 1 it is never read. -/
def prunableHashOf (p : Primitives) (tx : Transaction) (blob : Bytes) : Except DbException Hash :=
  if tx.version ≥ 2 then getTransactionPrunableHash p tx blob else .ok nullHash

/-- `get_transaction_hash`, throwing. -/
def txHashOf (p : Primitives) (tx : Transaction) : Except DbException Hash :=
  orThrow (getTransactionHash p.cnFastHash tx)
    (.runtimeError "Failed to calculate transaction hash")

/-- `add_transaction`, for a transaction with the given hash. -/
def addTransaction (p : Primitives) (db : Lmdb) (tx : Transaction) (blob : Bytes) (txHash : Hash) :
    Except DbException Lmdb := do
  let txPrunableHash ← prunableHashOf p tx blob
  let (minerTx, db) ← addInputs db tx.vin
  let (txId, db) ← db.addTransactionData tx blob txHash txPrunableHash
  let (indices, db) ← addOutputs p tx minerTx txHash db tx.vout.zipIdx
  db.addTxAmountOutputIndices txId indices

/-- The transactions of a block beside the coinbase, with their hashes. -/
def addTransactions (p : Primitives) (db : Lmdb) :
    List (Hash × Transaction × Bytes) → Except DbException Lmdb
  | [] => .ok db
  | (txHash, tx, blob) :: txs => do
    let db ← addTransaction p db tx blob txHash
    addTransactions p db txs

/-- `num_rct_outs`. -/
def numRctOuts (blk : Block) (txs : List (Transaction × Bytes)) : Nat :=
  (if blk.minerTx.version = 2 then blk.minerTx.vout.length else 0) +
    (txs.map fun t => t.1.vout.countP fun o => o.amount = 0).sum

/-- What a block is stored with. -/
structure BlockMeta where
  blockWeight : UInt64
  longTermBlockWeight : UInt64
  cumulativeDifficulty : Nat
  coinsGenerated : UInt64

/-- `BlockchainDB::add_block`: the height of the block. -/
def addBlock (p : Primitives) (db : Lmdb) (blk : Block) (m : BlockMeta)
    (txs : List (Transaction × Bytes)) : Except DbException (Nat × Lmdb) :=
  if blk.txHashes.length ≠ txs.length then .error (.runtimeError "Inconsistent tx/hashes sizes")
  else do
    let blkHash := p.getBlockHash blk
    let prevHeight := db.height
    -- serialising the coinbase transaction records its sizes
    let (minerBd, minerTx) := txToBlob blk.minerTx
    let minerHash ← txHashOf p minerTx
    let db ← addTransaction p db minerTx minerBd.1 minerHash
    let db ← addTransactions p db (blk.txHashes.zip txs)
    let db ← db.addBlock blk m.blockWeight m.longTermBlockWeight m.cumulativeDifficulty
      m.coinsGenerated (numRctOuts blk txs) blkHash
    .ok (prevHeight, db)

end BlockchainDb

end Hashmonkey.Db
