import Hashmonkey.Db.AddBlock

/-!
# Removing the last block from the database (`blockchain_db/blockchain_db.cpp`, `lmdb/db_lmdb.cpp`)

`BlockchainDb.popBlock` is `BlockchainDB::pop_block`: the block is read back and removed, then its
transactions from the last to the first, each read back from its blobs, and the coinbase
transaction at the end. What a transaction put into the tables is worked out again from its base
blob: the key images from its inputs, and for each output the amount it was stored under, which
`removeTxOutputs` takes to be zero for a version 2 transaction whose only input is a `txin_gen`.

An exception of the database is an `.error` with its class and text; what it leaves of the tables is
not modelled. That this undoes `addBlock` is shown in `Db/PopAdd`.
-/

namespace Hashmonkey.Db

open Std Basic Ringct Lib

namespace Lmdb

/-! ## Reading -/

/-- `get_tx_blob`; `none` when it returns `false`. -/
def getTxBlob (db : Lmdb) (h : Hash) : Option Bytes := do
  let ti ← db.txIndices[h]?
  let pruned ← db.txsPruned[ti.txId]?
  let prunable ← db.txsPrunable[ti.txId]?
  some (pruned ++ prunable)

/-- `get_pruned_tx_blob`. -/
def getPrunedTxBlob (db : Lmdb) (h : Hash) : Option Bytes := do
  let ti ← db.txIndices[h]?
  db.txsPruned[ti.txId]?

/-- `get_block_from_height`. -/
def getBlockFromHeight (db : Lmdb) (height : Nat) : Except DbException Block := do
  let bd ← orThrow db.blocks[height]? (.blockDne ("Attempt to get block from height " ++
    toString height ++ " failed -- block not in db"))
  orThrow (parseAndValidateBlockFromBlob bd)
    (.dbError "Failed to parse block from blob retrieved from the db")

/-! ## Removing -/

/-- `remove_spent_key`: nothing happens when the key image is not there. -/
def removeSpentKey (db : Lmdb) (kImage : KeyImage) : Lmdb :=
  { db with spentKeys := db.spentKeys.erase kImage }

/-- `remove_output`. -/
def removeOutput (db : Lmdb) (amount : UInt64) (outIndex : Nat) : Except DbException Lmdb := do
  let ok ← orThrow db.outputAmounts[(amount, outIndex)]? (.outputDne
    "Attempting to get an output index by amount and amount index, but amount not found")
  let _ ← orThrow db.outputTxs[ok.outputId]?
    (.dbError "Unexpected: global output index not found in m_output_txs")
  .ok { db with
    outputTxs := db.outputTxs.erase ok.outputId
    outputAmounts := db.outputAmounts.erase (amount, outIndex) }

/-- The loop of `remove_tx_outputs`, from the last output to the first. -/
def removeOutputs (db : Lmdb) : List (UInt64 × Nat) → Except DbException Lmdb
  | [] => .ok db
  | (amount, index) :: outs => do
    let db ← removeOutputs db outs
    db.removeOutput amount index

/-- The amounts under which `remove_tx_outputs` looks for the outputs of a transaction. -/
def removedAmounts (tx : Transaction) : List UInt64 :=
  let isPseudoRct := tx.version ≥ 2 ∧ isCoinbase tx.toTransactionPrefix
  tx.vout.map fun o => if isPseudoRct then 0 else o.amount

/-- `remove_tx_outputs`. -/
def removeTxOutputs (db : Lmdb) (txId : Nat) (tx : Transaction) : Except DbException Lmdb := do
  -- without an entry `get_tx_amount_output_indices` reads a value that was never set
  let indices ← orThrow db.txOutputs[txId]? (.undefined "tx_outputs[tx_index]")
  if indices = [] ∧ tx.vout ≠ [] then
    .error (.dbError "tx has outputs, but no output indices found")
  else if indices.length < tx.vout.length then .error (.undefined "amount_output_indices[i]")
  else removeOutputs db ((removedAmounts tx).zip indices)

/-- The cursor at the first duplicate of a transaction id in `txs_prunable_tip`, and its removal. -/
def eraseTip (t : ExtTreeMap (Nat × Nat) Unit Table.dupCmp) (txId : Nat) :
    ExtTreeMap (Nat × Nat) Unit Table.dupCmp :=
  match t.keys.find? fun l => l.1 = txId with
  | none => t
  | some k => t.erase k

/-- The removal from `txs_prunable_hash`. -/
def erasePrunableHash (db : Lmdb) (tx : Transaction) (txId : Nat) :
    Except DbException (ExtTreeMap Nat Hash) :=
  if tx.version > 1 then do
    let _ ← orThrow db.txsPrunableHash[txId]?
      (.dbError (lmdbError "Failed to locate prunable hash tx for removal: " .notFound))
    .ok (db.txsPrunableHash.erase txId)
  else .ok db.txsPrunableHash

/-- `remove_transaction_data`. -/
def removeTransactionData (db : Lmdb) (txHash : Hash) (tx : Transaction) :
    Except DbException Lmdb := do
  let ti ← orThrow db.txIndices[txHash]?
    (.txDne "Attempting to remove transaction that isn't in the db")
  let _ ← orThrow db.txsPruned[ti.txId]?
    (.dbError (lmdbError "Failed to locate pruned tx for removal: " .notFound))
  let txsPrunableHash ← erasePrunableHash db tx ti.txId
  let db ← removeTxOutputs { db with
    txsPruned := db.txsPruned.erase ti.txId
    txsPrunable := db.txsPrunable.erase ti.txId
    txsPrunableTip := eraseTip db.txsPrunableTip ti.txId
    txsPrunableHash } ti.txId tx
  .ok { db with
    txOutputs := db.txOutputs.erase ti.txId
    txIndices := db.txIndices.erase txHash }

/-- `remove_block`. -/
def removeBlock (db : Lmdb) : Except DbException Lmdb :=
  if db.height = 0 then
    .error (.blockDne "Attempting to remove block from an empty blockchain")
  else do
    let bi ← orThrow db.blockInfo[db.height - 1]?
      (.blockDne (lmdbError "Attempting to remove block that's not in the db: " .notFound))
    let _ ← orThrow db.blockHeights[bi.hash]?
      (.dbError (lmdbError "Failed to locate block height by hash for removal: " .notFound))
    let _ ← orThrow db.blocks[db.height - 1]?
      (.dbError (lmdbError "Failed to locate block data for removal: " .notFound))
    .ok { db with
      blocks := db.blocks.erase (db.height - 1)
      blockInfo := db.blockInfo.erase (db.height - 1)
      blockHeights := db.blockHeights.erase bi.hash }

end Lmdb

namespace BlockchainDb

open Lmdb

/-- `get_tx`; `none` when it returns `false`. -/
def getTx (p : Primitives) (db : Lmdb) (h : Hash) : Except DbException (Option Transaction) :=
  match db.getTxBlob h with
  | none => .ok none
  | some bd =>
    (orThrow (parseAndValidateTxFromBlob p.scalarmultKey bd)
      (.dbError "Failed to parse transaction from blob retrieved from the db")).map some

/-- `get_pruned_tx`. -/
def getPrunedTx (p : Primitives) (db : Lmdb) (h : Hash) : Except DbException (Option Transaction) :=
  match db.getPrunedTxBlob h with
  | none => .ok none
  | some bd =>
    (orThrow (parseAndValidateTxBaseFromBlob p.scalarmultKey bd)
      (.dbError "Failed to parse transaction base from blob retrieved from the db")).map some

/-- The key images of the inputs of `remove_transaction`. -/
def removeInputs (db : Lmdb) : List TxinV → Lmdb
  | [] => db
  | .key i :: vin => removeInputs (db.removeSpentKey i.kImage) vin
  | _ :: vin => removeInputs db vin

/-- `remove_transaction`. -/
def removeTransaction (p : Primitives) (db : Lmdb) (txHash : Hash) : Except DbException Lmdb := do
  let tx ← getPrunedTx p db txHash
  let tx ← orThrow tx (.txDne ("pruned tx with hash " ++ podToHex txHash.1 ++ " not found in db"))
  (removeInputs db tx.vin).removeTransactionData txHash tx

/-- The transaction that `pop_block` hands out for a hash. -/
def poppedTx (p : Primitives) (db : Lmdb) (h : Hash) : Except DbException Transaction := do
  match ← getTx p db h with
  | some tx => .ok tx
  | none =>
    let tx ← getPrunedTx p db h
    orThrow tx (.dbError "Failed to get pruned or unpruned transaction from the db")

/-- The loop of `pop_block` over the hashes of a block, last one first. -/
def popTransactions (p : Primitives) (db : Lmdb) :
    List Hash → Except DbException (List Transaction × Lmdb)
  | [] => .ok ([], db)
  | h :: hashes => do
    let tx ← poppedTx p db h
    let db ← removeTransaction p db h
    let (txs, db) ← popTransactions p db hashes
    .ok (tx :: txs, db)

/-- `BlockchainDB::pop_block`: the block, its transactions as they are handed out, and what is
left. -/
def popBlock (p : Primitives) (db : Lmdb) :
    Except DbException ((Block × List Transaction) × Lmdb) :=
  if db.height = 0 then
    -- `get_top_block` gives an empty block here, and `remove_block` throws
    .error (.blockDne "Attempting to remove block from an empty blockchain")
  else do
    let blk ← db.getBlockFromHeight (db.height - 1)
    let db ← db.removeBlock
    let (txs, db) ← popTransactions p db blk.txHashes.reverse
    let minerHash ← txHashOf p blk.minerTx
    let db ← removeTransaction p db minerHash
    .ok ((blk, txs), db)

end BlockchainDb

end Hashmonkey.Db
