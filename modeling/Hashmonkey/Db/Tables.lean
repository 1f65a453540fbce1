import Hashmonkey.Lib.Table
import Hashmonkey.Basic.Hashes

/-!
# The tables of the blockchain database (`blockchain_db/lmdb/db_lmdb.cpp`)

`Lmdb` is the content of the database: one ordered map for each LMDB table that adding and removing
blocks touches, and the pruning seed from the properties.

* Tables under the one key `zerokval` hold duplicates that are compared by their first bytes; they
  are maps from those bytes to the rest: `blockInfo` by height, `outputTxs` by output id, and
  `blockHeights`, `txIndices` and `spentKeys` by hash.
* `outputAmounts` and `txsPrunableTip` have many keys with duplicates each; they are maps from the
  key and the compared part of the duplicate.
* What a cursor call can return besides success is an `MdbResult`, what a function throws a
  `DbException` with its message. Results that mean a broken file or a full disk are left out.

Heights, ids and counts are natural numbers. A value has at most `maxDataSize` bytes.
-/

namespace Hashmonkey.Db

open Std Basic Ringct Lib

/-! ## Failures -/

/-- The error codes of LMDB that the calls below can return. -/
inductive MdbResult
  | keyExist
  | notFound
  | badValsize
  deriving DecidableEq

/-- `mdb_strerror`. -/
def mdbStrerror : MdbResult → String
  | .keyExist => "MDB_KEYEXIST: Key/data pair already exists"
  | .notFound => "MDB_NOTFOUND: No matching key/data pair found"
  | .badValsize =>
    "MDB_BAD_VALSIZE: Unsupported size of key/DB name/data, or wrong DUPFIXED size"

/-- `lmdb_error`. -/
def lmdbError (errorString : String) (mdbRes : MdbResult) : String :=
  errorString ++ mdbStrerror mdbRes

/-- `pod_to_hex`. -/
def podToHex (bs : Bytes) : String :=
  let digit (n : Nat) : Char := "0123456789abcdef".toList.getD n '0'
  String.ofList (bs.flatMap fun b => [digit (b.toNat / 16), digit (b.toNat % 16)])

/-- What the functions of the database throw. `undefined` is a read outside of an array. -/
inductive DbException
  | dbError (what : String)
  | blockDne (what : String)
  | blockParentDne (what : String)
  | blockExists (what : String)
  | txDne (what : String)
  | txExists (what : String)
  | outputDne (what : String)
  | keyImageExists (what : String)
  | runtimeError (what : String)
  | undefined (what : String)
  deriving DecidableEq

/-- The value of a lookup, or an exception. -/
def orThrow {α : Type} (o : Option α) (e : DbException) : Except DbException α :=
  match o with
  | some a => .ok a
  | none => .error e

theorem orThrow_eq_ok {α : Type} {o : Option α} {e : DbException} {a : α} :
    orThrow o e = .ok a ↔ o = some a := by
  cases o <;> simp [orThrow]

theorem toOption_eq_some {α : Type} {x : Except DbException α} {a : α} :
    x.toOption = some a ↔ x = .ok a := by
  cases x <;> simp [Except.toOption]

/-- Two calls in sequence succeed when each does. -/
theorem bind_eq_ok {α β : Type} {x : Except DbException α} {f : α → Except DbException β} {b : β} :
    x >>= f = .ok b ↔ ∃ a, x = .ok a ∧ f a = .ok b := by
  cases x <;> simp [bind, Except.bind]

/-! ## Orders -/

/-- `compare_hash32`: the words, and so the bytes, from the last to the first. -/
def compareHash32 (a b : Blob 32) : Ordering := compareOn (fun h : Blob 32 => h.1.reverse) a b

instance : TransCmp compareHash32 := inferInstanceAs (TransCmp (compareOn _))

instance : LawfulEqCmp compareHash32 where
  compare_self := by simp [compareHash32, compareOn]
  eq_of_compare h := by
    simp only [compareHash32, compareOn, Std.compare_eq_iff_eq, List.reverse_inj] at h
    exact Subtype.ext h

/-! ## Values -/

/-- `mdb_block_info`, without the height it is found by. -/
structure BlockInfo where
  timestamp : UInt64
  coins : UInt64
  weight : UInt64
  diffHi : UInt64
  diffLo : UInt64
  hash : Hash
  cumRct : Nat
  longTermBlockWeight : UInt64
  deriving DecidableEq

/-- `tx_data_t`, what `txindex` keeps for a hash. -/
structure TxIndex where
  txId : Nat
  unlockTime : UInt64
  blockId : Nat
  deriving DecidableEq

/-- `outtx`, without the output id it is found by. -/
structure OutTx where
  txHash : Hash
  localIndex : Nat
  deriving DecidableEq

/-- `outkey`, and with no commitment `pre_rct_outkey`, without the index it is found by. -/
structure OutKey where
  outputId : Nat
  pubkey : PublicKey
  unlockTime : UInt64
  height : Nat
  commitment : Option Key
  deriving DecidableEq

/-! ## The database -/

/-- The content of a `BlockchainLMDB`. -/
structure Lmdb where
  blocks : ExtTreeMap Nat Bytes := ∅
  blockInfo : ExtTreeMap Nat BlockInfo := ∅
  blockHeights : ExtTreeMap Hash Nat compareHash32 := ∅
  txIndices : ExtTreeMap Hash TxIndex compareHash32 := ∅
  txsPruned : ExtTreeMap Nat Bytes := ∅
  txsPrunable : ExtTreeMap Nat Bytes := ∅
  txsPrunableHash : ExtTreeMap Nat Hash := ∅
  /-- by transaction id and height -/
  txsPrunableTip : ExtTreeMap (Nat × Nat) Unit Table.dupCmp := ∅
  /-- the indices among the outputs of their amounts -/
  txOutputs : ExtTreeMap Nat (List Nat) := ∅
  outputTxs : ExtTreeMap Nat OutTx := ∅
  /-- by amount and index -/
  outputAmounts : ExtTreeMap (UInt64 × Nat) OutKey Table.dupCmp := ∅
  spentKeys : ExtTreeMap KeyImage Unit compareHash32 := ∅
  /-- `pruning_seed` in the properties -/
  pruningSeed : Option UInt32 := none

/-- The functions outside of the database that it calls. -/
structure Primitives where
  cnFastHash : Bytes → Hash
  getBlockHash : Block → Hash
  zeroCommit : UInt64 → Key
  scalarmultKey : Key → Key → Option Key

/-- `MAXDATASIZE` of LMDB. -/
def maxDataSize : Nat := 0xffffffff

namespace Lmdb

/-- `height`. -/
def height (db : Lmdb) : Nat := db.blocks.size

/-- `get_tx_count`. -/
def getTxCount (db : Lmdb) : Nat := db.txsPruned.size

/-- `num_outputs`: one more than the last output id. -/
def numOutputs (db : Lmdb) : Nat := (db.outputTxs.keys.getLast?.map (1 + ·)).getD 0

/-- `get_blockchain_pruning_seed`. -/
def getBlockchainPruningSeed (db : Lmdb) : UInt32 := db.pruningSeed.getD 0

/-- A cursor put with `MDB_APPEND` or `MDB_APPENDDUP` of a value of the given size. -/
def append {α : Type} (t : ExtTreeMap Nat α) (k : Nat) (v : α) (size : Nat) (what : String) :
    Except DbException (ExtTreeMap Nat α) :=
  if maxDataSize < size then .error (.dbError (lmdbError what .badValsize))
  else orThrow (Table.append t k v) (.dbError (lmdbError what .keyExist))

theorem append_eq_ok {α : Type} {t t' : ExtTreeMap Nat α} {k : Nat} {v : α} {size : Nat}
    {what : String} (h : append t k v size what = .ok t') :
    size ≤ maxDataSize ∧ Table.append t k v = some t' := by
  unfold append at h
  split at h
  · cases h
  · exact ⟨by omega, orThrow_eq_ok.mp h⟩

end Lmdb

end Hashmonkey.Db
