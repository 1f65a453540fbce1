import Hashmonkey.Basic.BaseReads
import Hashmonkey.Db.PopBlock

/-!
# Popping the block that was just added (`blockchain_db.cpp`, `lmdb/db_lmdb.cpp`)

Every write of `addBlock` is under a key that was not in its table, and `popBlock` takes the writes
back in the opposite order, so each part of it is the inverse of a part of `addBlock`.

* An inverse is stated for any database that agrees with the result in the tables at hand, so that
  the parts compose (`removeInputs_addInputs`, `removeOutputs_addOutputs`).
* `popBlock` works from what it reads back, so a transaction has to be found again in its blobs
  (`BaseReadable`), and the amounts that its outputs are removed under have to be those that they
  were stored under (`SoleGen`).
* `TipStored` is the one invariant of the database that the proof needs: a transaction that is new
  has no entry in `txs_prunable_tip`. It holds for every database that was built with `addBlock`
  (`Built.tipStored`).

Result: **`popBlock_addBlock`**, the block and its transactions come back, up to what is cached in
them, and every table is as it was. The premises are on the block that was added: it and its
transactions are what their blobs parse to (`ReadsBack`, `FromBlob`), and a `txin_gen` stands
alone. `popBlock_throws` has two blocks that `add_block` takes and `pop_block` throws on.
-/

namespace Hashmonkey.Db

open Std Basic Ringct Lib List Table

namespace BlockchainDb

open Lmdb

/-! ## Key images -/

variable {db db' : Lmdb}

theorem addSpentKey_ok {k : KeyImage} (h : db.addSpentKey k = .ok db') :
    putNew db.spentKeys k () = some db'.spentKeys ∧
      db' = { db with spentKeys := db'.spentKeys } := by
  unfold Lmdb.addSpentKey at h
  split at h
  · cases h
  rename_i t ht
  cases h
  exact ⟨ht, rfl⟩

/-- A `txin_gen`. -/
def isGen : TxinV → Bool
  | .gen _ => true
  | _ => false

theorem removeInputs_removeSpentKey (db : Lmdb) (vin : List TxinV) (k : KeyImage) :
    removeInputs (db.removeSpentKey k) vin = (removeInputs db vin).removeSpentKey k := by
  induction vin generalizing db with
  | nil => rfl
  | cons i vin ih =>
    cases i with
    | key i =>
      have hc : (db.removeSpentKey k).removeSpentKey i.kImage =
          (db.removeSpentKey i.kImage).removeSpentKey k := by
        simp only [removeSpentKey, Table.erase_comm k]
      show removeInputs ((db.removeSpentKey k).removeSpentKey i.kImage) vin = _
      rw [hc]
      exact ih (db.removeSpentKey i.kImage)
    | gen _ => exact ih db
    | script _ => exact ih db
    | scripthash _ => exact ih db

/-- What `addInputs` leaves, and that `removeInputs` takes it back. -/
theorem removeInputs_addInputs {vin : List TxinV} {minerTx : Bool}
    (h : addInputs db vin = .ok (minerTx, db')) :
    minerTx = vin.any isGen ∧ db' = { db with spentKeys := db'.spentKeys } ∧
      ∀ e : Lmdb, e.spentKeys = db'.spentKeys →
        removeInputs e vin = { e with spentKeys := db.spentKeys } := by
  induction vin generalizing db minerTx with
  | nil =>
    cases h
    exact ⟨rfl, rfl, fun e he => by rw [← he]; rfl⟩
  | cons i vin ih =>
    cases i with
    | key i =>
      obtain ⟨db1, h1, h2⟩ := bind_eq_ok.mp h
      obtain ⟨hput, hdb1⟩ := addSpentKey_ok h1
      obtain ⟨hm, hdb', hinv⟩ := ih h2
      refine ⟨by simpa [isGen] using hm, ?_, fun e he => ?_⟩
      · rw [hdb', hdb1]
      · show removeInputs (e.removeSpentKey i.kImage) vin = _
        rw [removeInputs_removeSpentKey, hinv e he]
        show { e with spentKeys := db1.spentKeys.erase i.kImage } = _
        rw [erase_putNew hput]
    | gen _ =>
      obtain ⟨⟨m, db1⟩, h1, h2⟩ := bind_eq_ok.mp h
      cases h2
      obtain ⟨-, hdb', hinv⟩ := ih h1
      exact ⟨rfl, hdb', hinv⟩
    | script _ => cases h
    | scripthash _ => cases h

/-! ## Outputs -/

variable {txHash : Hash} {o : TxOut} {i : Nat} {c : Option Key}

theorem addOutput_ok {index : Nat} {unlock : UInt64}
    (h : db.addOutput txHash o i unlock c = .ok (index, db')) :
    ∃ ok : OutKey, ok.outputId = db.numOutputs ∧ ok.height = db.height ∧
      (o.amount = 0 → c ≠ none) ∧
      Table.append db.outputTxs db.numOutputs ⟨txHash, i⟩ = some db'.outputTxs ∧
      Table.appendDup db.outputAmounts o.amount index ok = some db'.outputAmounts ∧
      db' = { db with outputTxs := db'.outputTxs, outputAmounts := db'.outputAmounts } := by
  unfold Lmdb.addOutput at h
  split at h
  · cases h
  split at h
  · cases h
  rename_i hc
  obtain ⟨outputTxs, h1, h⟩ := bind_eq_ok.mp h
  obtain ⟨outputAmounts, h2, h⟩ := bind_eq_ok.mp h
  cases h
  exact ⟨_, rfl, rfl, fun ha hn => hc ⟨ha, hn⟩, (append_eq_ok h1).2, orThrow_eq_ok.mp h2, rfl⟩

variable {e : Lmdb}

theorem removeOutput_addOutput {index : Nat}
    {unlock : UInt64} (h : db.addOutput txHash o i unlock c = .ok (index, db'))
    (ht : e.outputTxs = db'.outputTxs) (ha : e.outputAmounts = db'.outputAmounts) :
    e.removeOutput o.amount index =
      .ok { e with outputTxs := db.outputTxs, outputAmounts := db.outputAmounts } := by
  obtain ⟨ok, hid, -, -, happ, hdup, -⟩ := addOutput_ok h
  obtain ⟨-, hins⟩ := appendDup_eq_some hdup
  have h1 : e.outputAmounts[(o.amount, index)]? = some ok := by
    rw [ha, hins, ExtTreeMap.getElem?_insert_self]
  have h2 : e.outputTxs[ok.outputId]? = some ⟨txHash, i⟩ := by
    rw [ht, hid, Table.getElem?_append_self happ]
  have h3 : e.outputTxs.erase ok.outputId = db.outputTxs := by
    rw [ht, hid, erase_append happ]
  have h4 : e.outputAmounts.erase (o.amount, index) = db.outputAmounts := by
    rw [ha, erase_appendDup hdup]
  unfold Lmdb.removeOutput
  rw [h1, h4]
  simp only [orThrow, bind, Except.bind]
  rw [h2, h3]

/-- The amount that an output is stored under. -/
def storedAmount (tx : Transaction) (minerTx : Bool) (o : TxOut) : UInt64 :=
  if minerTx ∧ tx.version = 2 then 0 else o.amount

variable {p : Primitives} {tx : Transaction}

theorem storedOutput_amount {minerTx : Bool} {out : TxOut}
    (h : storedOutput p tx minerTx o i = .ok (out, c)) :
    out.amount = storedAmount tx minerTx o := by
  unfold storedOutput at h
  unfold storedAmount
  split at h
  · cases h
    rw [if_pos ‹_›]
  rw [if_neg ‹_›]
  repeat' split at h
  all_goals cases h <;> rfl

/-- What `addOutputs` leaves, and that `removeOutputs` takes it back. -/
theorem removeOutputs_addOutputs {minerTx : Bool} {outs : List (TxOut × Nat)}
    {indices : List Nat} (h : addOutputs p tx minerTx txHash db outs = .ok (indices, db')) :
    indices.length = outs.length ∧
      db' = { db with outputTxs := db'.outputTxs, outputAmounts := db'.outputAmounts } ∧
      ∀ e : Lmdb, e.outputTxs = db'.outputTxs → e.outputAmounts = db'.outputAmounts →
        e.removeOutputs ((outs.map fun o => storedAmount tx minerTx o.1).zip indices) =
          .ok { e with outputTxs := db.outputTxs, outputAmounts := db.outputAmounts } := by
  induction outs generalizing db indices with
  | nil =>
    cases h
    exact ⟨rfl, rfl, fun e ht ha => by rw [← ht, ← ha]; rfl⟩
  | cons oi outs ih =>
    obtain ⟨⟨out, c⟩, hout, h⟩ := bind_eq_ok.mp h
    obtain ⟨⟨index, db1⟩, hadd, h⟩ := bind_eq_ok.mp h
    obtain ⟨⟨rest, db2⟩, hrest, h⟩ := bind_eq_ok.mp h
    cases h
    obtain ⟨-, -, -, -, -, -, hdb1⟩ := addOutput_ok hadd
    obtain ⟨hlen, hdb', hinv⟩ := ih hrest
    refine ⟨by simp [hlen], by rw [hdb', hdb1], fun e ht ha => ?_⟩
    have hback := removeOutput_addOutput hadd
      (e := { e with outputTxs := db1.outputTxs, outputAmounts := db1.outputAmounts }) rfl rfl
    rw [storedOutput_amount hout] at hback
    simp only [map_cons, zip_cons_cons, removeOutputs, hinv e ht ha]
    exact hback

/-! ## Transactions -/

/-- What `addTransactionData` finds and writes: the blob is cut at `n`. -/
structure DataAdded (db : Lmdb) (tx : Transaction) (blob : Bytes) (txHash prunableHash : Hash)
    (n : Nat) (txsPruned txsPrunable : ExtTreeMap Nat Bytes)
    (txsPrunableHash : ExtTreeMap Nat Hash) : Prop where
  split : splitSize tx = .ok n
  le_blob : n ≤ blob.length
  prunable_le : blob.length - n ≤ maxDataSize
  new : txHash ∉ db.txIndices
  pruned : Table.append db.txsPruned db.getTxCount (blob.take n) = some txsPruned
  prunable : Table.append db.txsPrunable db.getTxCount (blob.drop n) = some txsPrunable
  hash : putPrunableHash db tx db.getTxCount prunableHash = .ok txsPrunableHash

variable {blob : Bytes}

theorem addTransactionData_ok {prunableHash : Hash} {txId : Nat}
    (h : db.addTransactionData tx blob txHash prunableHash = .ok (txId, db')) :
    txId = db.getTxCount ∧ ∃ n txsPruned txsPrunable txsPrunableHash,
      DataAdded db tx blob txHash prunableHash n txsPruned txsPrunable txsPrunableHash ∧
      db' = { db with
        txIndices := db.txIndices.insert txHash ⟨db.getTxCount, tx.unlockTime, db.height⟩
        txsPruned, txsPrunable, txsPrunableTip := putTip db db.getTxCount, txsPrunableHash } := by
  unfold Lmdb.addTransactionData at h
  split at h
  · cases h
  rename_i hnew
  obtain ⟨n, hn, h⟩ := bind_eq_ok.mp h
  split at h
  · cases h
  obtain ⟨t1, h1, h⟩ := bind_eq_ok.mp h
  obtain ⟨t2, h2, h⟩ := bind_eq_ok.mp h
  obtain ⟨t3, h3, h⟩ := bind_eq_ok.mp h
  cases h
  obtain ⟨hs2, h2⟩ := append_eq_ok h2
  refine ⟨rfl, n, _, _, _, ⟨hn, by omega, hs2, ?_, (append_eq_ok h1).2, h2, h3⟩, rfl⟩
  simpa using hnew

/-- Every id in `txs_prunable_tip` is the id of a stored transaction. -/
def TipStored (db : Lmdb) : Prop := ∀ k ∈ db.txsPrunableTip, k.1 ∈ db.txsPruned

theorem eraseTip_of_not_mem {t : ExtTreeMap (Nat × Nat) Unit dupCmp}
    (h : ∀ k ∈ t, k.1 ≠ i) : eraseTip t i = t := by
  unfold eraseTip
  split
  · rfl
  rename_i k hk
  have hm := mem_of_find?_eq_some hk
  have he := find?_some hk
  exact absurd (by simpa using he) (h k (by simpa using hm))

theorem eraseTip_insert {t : ExtTreeMap (Nat × Nat) Unit dupCmp} (height : Nat)
    (h : ∀ k ∈ t, k.1 ≠ i) : eraseTip (t.insert (i, height) ()) i = t := by
  unfold eraseTip
  split
  · rename_i hn
    have := find?_eq_none.mp hn (i, height) (by simp)
    simp at this
  rename_i k hk
  have hm : k ∈ t.insert (i, height) () := by simpa using mem_of_find?_eq_some hk
  have he : k.1 = i := by simpa using find?_some hk
  rcases ExtTreeMap.mem_insert.mp hm with hc | hm
  · rw [← LawfulEqCmp.eq_of_compare hc]
    exact erase_insert fun hm => h _ hm rfl
  · exact absurd he (h k hm)

theorem eraseTip_putTip (htip : TipStored db) (hi : i ∉ db.txsPruned) :
    eraseTip (putTip db i) i = db.txsPrunableTip := by
  have hnew : ∀ k ∈ db.txsPrunableTip, k.1 ≠ i := fun k hk he => hi (he ▸ htip k hk)
  unfold putTip
  split
  · exact eraseTip_of_not_mem hnew
  · exact eraseTip_insert db.height hnew

/-- A version 2 transaction with a `txin_gen` has no other input. -/
def SoleGen (tx : Transaction) : Prop :=
  tx.version = 2 → tx.vin.any isGen → isCoinbase tx.toTransactionPrefix

/-- The base of a transaction is found again in the first bytes of its blob, wherever the database
can split it. -/
def BaseReadable (p : Primitives) (tx : Transaction) (blob : Bytes) : Prop :=
  ∀ n, splitSize tx = .ok n → n ≤ blob.length → blob.length - n ≤ maxDataSize →
    ∃ tb, parseAndValidateTxBaseFromBlob p.scalarmultKey (blob.take n) = some tb ∧
      tb.toTransactionPrefix = tx.toTransactionPrefix

variable {tb : Transaction}

theorem removedAmounts_eq (hp : tb.toTransactionPrefix = tx.toTransactionPrefix)
    (hv : tb.version ≤ currentTransactionVersion) (hgen : SoleGen tx) :
    removedAmounts tb = tx.vout.map (storedAmount tx (tx.vin.any isGen)) := by
  rw [hp] at hv
  have hiff : (tx.version ≥ 2 ∧ isCoinbase tx.toTransactionPrefix = true) ↔
      (tx.vin.any isGen = true ∧ tx.version = 2) := by
    constructor
    · rintro ⟨h2, hc⟩
      refine ⟨?_, UInt64.le_antisymm hv h2⟩
      unfold isCoinbase at hc
      split at hc
      · rename_i hin
        rw [hin]
        rfl
      · cases hc
    · rintro ⟨hany, h2⟩
      exact ⟨by rw [h2]; exact UInt64.le_refl 2, hgen h2 hany⟩
  unfold removedAmounts
  rw [hp]
  refine map_congr_left fun o _ => ?_
  unfold storedAmount
  by_cases h : tx.version ≥ 2 ∧ isCoinbase tx.toTransactionPrefix = true
  · rw [if_pos h, if_pos (hiff.mp h)]
  · rw [if_neg h, if_neg fun h' => h (hiff.mpr h')]

/-- The four stages of `addTransaction`, each as an update of the tables it writes. -/
theorem addTransaction_ok (h : addTransaction p db tx blob txHash = .ok db') :
    ∃ prunableHash spentKeys n txsPruned txsPrunable txsPrunableHash d indices outputTxs
        outputAmounts txOutputs,
      addInputs db tx.vin = .ok (tx.vin.any isGen, { db with spentKeys }) ∧
      DataAdded db tx blob txHash prunableHash n txsPruned txsPrunable txsPrunableHash ∧
      d = { db with
        spentKeys
        txIndices := db.txIndices.insert txHash ⟨db.getTxCount, tx.unlockTime, db.height⟩
        txsPruned, txsPrunable, txsPrunableTip := putTip db db.getTxCount, txsPrunableHash } ∧
      addOutputs p tx (tx.vin.any isGen) txHash d tx.vout.zipIdx =
        .ok (indices, { d with outputTxs, outputAmounts }) ∧
      Table.append db.txOutputs db.getTxCount indices = some txOutputs ∧
      db' = { d with outputTxs, outputAmounts, txOutputs } := by
  obtain ⟨prunableHash, -, h⟩ := bind_eq_ok.mp h
  obtain ⟨⟨minerTx, d1⟩, h1, h⟩ := bind_eq_ok.mp h
  obtain ⟨⟨txId, d⟩, h2, h⟩ := bind_eq_ok.mp h
  obtain ⟨⟨indices, d3⟩, h3, h⟩ := bind_eq_ok.mp h
  obtain ⟨t, h4, h⟩ := bind_eq_ok.mp h
  cases h
  obtain ⟨rfl, hd1, -⟩ := removeInputs_addInputs h1
  obtain ⟨-, hd3, -⟩ := removeOutputs_addOutputs h3
  rw [hd1] at h1 h2
  obtain ⟨rfl, n, _, _, _, hdata, rfl⟩ := addTransactionData_ok h2
  rw [hd3] at h3 h4 ⊢
  exact ⟨prunableHash, _, n, _, _, _, _, indices, _, _, _, h1, { hdata with }, rfl, h3,
    (append_eq_ok h4).2, rfl⟩

/-- What the tables hold for a transaction right after it was added. -/
theorem lookups_addTransaction (h : addTransaction p db tx blob txHash = .ok db') :
    ∃ n, splitSize tx = .ok n ∧ n ≤ blob.length ∧ blob.length - n ≤ maxDataSize ∧
      db'.txIndices[txHash]? = some ⟨db.getTxCount, tx.unlockTime, db.height⟩ ∧
      db'.txsPruned[db.getTxCount]? = some (blob.take n) ∧
      db'.txsPrunable[db.getTxCount]? = some (blob.drop n) := by
  obtain ⟨_, _, n, _, _, _, _, _, _, _, _, -, hdata, rfl, -, -, rfl⟩ := addTransaction_ok h
  exact ⟨n, hdata.split, hdata.le_blob, hdata.prunable_le, ExtTreeMap.getElem?_insert_self,
    Table.getElem?_append_self hdata.pruned, Table.getElem?_append_self hdata.prunable⟩

theorem erasePrunableHash_putPrunableHash {h : Hash} {t : ExtTreeMap Nat Hash}
    (hp : tb.toTransactionPrefix = tx.toTransactionPrefix)
    (hput : putPrunableHash db tx i h = .ok t) (he : e.txsPrunableHash = t) :
    erasePrunableHash e tb i = .ok db.txsPrunableHash := by
  unfold putPrunableHash at hput
  unfold erasePrunableHash
  rw [hp, he]
  split at hput
  · rename_i hv
    obtain ⟨-, happ⟩ := append_eq_ok hput
    rw [if_pos hv, Table.getElem?_append_self happ, erase_append happ]
    rfl
  · rename_i hv
    rw [if_neg hv, Except.ok.inj hput]

variable {d d' : Lmdb}

/-- `removeTxOutputs` takes back the outputs of a transaction that `addOutputs` stored. -/
theorem removeTxOutputs_addOutputs {indices : List Nat} {txId : Nat}
    (h : addOutputs p tx (tx.vin.any isGen) txHash d tx.vout.zipIdx = .ok (indices, d'))
    (hp : tb.toTransactionPrefix = tx.toTransactionPrefix)
    (hv : tb.version ≤ currentTransactionVersion) (hgen : SoleGen tx)
    (hi : e.txOutputs[txId]? = some indices) (ht : e.outputTxs = d'.outputTxs)
    (ha : e.outputAmounts = d'.outputAmounts) :
    e.removeTxOutputs txId tb =
      .ok { e with outputTxs := d.outputTxs, outputAmounts := d.outputAmounts } := by
  obtain ⟨hlen, -, hback⟩ := removeOutputs_addOutputs h
  rw [length_zipIdx] at hlen
  have hvout : tb.vout = tx.vout := by rw [hp]
  have hmap : tx.vout.zipIdx.map (fun o => storedAmount tx (tx.vin.any isGen) o.1) =
      tx.vout.map (storedAmount tx (tx.vin.any isGen)) := by
    conv_rhs => rw [← zipIdx_map_fst 0 tx.vout, map_map]
    rfl
  unfold Lmdb.removeTxOutputs
  rw [hi]
  simp only [orThrow, bind, Except.bind, hvout]
  rw [if_neg, if_neg (by omega), removedAmounts_eq hp hv hgen, ← hmap]
  · exact hback e ht ha
  · rintro ⟨rfl, hne⟩
    exact hne (length_eq_zero_iff.mp hlen.symm)

/-- **Removing the transaction that was just added gives the database back.** -/
theorem removeTransaction_addTransaction (h : addTransaction p db tx blob txHash = .ok db')
    (htip : TipStored db) (hbase : BaseReadable p tx blob) (hgen : SoleGen tx) :
    removeTransaction p db' txHash = .ok db := by
  obtain ⟨n, hn, hle, hmax, hindex, hpruned, -⟩ := lookups_addTransaction h
  obtain ⟨tb, hparse, hp⟩ := hbase n hn hle hmax
  have hget : getPrunedTx p db' txHash = .ok (some tb) := by
    simp only [getPrunedTx, getPrunedTxBlob, hindex, hpruned, Option.bind_eq_bind, Option.bind_some,
      hparse, orThrow, Except.map]
  obtain ⟨_, _, _, _, _, _, _, _, _, _, _, h1, hdata, rfl, h3, hout, hdb'⟩ := addTransaction_ok h
  refine bind_eq_ok.mpr ⟨_, hget, bind_eq_ok.mpr ⟨_, rfl, ?_⟩⟩
  rw [hp, (removeInputs_addInputs h1).2.2 db' (by rw [hdb'])]
  subst hdb'
  refine bind_eq_ok.mpr ⟨_, orThrow_eq_ok.mpr hindex, bind_eq_ok.mpr
    ⟨_, orThrow_eq_ok.mpr hpruned, bind_eq_ok.mpr
    ⟨_, erasePrunableHash_putPrunableHash hp hdata.hash rfl, bind_eq_ok.mpr
    ⟨_, removeTxOutputs_addOutputs h3 hp (version_le_of_parseBase hparse) hgen
      (Table.getElem?_append_self hout) rfl rfl, ?_⟩⟩⟩⟩
  simp only [erase_insert hdata.new, erase_append hdata.pruned, erase_append hdata.prunable,
    eraseTip_putTip htip (not_mem_of_append hdata.pruned), erase_append hout]

/-- The invariant of `txs_prunable_tip` holds after a transaction. -/
theorem TipStored.addTransaction (htip : TipStored db)
    (h : addTransaction p db tx blob txHash = .ok db') : TipStored db' := by
  obtain ⟨_, _, n, _, _, _, _, _, _, _, _, -, hdata, rfl, -, -, rfl⟩ := addTransaction_ok h
  intro k hk
  rw [(Table.append_eq_some.mp hdata.pruned).2, ExtTreeMap.mem_insert]
  unfold putTip at hk
  split at hk
  · exact .inr (htip k hk)
  rcases ExtTreeMap.mem_insert.mp hk with hc | hk
  · rw [← LawfulEqCmp.eq_of_compare hc]
    exact .inl (by simp [Lmdb.getTxCount])
  · exact .inr (htip k hk)

theorem TipStored.addTransactions {l : List (Hash × Transaction × Bytes)} (htip : TipStored db)
    (h : addTransactions p db l = .ok db') : TipStored db' := by
  induction l generalizing db with
  | nil =>
    cases h
    exact htip
  | cons x l ih =>
    obtain ⟨d, h1, h2⟩ := bind_eq_ok.mp h
    exact ih (htip.addTransaction h1) h2

/-! ## Lists of transactions -/

/-- Equal up to the cached hashes and the cached size of the blob. -/
def SameTx (tx tx' : Transaction) : Prop := tx.invalidateHashes = tx'.invalidateHashes

/-- A transaction is what its blob parses to, and the parser has recorded its unprunable size. -/
def FromBlob (p : Primitives) (tx : Transaction) (blob : Bytes) : Prop :=
  tx.unprunableSize ≠ 0 ∧ ∃ tx', parseAndValidateTxFromBlob p.scalarmultKey blob = some tx' ∧
    SameTx tx tx'

variable {tx' : Transaction}

theorem SameTx.unprunableSize_eq (h : SameTx tx tx') : tx.unprunableSize = tx'.unprunableSize :=
  (congrArg Transaction.unprunableSize h :)

/-- A size that is cut to 32 bits, and leaves a rest that LMDB takes, was not cut. -/
theorem eq_of_mod_of_le {n m len : Nat} (hn : n = m % 2 ^ 32) (hm : m ≤ len)
    (hmax : len - n ≤ maxDataSize) : n = m := by
  unfold maxDataSize at hmax
  omega

theorem FromBlob.baseReadable (h : FromBlob p tx blob) : BaseReadable p tx blob := by
  obtain ⟨hne, tx', hparse, hsame⟩ := h
  intro n hn hle hmax
  obtain ⟨m, hm, hsize, tb, htb, hp⟩ :=
    parseBase_of_parse hparse (hsame.unprunableSize_eq ▸ hne)
  unfold splitSize at hn
  rw [if_pos hne] at hn
  have hmod : n = m % 2 ^ 32 := by
    rw [← Except.ok.inj hn, hsame.unprunableSize_eq, hsize, UInt32.toNat_ofNat']
  rw [eq_of_mod_of_le hmod hm hmax]
  exact ⟨tb, htb, hp.trans (congrArg Transaction.toTransactionPrefix hsame :).symm⟩

theorem poppedTx_addTransaction (h : addTransaction p db tx blob txHash = .ok db')
    (hparse : parseAndValidateTxFromBlob p.scalarmultKey blob = some tx') :
    poppedTx p db' txHash = .ok tx' := by
  obtain ⟨n, -, -, -, hindex, hpruned, hprunable⟩ := lookups_addTransaction h
  have hblob : db'.getTxBlob txHash = some blob := by
    simp only [getTxBlob, hindex, hpruned, hprunable, Option.bind_eq_bind, Option.bind_some,
      take_append_drop]
  have hget : getTx p db' txHash = .ok (some tx') := by
    simp only [getTx, hblob, hparse, orThrow, Except.map]
  exact bind_eq_ok.mpr ⟨_, hget, rfl⟩

theorem popTransactions_append {l l' : List Hash} {txs txs' : List Transaction}
    (h : popTransactions p db l = .ok (txs, d)) (h' : popTransactions p d l' = .ok (txs', d')) :
    popTransactions p db (l ++ l') = .ok (txs ++ txs', d') := by
  induction l generalizing db txs with
  | nil =>
    cases h
    exact h'
  | cons a l ih =>
    obtain ⟨tx, h1, h⟩ := bind_eq_ok.mp h
    obtain ⟨d1, h2, h⟩ := bind_eq_ok.mp h
    obtain ⟨⟨rest, d2⟩, h3, h⟩ := bind_eq_ok.mp h
    cases h
    exact bind_eq_ok.mpr ⟨tx, h1, bind_eq_ok.mpr ⟨d1, h2, bind_eq_ok.mpr ⟨_, ih h3, rfl⟩⟩⟩

/-- **The transactions of a block come back in the opposite order**, and what is left is the
database before them. -/
theorem popTransactions_addTransactions {l : List (Hash × Transaction × Bytes)}
    (htip : TipStored db) (h : addTransactions p db l = .ok db')
    (hall : ∀ x ∈ l, FromBlob p x.2.1 x.2.2 ∧ SoleGen x.2.1) :
    ∃ txs, popTransactions p db' (l.map Prod.fst).reverse = .ok (txs, db) ∧
      List.Forall₂ SameTx (l.map fun x => x.2.1).reverse txs := by
  induction l generalizing db with
  | nil =>
    cases h
    exact ⟨[], rfl, .nil⟩
  | cons x l ih =>
    obtain ⟨txHash, tx, blob⟩ := x
    obtain ⟨d, h1, h2⟩ := bind_eq_ok.mp h
    obtain ⟨hfrom, hgen⟩ := hall _ mem_cons_self
    obtain ⟨-, tx', hparse, hsame⟩ := id hfrom
    obtain ⟨txs, hpop, hsames⟩ := ih (htip.addTransaction h1) h2
      fun y hy => hall y (mem_cons_of_mem _ hy)
    have hlast : popTransactions p d [txHash] = .ok ([tx'], db) :=
      bind_eq_ok.mpr ⟨tx', poppedTx_addTransaction h1 hparse, bind_eq_ok.mpr
        ⟨db, removeTransaction_addTransaction h1 htip hfrom.baseReadable hgen, rfl⟩⟩
    refine ⟨txs ++ [tx'], ?_, ?_⟩
    · rw [map_cons, reverse_cons]
      exact popTransactions_append hpop hlast
    · rw [map_cons, reverse_cons]
      exact rel_append hsames (.cons hsame .nil)

/-! ## The coinbase transaction -/

theorem recordSizes_recordSizes (tx : Transaction) :
    tx.recordSizes.recordSizes = tx.recordSizes := by
  show { tx with prefixSize := _, unprunableSize := _ } =
    ({ tx with prefixSize := _, unprunableSize := _ } : Transaction)
  congr 1
  all_goals
    split
    · exact (if_pos ‹_›).symm
    · rfl

theorem calculateTransactionHash_recordSizes (cnFastHash : Bytes → Hash) (tx : Transaction) :
    calculateTransactionHash cnFastHash tx.recordSizes =
      calculateTransactionHash cnFastHash tx := by
  unfold calculateTransactionHash txToBlob
  simp only [recordSizes_recordSizes]
  rfl

/-- The base of a coinbase transaction is found again in what `tx_to_blob` writes for it. -/
theorem baseReadable_coinbase (p : Primitives)
    (hp : tx.pruned = false) (hw : (txToBlob tx).1 = (blob, true))
    (hc : isCoinbase tx.toTransactionPrefix) : BaseReadable p tx.recordSizes blob := by
  have hw' : (transaction false).write tx = (blob, true) := by
    rw [← hp]
    exact hw
  obtain ⟨base, hbase, hparse, ⟨rest, hblob⟩, hsize⟩ := base_of_written p.scalarmultKey hw'
  have hin : tx.vin ≠ [] := by
    rintro hv
    simp [isCoinbase, hv] at hc
  have hexp : expandTransaction1 p.scalarmultKey tx.wireBase true = some tx.wireBase :=
    if_pos (.inr hc)
  rw [hexp, Option.map_some] at hparse
  intro n hn hle hmax
  have hmod : n = base.length % 2 ^ 32 := by
    have hrec : tx.recordSizes.unprunableSize = UInt32.ofNat base.length := hsize (.inr hin)
    have hbase' : serializeBase.write tx.recordSizes = (base, true) := hbase
    unfold splitSize at hn
    split at hn
    · rw [← Except.ok.inj hn, hrec, UInt32.toNat_ofNat']
    rw [hbase'] at hn
    exact (Except.ok.inj hn).symm
  have hlen : base.length ≤ blob.length := by
    rw [← hblob, length_append]
    omega
  rw [eq_of_mod_of_le hmod hlen hmax, ← hblob, take_left]
  exact ⟨_, hparse, rfl⟩

/-! ## The block -/

/-- Equal up to cached hashes. -/
structure SameBlock (b b' : Block) : Prop where
  header : b.toBlockHeader = b'.toBlockHeader
  minerTx : SameTx b.minerTx b'.minerTx
  txHashes : b.txHashes = b'.txHashes

/-- A block that is written without failure and read back as it was, with a cached hash of the
coinbase transaction that is right. -/
structure ReadsBack (p : Primitives) (b b' : Block) : Prop where
  written : (blockToBlob b).2 = true
  parsed : parseAndValidateBlockFromBlob (blockToBlob b).1 = some b'
  same : SameBlock b b'
  hash : ∀ h, b.minerTx.hash = some h → calculateTransactionHash p.cnFastHash b.minerTx = some h

variable {b b' : Block}

theorem ReadsBack.minerTx_unpruned (h : ReadsBack p b b') :
    b'.minerTx.pruned = false ∧ b'.minerTx.hash = none := by
  obtain ⟨b0, hread, rfl⟩ := parseAndValidateBlockFromBlob_eq_some h.parsed
  have hp : b0.minerTx.pruned = false := block_read_pruned hread
  exact ⟨hp, rfl⟩

theorem ReadsBack.minerTx_written (h : ReadsBack p b b') :
    b.minerTx.pruned = false ∧ ∃ blob, (txToBlob b.minerTx).1 = (blob, true) := by
  have hp : b.minerTx.pruned = false :=
    (congrArg Transaction.pruned h.same.minerTx :).trans h.minerTx_unpruned.1
  obtain ⟨_, _, -, hrest, -⟩ :=
    Written.andThen_ok.mp (Prod.ext rfl h.written : blockToBlob b = (_, true))
  obtain ⟨blob, _, hblob, -, -⟩ := Written.andThen_ok.mp hrest
  exact ⟨hp, blob, hblob⟩

/-- The hash that `popBlock` works out for the coinbase transaction is the one it was stored
under. -/
theorem ReadsBack.txHashOf_eq (h : ReadsBack p b b') :
    txHashOf p b'.minerTx = txHashOf p b.minerTx.recordSizes := by
  have hcalc : calculateTransactionHash p.cnFastHash b.minerTx =
      calculateTransactionHash p.cnFastHash b'.minerTx :=
    (congrArg (calculateTransactionHash p.cnFastHash) h.same.minerTx :)
  have hnew : getTransactionHash p.cnFastHash b'.minerTx =
      calculateTransactionHash p.cnFastHash b'.minerTx := by
    simp only [getTransactionHash, h.minerTx_unpruned.2]
  have hold : getTransactionHash p.cnFastHash b.minerTx.recordSizes =
      calculateTransactionHash p.cnFastHash b.minerTx := by
    unfold getTransactionHash
    rw [calculateTransactionHash_recordSizes]
    split
    · rename_i hh
      exact (h.hash _ hh).symm
    · rfl
  unfold txHashOf
  rw [hnew, hold, hcalc]

variable {blk : Block}

section AddBlock

variable {w lw coins : UInt64} {cd rct : Nat} {hash : Hash}

/-- What `BlockchainLMDB::add_block` stores. -/
theorem lmdbAddBlock_ok (h : d.addBlock blk w lw cd coins rct hash = .ok d') :
    hash ∉ d.blockHeights ∧ ∃ prev bi blocks blockInfo, d.prevCumRct blk.majorVersion = .ok prev ∧
      bi.cumRct = rct + prev ∧ bi.hash = hash ∧
      Table.append d.blocks d.height (blockToBlob blk).1 = some blocks ∧
      Table.append d.blockInfo d.height bi = some blockInfo ∧
      d' = { d with
        blocks, blockInfo, blockHeights := d.blockHeights.insert hash d.height } := by
  unfold Lmdb.addBlock at h
  split at h
  · cases h
  rename_i hnew
  obtain ⟨-, -, h⟩ := bind_eq_ok.mp h
  obtain ⟨blocks, h1, h⟩ := bind_eq_ok.mp h
  obtain ⟨prev, hprev, h⟩ := bind_eq_ok.mp h
  obtain ⟨blockInfo, h2, h⟩ := bind_eq_ok.mp h
  cases h
  rw [ExtTreeMap.contains_iff_mem] at hnew
  exact ⟨hnew, prev, _, _, _, hprev, rfl, rfl, (append_eq_ok h1).2, (append_eq_ok h2).2, rfl⟩

theorem removeBlock_addBlock (h : d.addBlock blk w lw cd coins rct hash = .ok d') :
    d'.height = d.height + 1 ∧ d'.blocks[d.height]? = some (blockToBlob blk).1 ∧
      d'.removeBlock = .ok d := by
  obtain ⟨hnew, _, _, blocks, _, -, -, rfl, h1, h2, rfl⟩ := lmdbAddBlock_ok h
  have hheight : blocks.size = d.blocks.size + 1 := by
    rw [(Table.append_eq_some.mp h1).2, ExtTreeMap.size_insert, if_neg]
    exact not_mem_of_append h1
  refine ⟨hheight, Table.getElem?_append_self h1, ?_⟩
  have hne : blocks.size ≠ 0 := by omega
  have hpred : blocks.size - 1 = d.height := by
    show _ = d.blocks.size
    omega
  unfold Lmdb.removeBlock
  simp only [Lmdb.height, hne, if_false]
  simp only [hpred, Table.getElem?_append_self h2, Table.getElem?_append_self h1,
    ExtTreeMap.getElem?_insert_self, orThrow, bind, Except.bind, erase_append h1,
    erase_append h2, erase_insert hnew]

/-- The stages of `addBlock`. -/
theorem addBlock_ok {m : BlockMeta} {txs : List (Transaction × Bytes)} {height : Nat}
    (h : addBlock p db blk m txs = .ok (height, db')) :
    blk.txHashes.length = txs.length ∧ ∃ minerHash d1 d2,
      txHashOf p blk.minerTx.recordSizes = .ok minerHash ∧
      addTransaction p db blk.minerTx.recordSizes (txToBlob blk.minerTx).1.1 minerHash = .ok d1 ∧
      addTransactions p d1 (blk.txHashes.zip txs) = .ok d2 ∧
      d2.addBlock blk m.blockWeight m.longTermBlockWeight m.cumulativeDifficulty m.coinsGenerated
        (numRctOuts blk txs) (p.getBlockHash blk) = .ok db' := by
  unfold addBlock at h
  split at h
  · cases h
  rename_i hlen
  obtain ⟨minerHash, h1, h⟩ := bind_eq_ok.mp h
  obtain ⟨d1, h2, h⟩ := bind_eq_ok.mp h
  obtain ⟨d2, h3, h⟩ := bind_eq_ok.mp h
  obtain ⟨d3, h4, h⟩ := bind_eq_ok.mp h
  cases h
  exact ⟨not_not.mp hlen, minerHash, d1, d2, h1, h2, h3, h4⟩

theorem TipStored.lmdbAddBlock (htip : TipStored d)
    (h : d.addBlock blk w lw cd coins rct hash = .ok d') : TipStored d' := by
  obtain ⟨-, _, _, _, _, -, -, -, -, -, rfl⟩ := lmdbAddBlock_ok h
  exact htip

end AddBlock

/-- A database that `addBlock` built, with or without a pruning seed. -/
inductive Built (p : Primitives) : Lmdb → Prop
  | empty (pruningSeed : Option UInt32) : Built p { pruningSeed }
  | add {db db' : Lmdb} {blk : Block} {m : BlockMeta} {txs : List (Transaction × Bytes)}
      {height : Nat} : Built p db → addBlock p db blk m txs = .ok (height, db') → Built p db'

theorem Built.tipStored (h : Built p db) : TipStored db := by
  induction h with
  | empty seed =>
    intro k hk
    simp at hk
  | add _ hadd ih =>
    obtain ⟨-, _, d1, d2, -, h1, h2, h3⟩ := addBlock_ok hadd
    exact ((ih.addTransaction h1).addTransactions h2).lmdbAddBlock h3

/-- **Popping a block that was just added gives back the block, its transactions in the opposite
order, and every table as it was.** The block and its transactions are what their blobs parse to,
and a `txin_gen` is the only input of the coinbase transaction and of any other version 2
transaction that has one. -/
theorem popBlock_addBlock {p : Primitives} {db db' : Lmdb} {blk blk' : Block} {m : BlockMeta}
    {txs : List (Transaction × Bytes)} {height : Nat} (hdb : Built p db)
    (hadd : addBlock p db blk m txs = .ok (height, db')) (hblk : ReadsBack p blk blk')
    (hcoin : isCoinbase blk.minerTx.toTransactionPrefix)
    (htxs : ∀ t ∈ txs, FromBlob p t.1 t.2 ∧ SoleGen t.1) :
    SameBlock blk blk' ∧ ∃ txs', popBlock p db' = .ok ((blk', txs'), db) ∧
      List.Forall₂ SameTx (txs.map Prod.fst).reverse txs' := by
  obtain ⟨hlen, minerHash, d1, d2, hhash, h1, h2, h3⟩ := addBlock_ok hadd
  obtain ⟨hheight, hblob, hremove⟩ := removeBlock_addBlock h3
  obtain ⟨hunpruned, minerBlob, hwritten⟩ := hblk.minerTx_written
  rw [hwritten] at h1
  have hminer := removeTransaction_addTransaction h1 hdb.tipStored
    (baseReadable_coinbase p hunpruned hwritten hcoin) fun _ _ => hcoin
  have hall : ∀ x ∈ blk.txHashes.zip txs, FromBlob p x.2.1 x.2.2 ∧ SoleGen x.2.1 :=
    fun x hx => htxs x.2 (of_mem_zip hx).2
  obtain ⟨txs', hpop, hsame⟩ := popTransactions_addTransactions (hdb.tipStored.addTransaction h1)
    h2 hall
  have hfst : (blk.txHashes.zip txs).map Prod.fst = blk'.txHashes := by
    rw [map_fst_zip (Nat.le_of_eq hlen), hblk.same.txHashes]
  have hsnd : (blk.txHashes.zip txs).map (fun x => x.2.1) = txs.map Prod.fst := by
    show (blk.txHashes.zip txs).map (Prod.fst ∘ Prod.snd) = _
    rw [← map_map, map_snd_zip (Nat.le_of_eq hlen.symm)]
  rw [hfst] at hpop
  rw [hsnd] at hsame
  have hpred : db'.height - 1 = d2.height := by omega
  have htop : db'.getBlockFromHeight (db'.height - 1) = .ok blk' := by
    rw [hpred]
    exact bind_eq_ok.mpr ⟨_, orThrow_eq_ok.mpr hblob, orThrow_eq_ok.mpr hblk.parsed⟩
  refine ⟨hblk.same, txs', ?_, hsame⟩
  unfold popBlock
  rw [if_neg (by omega)]
  exact bind_eq_ok.mpr ⟨_, htop, bind_eq_ok.mpr ⟨_, hremove, bind_eq_ok.mpr ⟨_, hpop,
    bind_eq_ok.mpr ⟨_, hblk.txHashOf_eq.trans hhash, bind_eq_ok.mpr ⟨_, hminer, rfl⟩⟩⟩⟩⟩

/-! ## Samples -/

/-- Concrete functions, for examples. -/
def samplePrimitives : Primitives :=
  { cnFastHash := sumHash
    getBlockHash := fun b => Blob.fill (UInt8.ofNat b.nonce.toNat)
    zeroCommit := fun _ => Blob.fill 1
    scalarmultKey := fun _ _ => some (Blob.fill 0) }

/-- A coinbase transaction of version 2 that pays 5. -/
def sampleCoinbase (vin : List TxinV) : Transaction :=
  Transaction.recordSizes
    { version := 2, unlockTime := 60, vin, vout := [⟨5, .key (Blob.fill 1)⟩] }

/-- A version 1 transaction with two outputs of one amount. -/
def samplePayment : Transaction :=
  Transaction.recordSizes
    { version := 1
      vin := [.key ⟨9, [1], Blob.fill 3⟩]
      vout := [⟨4, .key (Blob.fill 1)⟩, ⟨4, .key (Blob.fill 2)⟩]
      signatures := [[Blob.fill 0]] }

/-- A RingCT transaction as a pruning peer sends it: its base alone, with the hash of the prunable
data. -/
def samplePruned : Transaction :=
  { version := 2
    vin := [.key ⟨0, [1], Blob.fill 3⟩]
    vout := [⟨0, .key (Blob.fill 1)⟩]
    rctSignatures :=
      { type := .clsag
        ecdhInfo := [⟨Blob.fill 0, Blob.fill 0⟩]
        outPk := [⟨Blob.fill 1, Blob.fill 2⟩] }
    pruned := true
    prunableHash := some (Blob.fill 8) }

/-- A block over one other transaction. -/
def sampleBlk (vin : List TxinV) : Block :=
  { majorVersion := 1, minorVersion := 1, timestamp := 0, prevId := nullHash, nonce := 7
    minerTx := sampleCoinbase vin, txHashes := [Blob.fill 9] }

def sampleMeta : BlockMeta := ⟨100, 100, 1, 5⟩

/-- What is thrown when a block is added to an empty database and popped again. -/
def thrownByPop (blk : Block) (tx : Transaction × Bytes) : Option (Option DbException) :=
  match addBlock samplePrimitives {} blk sampleMeta [tx] with
  | .error _ => none
  | .ok (_, db) =>
    match popBlock samplePrimitives db with
    | .error e => some (some e)
    | .ok _ => some none

/-- A coinbase transaction with two `txin_gen`, and a pruned transaction, which `add_block` stores
with an empty prunable part: `add_block` takes either, and `pop_block` then throws. -/
theorem popBlock_throws :
    thrownByPop (sampleBlk [.gen 0, .gen 0]) (samplePayment, (txToBlob samplePayment).1.1) =
        some (some (.outputDne
          "Attempting to get an output index by amount and amount index, but amount not found")) ∧
      thrownByPop (sampleBlk [.gen 0]) (samplePruned, (txToBlob samplePruned).1.1) =
        some (some (.dbError "Failed to parse transaction from blob retrieved from the db")) := by
  decide +kernel

/-- A block with a version 2 coinbase transaction and a payment comes back. -/
theorem popBlock_addBlock_sample :
    ∃ db' txs', addBlock samplePrimitives {} (sampleBlk [.gen 0]) sampleMeta
        [(samplePayment, (txToBlob samplePayment).1.1)] = .ok (0, db') ∧
      popBlock samplePrimitives db' = .ok ((sampleBlk [.gen 0], txs'), {}) ∧
      List.Forall₂ SameTx [samplePayment] txs' := by
  have hsome : (addBlock samplePrimitives {} (sampleBlk [.gen 0]) sampleMeta
      [(samplePayment, (txToBlob samplePayment).1.1)]).toOption.map Prod.fst = some 0 := by
    decide +kernel
  obtain ⟨⟨height, db'⟩, hadd, rfl⟩ := Option.map_eq_some_iff.mp hsome
  rw [toOption_eq_some] at hadd
  have hblk : ReadsBack samplePrimitives (sampleBlk [.gen 0]) (sampleBlk [.gen 0]) :=
    ⟨by decide, by decide, ⟨rfl, rfl, rfl⟩, fun _ h => by cases h⟩
  have htx : FromBlob samplePrimitives samplePayment (txToBlob samplePayment).1.1 := by
    have h : (parseAndValidateTxFromBlob samplePrimitives.scalarmultKey
        (txToBlob samplePayment).1.1).map Transaction.invalidateHashes =
        some samplePayment.invalidateHashes := by decide +kernel
    obtain ⟨tx', hparse, hsame⟩ := Option.map_eq_some_iff.mp h
    exact ⟨by decide, tx', hparse, hsame.symm⟩
  obtain ⟨-, txs', hpop, hsame⟩ := popBlock_addBlock (.empty none) hadd hblk rfl
    (by simpa using ⟨htx, fun h => by cases h⟩)
  exact ⟨db', txs', hadd, hpop, hsame⟩

end BlockchainDb

end Hashmonkey.Db
