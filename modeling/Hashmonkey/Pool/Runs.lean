import Hashmonkey.Pool.OperationSteps

/-!
# Runs of the pool (`tx_pool.cpp`)

* `init` on tables whose transactions can be read builds the index (`init_consistent`), and it comes
  to its end if no two transactions that are not kept by block spend the same key image (`init_ok`);
* `PoolOp` has the operations, with that of starting again; every one keeps the index invariant
  (`PoolOp.exec_consistent`), and so does a run (`runOps_consistent`).

Result: `poolSound_iff`. **After any run from a start, the index matches the tables, at most one
transaction for a key image is not kept by block, and a new start rebuilds the same index, if and
only if no weight was counted twice.** `weight_counted_twice` is a run that counts one twice: the
transaction was in the pool as a stem transaction and comes again from a block while its inputs are
spent. `add_txpool_tx` overwrites the entry, and `add_tx` adds the weight as for a new one.
A restart repairs it (`restart_repairs`).
-/

open Hashmonkey.Core

namespace Hashmonkey.Pool

open Basic Db Lib Std List

namespace TxMemoryPool

variable {P : PoolParams} {b : BlockchainAccess} {cat : Catalog} {surplus : Nat}
  {p p' : TxMemoryPool} {id : Hash} {e : PoolEntry}

/-! ## Start -/

variable {txpool : PoolTable} {vin : List TxinV}

/-- If `insert_key_images` got to the end for a transaction that no block has, no set was in its
way. -/
theorem sets_of_insertKeyImages {relay : RelayMethod}
    {images images' : KeyImagesContainer} (hrelay : relay ≠ .block) (hnodup : (keyImages vin).Nodup)
    (h : insertKeyImages txpool id relay vin images = (images', true)) {k : KeyImage}
    (hk : k ∈ keyImages vin) : images.getD k ∅ = ∅ ∨ images.getD k ∅ = {id} := by
  induction vin generalizing images with
  | nil => cases hk
  | cons x vin ih =>
    cases x with
    | key i =>
      rw [keyImages_key, nodup_cons] at hnodup
      unfold insertKeyImages at h
      dsimp only at h
      split at h
      · cases h
      rename_i hset
      split at h
      · cases h
      rw [keyImages_key, mem_cons] at hk
      by_cases heq : k = i.kImage
      · rw [heq]
        by_contra hbad
        exact hset ⟨hrelay, hbad⟩
      · have hrest := ih hnodup.2 h (hk.resolve_left heq)
        rwa [Table.getD_insert, if_neg (Ne.symm heq)] at hrest
    | _ => cases h

/-- A turn of `init` that comes to an end puts the transaction to those already indexed, `txpool`.
-/
theorem indexEntry_consistent (hp : Consistent P cat surplus { p with txpool }) (hid : id ∉ txpool)
    (he : EntryOk P cat id e) (hvin : vin = cat.vin id)
    (h : p.withKeyImages id e.txMeta.getRelayMethod vin (indexEntry P id e) = (p', true)) :
    p'.txpool = p.txpool ∧
      Consistent P cat surplus { p' with txpool := txpool.insert id e } := by
  subst hvin
  have hnot : ∀ k, id ∉ p.spentKeyImages.getD k ∅ := fun k hk => hid ((hp.images k id).mp hk).1
  unfold withKeyImages at h
  split at h
  · rename_i images himages
    cases h
    -- the sets of a transaction that is not kept by block were empty
    have hempty : e.txMeta.getRelayMethod ≠ .block → ∀ k ∈ keyImages (cat.vin id),
        p.spentKeyImages.getD k ∅ = ∅ := by
      intro hrelay k hk
      refine (sets_of_insertKeyImages hrelay he.inputs.nodup himages hk).resolve_right
        fun hself => ?_
      exact hnot k (hself ▸ Finset.mem_singleton_self id)
    obtain ⟨images', heq, hget, hne⟩ := insertKeyImages_ok he.inputs.keys he.inputs.nodup
      fun k hk => ⟨fun hrelay => .inl (hempty hrelay k hk), fun hc => hnot k hc.1⟩
    cases himages.symm.trans heq
    have hputs : Puts P cat { p with txpool } id e 0
        { indexEntry P id e { p with spentKeyImages := images } with
          txpool := txpool.insert id e } := by
      refine ⟨⟨he, ?_, ?_⟩, rfl, hget, hne, ?_, ?_, fun _ _ h => .inl h⟩
      · intro e0 he0
        exact absurd (Table.mem_of_getElem? he0) hid
      · intro hno id' e' k he' _ hk hk'
        have hrelay : e.txMeta.getRelayMethod ≠ .block := fun hb => by
          rw [he.relay.keptByBlock, hb] at hno
          cases hno
        have hmem := (hp.images k id').mpr ⟨Table.mem_of_getElem? he', hk'⟩
        dsimp only at hmem
        rw [hempty hrelay k hk] at hmem
        exact absurd hmem (Finset.notMem_empty _)
      · rw [if_neg hid, ← he.weight]
        rfl
      · exact ⟨_, _, p.reads, le_rfl, Nat.lt_succ_self _, rfl⟩
    exact ⟨rfl, hputs.consistent hp⟩
  · cases h

/-- A turn of `init` comes to an end for a transaction kept by block, or one that shares no key
image with those already indexed. -/
theorem indexEntry_ok (hp : Consistent P cat surplus { p with txpool }) (hid : id ∉ txpool)
    (he : EntryOk P cat id e) (hvin : vin = cat.vin id)
    (hfree : e.txMeta.keptByBlock ∨ ∀ id' ∈ txpool, ∀ k ∈ keyImages (cat.vin id),
      k ∉ keyImages (cat.vin id')) :
    ∃ p', p.withKeyImages id e.txMeta.getRelayMethod vin (indexEntry P id e) = (p', true) := by
  subst hvin
  have hset : p.SetsFree id e.txMeta.getRelayMethod (cat.vin id) := by
    intro k hk
    refine ⟨fun hrelay => .inl ?_, fun hc => hid ((hp.images k id).mp hc.1).1⟩
    rcases hfree with hkept | hfree
    · rw [he.relay.keptByBlock] at hkept
      exact absurd (of_decide_eq_true hkept) hrelay
    refine Finset.eq_empty_of_forall_notMem fun id' hid' => ?_
    obtain ⟨hmem, hk'⟩ := (hp.images k id').mp hid'
    exact hfree id' hmem k hk hk'
  obtain ⟨images, heq, -, -⟩ := insertKeyImages_ok he.inputs.keys he.inputs.nodup hset
  exact ⟨_, by rw [withKeyImages, heq]⟩

/-- Entries with different ids; those that a pass takes are not indexed yet. -/
structure Unindexed (P : PoolParams) (cat : Catalog) (kept : Bool) (txpool : PoolTable)
    (entries : List (Hash × PoolEntry)) : Prop where
  ok : ∀ x ∈ entries, EntryOk P cat x.1 x.2
  fresh : ∀ x ∈ entries, x.2.txMeta.keptByBlock = kept → x.1 ∉ txpool
  nodup : (entries.map Prod.fst).Nodup

variable {kept : Bool} {entries : List (Hash × PoolEntry)} {x : Hash × PoolEntry}

theorem Unindexed.tail (h : Unindexed P cat kept txpool (x :: entries)) :
    Unindexed P cat kept txpool entries :=
  ⟨fun y hy => h.ok y (mem_cons_of_mem x hy), fun y hy => h.fresh y (mem_cons_of_mem x hy),
    (nodup_cons.mp h.nodup).2⟩

theorem Unindexed.insert (h : Unindexed P cat kept txpool ((id, e) :: entries)) :
    Unindexed P cat kept (txpool.insert id e) entries := by
  refine ⟨h.tail.ok, fun x hx hk hmem => ?_, h.tail.nodup⟩
  rw [ExtTreeMap.mem_insert, LawfulEqCmp.compare_eq_iff_eq] at hmem
  rcases hmem with heq | hmem
  · exact (nodup_cons.mp h.nodup).1 (mem_map.mpr ⟨x, hx, heq.symm⟩)
  · exact h.tail.fresh x hx hk hmem

/-- **A pass of `init`** that comes to an end adds its transactions to those already indexed. -/
theorem initPass_consistent (txpool : PoolTable) {remove remove' : List Hash}
    (hp : Consistent P cat surplus { p with txpool })
    (hentries : Unindexed P cat kept txpool entries)
    (h : initPass P kept entries p remove = (p', remove', true)) :
    remove' = remove ∧ p'.txpool = p.txpool ∧ ∃ txpool' : PoolTable,
      Consistent P cat surplus { p' with txpool := txpool' } ∧
      ∀ (id : Hash) (e : PoolEntry), txpool'[id]? = some e ↔ txpool[id]? = some e ∨
        (id, e) ∈ entries ∧ e.txMeta.keptByBlock = kept := by
  induction entries generalizing p txpool with
  | nil =>
    cases h
    exact ⟨rfl, rfl, txpool, hp, fun id e => by simp⟩
  | cons x entries ih =>
    obtain ⟨txid, e⟩ := x
    unfold initPass at h
    split at h
    · rename_i hkept
      obtain ⟨hrem, htable, txpool', hcons, hget⟩ := ih txpool hp hentries.tail h
      refine ⟨hrem, htable, txpool', hcons, fun id' e' => ?_⟩
      rw [hget, mem_cons, Prod.mk.injEq]
      grind
    · rename_i hkept
      have he : EntryOk P cat txid e := hentries.ok (txid, e) mem_cons_self
      obtain ⟨tx, htx, hvin⟩ := he.readable.head
      have hid : txid ∉ txpool := hentries.fresh _ mem_cons_self (not_not.mp hkept).symm
      rw [htx] at h
      dsimp only at h
      split at h
      · cases h
      rename_i p1 hone
      obtain ⟨htable1, hp1⟩ := indexEntry_consistent hp hid he hvin hone
      obtain ⟨hrem, htable, txpool', hcons, hget⟩ := ih _ hp1 hentries.insert h
      refine ⟨hrem, htable.trans htable1, txpool', hcons, fun id' e' => ?_⟩
      have hnew : txpool[id']? = some e' → txid ≠ id' :=
        fun hfound heq => hid (heq ▸ Table.mem_of_getElem? hfound)
      rw [hget, Table.getElem?_insert, mem_cons, Prod.mk.injEq]
      grind

/-- No two transactions that are not kept by block spend the same key image. -/
def SingleSpends (cat : Catalog) (txpool : PoolTable) : Prop :=
  ∀ (id id' : Hash) (e e' : PoolEntry) (k : KeyImage), txpool[id]? = some e →
    txpool[id']? = some e' → e.txMeta.keptByBlock = false → e'.txMeta.keptByBlock = false →
    k ∈ keyImages (cat.vin id) → k ∈ keyImages (cat.vin id') → id = id'

/-- **A pass of `init` comes to an end** over the transactions of a table `db` with single spends.
In the first pass no transaction kept by block is indexed yet. -/
theorem initPass_ok (kept : Bool) (txpool db : PoolTable) (remove : List Hash)
    (hp : Consistent P cat surplus { p with txpool })
    (hentries : Unindexed P cat kept txpool entries) (hsingle : SingleSpends cat db)
    (hdb : ∀ x ∈ entries, db[x.1]? = some x.2)
    (htxpool : kept = false → ∀ (id : Hash) (e : PoolEntry), txpool[id]? = some e →
      db[id]? = some e ∧ e.txMeta.keptByBlock = false) :
    ∃ p', initPass P kept entries p remove = (p', remove, true) := by
  induction entries generalizing p txpool with
  | nil => exact ⟨p, rfl⟩
  | cons x entries ih =>
    obtain ⟨txid, e⟩ := x
    obtain ⟨hhere, hdb'⟩ := forall_mem_cons.mp hdb
    unfold initPass
    split
    · exact ih txpool hp hentries.tail hdb' htxpool
    rename_i hkept
    have hkept : kept = e.txMeta.keptByBlock := not_not.mp hkept
    have he : EntryOk P cat txid e := hentries.ok (txid, e) mem_cons_self
    obtain ⟨tx, htx, hvin⟩ := he.readable.head
    have hid : txid ∉ txpool := hentries.fresh _ mem_cons_self hkept.symm
    have hfree : e.txMeta.keptByBlock ∨ ∀ id' ∈ txpool, ∀ k ∈ keyImages (cat.vin txid),
        k ∉ keyImages (cat.vin id') := by
      cases hk : e.txMeta.keptByBlock with
      | true => exact .inl rfl
      | false =>
        refine .inr fun id' hid' k hk1 hk2 => ?_
        obtain ⟨e', he'⟩ := Table.exists_getElem? hid'
        obtain ⟨hin, hno'⟩ := htxpool (hkept.trans hk) id' e' he'
        have heq := hsingle txid id' e e' k hhere hin hk hno' hk1 hk2
        exact hid (heq ▸ hid')
    obtain ⟨p1, hone⟩ := indexEntry_ok hp hid he hvin hfree
    obtain ⟨-, hp1⟩ := indexEntry_consistent hp hid he hvin hone
    rw [htx]
    dsimp only
    rw [hone]
    refine ih _ hp1 hentries.insert hdb' fun hno id' e' he' => ?_
    obtain ⟨rfl, rfl⟩ | ⟨-, he'⟩ := Table.getElem?_insert_eq_some.mp he'
    · exact ⟨hhere, hkept.symm.trans hno⟩
    · exact htxpool hno id' e' he'

/-- The index of no transaction. -/
theorem cleared_consistent (hcache : p.parsedTxCache = ∅) (maxWeight : Nat) :
    Consistent P cat 0 { p.cleared maxWeight with txpool := ∅ } where
  entries id e h := by simp at h
  images k id := by simp [cleared]
  noEmpty k := by simp [cleared]
  weight := by simp [cleared, totalWeight, Table.total_eq_keys]
  sorted := by simp [cleared]
  single id id' e e' k h := by simp at h
  cache id tx h := by simp [cleared, hcache] at h

/-- In the second pass no transaction that is kept by block is indexed yet. -/
theorem not_mem_of_firstPass {txpool' : PoolTable} (hget : ∀ (id : Hash) (e : PoolEntry),
    txpool'[id]? = some e ↔ p.txpool[id]? = some e ∧ e.txMeta.keptByBlock = false)
    (hx : x ∈ p.txpool.toList) (hkept : x.2.txMeta.keptByBlock = true) :
    x.1 ∉ txpool' := by
  intro hmem
  obtain ⟨e, he⟩ := Table.exists_getElem? hmem
  obtain ⟨hfound, hno⟩ := (hget x.1 e).mp he
  cases hfound.symm.trans (mem_toList.mp hx)
  rw [hkept] at hno
  cases hno

section

variable (hcache : p.parsedTxCache = ∅)
  (hdb : ∀ (id : Hash) (e : PoolEntry), p.txpool[id]? = some e → EntryOk P cat id e)

include hdb

theorem unindexed_toList
    (hfresh : ∀ x ∈ p.txpool.toList, x.2.txMeta.keptByBlock = kept → x.1 ∉ txpool) :
    Unindexed P cat kept txpool p.txpool.toList :=
  ⟨fun x hx => hdb x.1 x.2 (mem_toList.mp hx), hfresh, nodup_toList⟩

include hcache

theorem firstPass_consistent {maxWeight : Nat} {remove : List Hash}
    (h : initPass P false p.txpool.toList (p.cleared maxWeight) [] = (p', remove, true)) :
    remove = [] ∧ p'.txpool = p.txpool ∧ ∃ txpool' : PoolTable,
      Consistent P cat 0 { p' with txpool := txpool' } ∧
      ∀ (id : Hash) (e : PoolEntry), txpool'[id]? = some e ↔
        p.txpool[id]? = some e ∧ e.txMeta.keptByBlock = false := by
  obtain ⟨hrem, htable, txpool', hcons, hget⟩ := initPass_consistent ∅
    (cleared_consistent hcache _) (unindexed_toList hdb (by simp)) h
  refine ⟨hrem, htable, txpool', hcons, fun id e => ?_⟩
  rw [hget, mem_toList]
  simp

/-- **`init` builds the index.** -/
theorem init_consistent {maxWeight : Nat} {mine : Bool} (h : p.init P maxWeight mine = (p', true)) :
    p'.txpool = p.txpool ∧ Consistent P cat 0 p' := by
  unfold init at h
  split at h
  · cases h
  rename_i p1 remove1 hfirst
  obtain ⟨rfl, htable1, txpool1, hp1, hget1⟩ := firstPass_consistent hcache hdb hfirst
  rw [htable1] at h
  split at h
  · cases h
  rename_i p2 remove2 hsecond
  obtain ⟨rfl, htable2, txpool2, hp2, hget2⟩ := initPass_consistent txpool1 hp1
    (unindexed_toList hdb fun x hx => not_mem_of_firstPass hget1 hx) hsecond
  cases h
  -- all transactions are indexed
  have hall : txpool2 = p.txpool := by
    refine ExtTreeMap.ext_getElem? fun id => Option.ext fun e => ?_
    rw [hget2, hget1, mem_toList]
    cases e.txMeta.keptByBlock <;> simp
  have htable : p2.txpool = p.txpool := htable2.trans htable1
  rw [hall, ← htable] at hp2
  exact ⟨htable, hp2.entries, hp2.images, hp2.noEmpty, hp2.weight, hp2.sorted, hp2.single,
    hp2.cache⟩

theorem init_ok (hsingle : SingleSpends cat p.txpool) (maxWeight : Nat) (mine : Bool) :
    ∃ p', p.init P maxWeight mine = (p', true) := by
  have hin : ∀ x ∈ p.txpool.toList, p.txpool[x.1]? = some x.2 := fun x hx => mem_toList.mp hx
  obtain ⟨p1, hfirst⟩ := initPass_ok false ∅ p.txpool [] (cleared_consistent hcache maxWeight)
    (unindexed_toList hdb (by simp)) hsingle hin (by simp)
  obtain ⟨-, htable1, txpool1, hp1, hget1⟩ := firstPass_consistent hcache hdb hfirst
  obtain ⟨p2, hsecond⟩ := initPass_ok true txpool1 p.txpool [] hp1
    (unindexed_toList hdb fun x hx => not_mem_of_firstPass hget1 hx) hsingle hin (by simp)
  refine ⟨{ p2 with mineStemTxes := mine }, ?_⟩
  unfold init
  rw [hfirst]
  dsimp only
  rw [htable1, hsecond]
  rfl

end

/-! ## Runs -/

/-- A new pool object on the same tables. -/
def restarted (p : TxMemoryPool) : TxMemoryPool :=
  { txpool := p.txpool, reads := p.reads, checks := p.checks }

end TxMemoryPool

/-- An operation of the pool. -/
inductive PoolOp
  | addTx (t : TxMemoryPool.NewTx)
  | takeTx (id : Hash)
  | prune (bytes : Nat)
  | removeStuckTransactions
  | setRelayed (hashes : List Hash) (method : RelayMethod)
  | validate (version : UInt8)
  | onBlockchainChange
  /-- the program is started again -/
  | restart (maxTxpoolWeight : Nat) (mineStemTxes : Bool)

namespace PoolOp

open TxMemoryPool

/-- The pool after an operation. -/
def exec (P : PoolParams) (b : BlockchainAccess) (p : TxMemoryPool) : PoolOp → TxMemoryPool
  | .addTx t => (p.addTx P b t).1
  | .takeTx id => (p.takeTx P id).1
  | .prune bytes => p.pruned P bytes
  | .removeStuckTransactions => p.removeStuckTransactions P
  | .setRelayed hashes method => p.setRelayed P hashes method
  | .validate version => p.validate P b version
  | .onBlockchainChange => p.onBlockchainChange
  | .restart maxTxpoolWeight mineStemTxes => (p.restarted.init P maxTxpoolWeight mineStemTxes).1

/-- What callers promise about an operation. -/
def Promised (P : PoolParams) (cat : Catalog) : PoolOp → Prop
  | .addTx t => t.Promised P cat
  | .validate version => version ≠ 0
  | _ => True

/-- The weight counted twice so far: a restart counts anew. -/
def recount (P : PoolParams) (b : BlockchainAccess) (p : TxMemoryPool) (n : Nat) : PoolOp → Nat
  | .addTx t => n + p.recounted P b t
  | .restart _ _ => 0
  | _ => n

variable {P : PoolParams} {b : BlockchainAccess} {cat : Catalog} {n : Nat} {p : TxMemoryPool}

theorem restart_ok (hp : Consistent P cat n p) (maxWeight : Nat) (mine : Bool) :
    ∃ q, p.restarted.init P maxWeight mine = (q, true) ∧ q.txpool = p.txpool ∧
      q.spentKeyImages = p.spentKeyImages ∧ Consistent P cat 0 q := by
  obtain ⟨q, hq⟩ := init_ok (p := p.restarted) rfl hp.entries hp.single maxWeight mine
  obtain ⟨htable, hcons⟩ := init_consistent (p := p.restarted) rfl hp.entries hq
  have htable : q.txpool = p.txpool := htable
  refine ⟨q, hq, htable, hcons.noEmpty.ext hp.noEmpty fun k => ?_, hcons⟩
  rw [← hcons.spenders_eq, ← hp.spenders_eq, htable]

/-- **An operation keeps the index invariant.** -/
theorem exec_consistent {op : PoolOp} (hp : Consistent P cat n p) (hop : op.Promised P cat) :
    Consistent P cat (op.recount P b p n) (op.exec P b p) := by
  cases op with
  | addTx t => exact (addTx_steps hp hop).consistent hp
  | takeTx id => exact (takeTx_steps hp id).consistent hp
  | prune bytes => exact (pruned_steps hp bytes).consistent hp
  | removeStuckTransactions => exact (removeStuckTransactions_steps hp).consistent hp
  | setRelayed hashes method => exact (setRelayed_steps hp hashes method).consistent hp
  | validate version => exact (validate_steps hop hp).consistent hp
  | onBlockchainChange => exact (onBlockchainChange_steps p).consistent hp
  | restart maxWeight mine =>
    obtain ⟨q, hq, -, -, hcons⟩ := restart_ok hp maxWeight mine
    change Consistent P cat 0 (p.restarted.init P maxWeight mine).1
    rw [hq]
    exact hcons

end PoolOp

/-- Operations one after the other, each with the blockchain as it is then. -/
def runOps (P : PoolParams) : List (BlockchainAccess × PoolOp) → TxMemoryPool → TxMemoryPool
  | [], p => p
  | (b, op) :: ops, p => runOps P ops (op.exec P b p)

/-- The weight counted twice since the last start, `n` before the operations. -/
def recountOps (P : PoolParams) : List (BlockchainAccess × PoolOp) → TxMemoryPool → Nat → Nat
  | [], _, n => n
  | (b, op) :: ops, p, n => recountOps P ops (op.exec P b p) (op.recount P b p n)

/-- **A run keeps the index invariant.** -/
theorem runOps_consistent {P : PoolParams} {cat : Catalog} {n : Nat} {p : TxMemoryPool}
    {ops : List (BlockchainAccess × PoolOp)} (hp : Consistent P cat n p)
    (hops : ∀ x ∈ ops, x.2.Promised P cat) :
    Consistent P cat (recountOps P ops p n) (runOps P ops p) := by
  induction ops generalizing p n with
  | nil => exact hp
  | cons x ops ih =>
    exact ih (PoolOp.exec_consistent hp (hops x mem_cons_self))
      fun y hy => hops y (mem_cons_of_mem x hy)

/-- The index matches the tables, no two transactions that are not kept by block spend the same key
image, and a new start on the tables builds the same index. -/
structure PoolSound (P : PoolParams) (p : TxMemoryPool) : Prop where
  index : IndexOk p
  single : ∀ (id id' : Hash) (e e' : PoolEntry) (k : KeyImage), p.txpool[id]? = some e →
    p.txpool[id']? = some e' → e.txMeta.keptByBlock = false → e'.txMeta.keptByBlock = false →
    e.spends k → e'.spends k → id = id'
  restart : ∀ (maxWeight : Nat) (mine : Bool), ∃ q, p.restarted.init P maxWeight mine = (q, true) ∧
    q.txpool = p.txpool ∧ q.spentKeyImages = p.spentKeyImages ∧ q.txpoolWeight = p.txpoolWeight

theorem Consistent.sound {P : PoolParams} {cat : Catalog} {p : TxMemoryPool}
    (hp : Consistent P cat 0 p) : PoolSound P p where
  index := hp.indexOk_iff.mpr rfl
  single id id' e e' k he he' hno hno' hk hk' :=
    hp.single id id' e e' k he he' hno hno' (((hp.entries id e he).spends k).mp hk)
      (((hp.entries id' e' he').spends k).mp hk')
  restart maxWeight mine := by
    obtain ⟨q, hq, htable, himages, hcons⟩ := PoolOp.restart_ok hp maxWeight mine
    exact ⟨q, hq, htable, himages, by rw [hcons.weight, hp.weight, htable]⟩

/-- **Runs of the pool.** From a start on tables whose transactions can be read, after any
operations, everything is as it should be if and only if no weight was counted twice since the last
start. -/
theorem poolSound_iff (P : PoolParams) (cat : Catalog) {db : PoolTable} {maxWeight : Nat}
    {mine : Bool} {p : TxMemoryPool} {ops : List (BlockchainAccess × PoolOp)}
    (hdb : ∀ (id : Hash) (e : PoolEntry), db[id]? = some e → EntryOk P cat id e)
    (hinit : TxMemoryPool.init P { txpool := db } maxWeight mine = (p, true))
    (hops : ∀ x ∈ ops, x.2.Promised P cat) :
    PoolSound P (runOps P ops p) ↔ recountOps P ops p 0 = 0 := by
  have hp : Consistent P cat 0 p := (TxMemoryPool.init_consistent rfl hdb hinit).2
  have hrun := runOps_consistent hp hops
  constructor
  · intro hsound
    exact hrun.indexOk_iff.mp hsound.index
  · intro h0
    rw [h0] at hrun
    exact hrun.sound

def samplePoolParams : PoolParams where
  clock n := 1000 + n
  feePerByte _ _ := 0
  randomSeconds _ := 0
  nic := sampleNicCrypto

/-- A transaction with one input, of the first version. -/
def samplePoolTx (image : UInt8) : Transaction := { vin := [.key ⟨5, [1], Blob.fill image⟩] }

/-- Its blob, with one signature. -/
def samplePoolBlob (image : UInt8) : Bytes :=
  [1, 0, 1, 2, 5, 1, 1] ++ List.replicate 32 image ++ [0, 0] ++ List.replicate 64 0

def sampleCatalog : Catalog where
  vin id := (samplePoolTx (id.1.headD 0)).vin
  weight _ := 100
  pruned _ := false

/-- Its arrival, by a relay method. -/
def sampleNewTx (image : UInt8) (txRelay : RelayMethod) : TxMemoryPool.NewTx where
  tx := samplePoolTx image
  id := Blob.fill image
  blob := samplePoolBlob image
  weight := 100
  txRelay
  version := 1

/-- A blockchain that finds the inputs of all transactions right, or wrong. -/
def sampleAccess (passed : Bool) : BlockchainAccess where
  checkFee _ _ := true
  checkTxInputs _ _ _ := ⟨passed, nullHash, 0, nullHash⟩
  topBlockHeight := 1
  topBlockHash := nullHash

/-- A transaction arrives in secret. When its inputs are spent by a block it arrives once more, with
a block of another chain. -/
def sampleOps : List (BlockchainAccess × PoolOp) :=
  [(sampleAccess true, .addTx (sampleNewTx 7 .stem)),
   (sampleAccess false, .addTx (sampleNewTx 7 .block))]

theorem sample_readable {image : UInt8} (h : image ∈ [7, 8, 9]) :
    Readable samplePoolParams (samplePoolBlob image) false (samplePoolTx image).vin := by
  have hhead : ∀ i ∈ ([7, 8, 9] : List UInt8),
      (parsePrefix (samplePoolBlob i)).map TransactionPrefix.vin = some (samplePoolTx i).vin := by
    decide +kernel
  have hfull : ∀ i ∈ ([7, 8, 9] : List UInt8),
      (parseAndValidateTxFromBlob samplePoolParams.nic.scalarmultKey (samplePoolBlob i)).map
        (fun tx => (tx.vin, tx.pruned)) = some ((samplePoolTx i).vin, false) := by
    decide +kernel
  replace hhead := hhead image h
  replace hfull := hfull image h
  obtain ⟨pre, hpre, hvin⟩ := Option.map_eq_some_iff.mp hhead
  obtain ⟨tx, htx, hpair⟩ := Option.map_eq_some_iff.mp hfull
  exact ⟨⟨pre, hpre, hvin⟩, ⟨tx, htx, congrArg Prod.fst hpair, congrArg Prod.snd hpair⟩⟩

theorem sample_promised {image : UInt8} (hi : image ∈ [7, 8, 9]) (relay : RelayMethod) :
    (sampleNewTx image relay).Promised samplePoolParams sampleCatalog where
  lists := ⟨rfl, rfl⟩
  weight := rfl
  readable := sample_readable hi
  verified h := by
    have h10 : (1 : UInt8) = 0 := h
    exact absurd h10 (by decide)

theorem sampleOps_promised : ∀ x ∈ sampleOps, x.2.Promised samplePoolParams sampleCatalog := by
  intro x hx
  rcases mem_cons.mp hx with rfl | hx
  · exact sample_promised (by decide) .stem
  cases mem_singleton.mp hx
  exact sample_promised (by decide) .block

/-- The weight of the one transaction is counted twice. -/
theorem weight_counted_twice :
    (∀ x ∈ sampleOps, x.2.Promised samplePoolParams sampleCatalog) ∧
    (TxMemoryPool.init samplePoolParams {} 0 false).2 = true ∧
    ¬ PoolSound samplePoolParams
      (runOps samplePoolParams sampleOps (TxMemoryPool.init samplePoolParams {} 0 false).1) := by
  refine ⟨sampleOps_promised, by decide, fun hsound => ?_⟩
  have hweight := hsound.index.weight
  have htwice : (runOps samplePoolParams sampleOps
      (TxMemoryPool.init samplePoolParams {} 0 false).1).txpoolWeight = 200 := by decide
  have htotal : totalWeight (runOps samplePoolParams sampleOps
      (TxMemoryPool.init samplePoolParams {} 0 false).1).txpool = 100 := by decide
  omega

theorem sample_init : TxMemoryPool.init samplePoolParams { txpool := ∅ } 0 false =
    ((TxMemoryPool.init samplePoolParams {} 0 false).1, true) := rfl

theorem sample_entries (id : Hash) (e : PoolEntry) (h : (∅ : PoolTable)[id]? = some e) :
    EntryOk samplePoolParams sampleCatalog id e := by
  simp at h

/-- The first of the two operations alone is fine. -/
theorem poolSound_sample :
    PoolSound samplePoolParams (runOps samplePoolParams (sampleOps.take 1)
      (TxMemoryPool.init samplePoolParams {} 0 false).1) :=
  (poolSound_iff samplePoolParams sampleCatalog sample_entries sample_init
    fun x hx => sampleOps_promised x (mem_of_mem_take hx)).mpr (by decide)

/-- **A restart repairs the pool.** After any operations it succeeds, keeps the transactions and the
spent key images, leaves everything as it should be, and takes exactly what was counted twice off
the weight. -/
theorem restart_repairs (P : PoolParams) (cat : Catalog) {db : PoolTable} {maxWeight : Nat}
    {mine : Bool} {p : TxMemoryPool} {ops : List (BlockchainAccess × PoolOp)}
    (hdb : ∀ (id : Hash) (e : PoolEntry), db[id]? = some e → EntryOk P cat id e)
    (hinit : TxMemoryPool.init P { txpool := db } maxWeight mine = (p, true))
    (hops : ∀ x ∈ ops, x.2.Promised P cat) :
    ∃ q, (runOps P ops p).restarted.init P maxWeight mine = (q, true) ∧ PoolSound P q ∧
      q.txpool = (runOps P ops p).txpool ∧
      q.spentKeyImages = (runOps P ops p).spentKeyImages ∧
      q.txpoolWeight + recountOps P ops p 0 = (runOps P ops p).txpoolWeight := by
  have hrun := runOps_consistent (TxMemoryPool.init_consistent rfl hdb hinit).2 hops
  obtain ⟨q, hq, htable, himages, hcons⟩ := PoolOp.restart_ok hrun maxWeight mine
  refine ⟨q, hq, hcons.sound, htable, himages, ?_⟩
  rw [hcons.weight, hrun.weight, htable]
  rfl

/-- After the transaction whose weight is counted twice. -/
theorem restart_repairs_sample :
    ∃ q, (runOps samplePoolParams sampleOps
      (TxMemoryPool.init samplePoolParams {} 0 false).1).restarted.init samplePoolParams 0 false =
        (q, true) ∧ PoolSound samplePoolParams q :=
  (restart_repairs samplePoolParams sampleCatalog sample_entries sample_init
    sampleOps_promised).imp fun _ h => ⟨h.1, h.2.1⟩

end Hashmonkey.Pool
