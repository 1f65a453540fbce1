import Hashmonkey.Pool.Runs

/-!
# An early return of `prune` (`cryptonote_core/tx_pool.cpp`)

`prune` takes transactions out of the index and out of the tables one after the other, and commits
the tables at the end. When it leaves its loop early, at a blob that does not parse or when the
database throws, the tables go back to where they were, and the index does not.

* `prune_rolled_back`: the state that is left then;
* `pruneVictims`: the transactions that the loop removes.

Results: `prune_rollback_iff`. **After such a return the index matches the tables if and only if no
transaction had been removed yet.** `prune_rollback_lost` is a pool that loses a transaction from
its index in this way. And `prune_removes_last`, what `prune` removes when it does not return early.
-/

open Hashmonkey.Core

namespace Hashmonkey.Pool

open Basic Db Lib Std List

/-! ## An early return of `prune` -/

namespace TxMemoryPool

variable (P : PoolParams)

/-- The transactions that the loop of `prune` removes. -/
def pruneVictims (throws : Hash → Bool) (bytes : Nat) : List Hash → TxMemoryPool → List Hash
  | [], _ => []
  | txid :: txids, p =>
    match pruneTurn P throws bytes p txid with
    | .stop => []
    | .fail _ => []
    | .skip => pruneVictims throws bytes txids p
    | .remove p' => txid :: pruneVictims throws bytes txids p'

variable {P} {throws : Hash → Bool} {bytes : Nat}

@[simp] theorem removeEntry_sorted (p : TxMemoryPool) (txid : Hash) (e : PoolEntry)
    (vin : List TxinV) : (p.removeEntry P txid e vin).lists.sorted =
      TransientLists.eraseSorted p.lists.sorted txid :=
  TransientLists.removeTx_sorted _ _ _ _

variable {p : TxMemoryPool}

theorem pruneLoop_of_no_victims {txids : List Hash}
    (h : pruneVictims P throws bytes txids p = []) : (pruneLoop P throws bytes txids p).1 = p := by
  induction txids with
  | nil => rfl
  | cons txid txids ih =>
    unfold pruneVictims at h
    unfold pruneLoop
    cases hturn : pruneTurn P throws bytes p txid <;> rw [hturn] at h
    case skip => exact ih h
    case remove => cases h

theorem length_sorted_pruneLoop (txids : List Hash) (p : TxMemoryPool) :
    (pruneLoop P throws bytes txids p).1.lists.sorted.length ≤ p.lists.sorted.length := by
  refine pruneLoop_rec (I := fun q => q.lists.sorted.length ≤ p.lists.sorted.length)
    (fun q txid e vin hq => ?_) le_rfl
  rw [removeEntry_sorted]
  exact eraseP_sublist.length_le.trans hq

/-- A transaction that is removed leaves the sorted container. -/
theorem length_sorted_pruneLoop_lt {txids : List Hash}
    (hids : ∀ id ∈ txids, id ∈ p.lists.sorted.map SortedTx.txid)
    (h : pruneVictims P throws bytes txids p ≠ []) :
    (pruneLoop P throws bytes txids p).1.lists.sorted.length < p.lists.sorted.length := by
  induction txids with
  | nil => exact absurd rfl h
  | cons txid txids ih =>
    have hspec := pruneTurn_spec P throws bytes p txid
    unfold pruneVictims at h
    unfold pruneLoop
    cases hturn : pruneTurn P throws bytes p txid <;> rw [hturn] at h hspec
    case stop | fail => exact absurd rfl h
    case skip => exact ih (fun id hid => hids id (mem_cons_of_mem txid hid)) h
    case remove p' =>
      obtain ⟨e, tx, -, -, -, rfl⟩ := hspec
      refine (length_sorted_pruneLoop _ _).trans_lt ?_
      rw [removeEntry_sorted]
      exact TransientLists.length_eraseSorted_lt (hids txid mem_cons_self)

theorem mem_pruneOrder {id : Hash} (h : id ∈ p.pruneOrder) :
    id ∈ p.lists.sorted.map SortedTx.txid := by
  obtain ⟨e, he, rfl⟩ := mem_map.mp h
  exact mem_map_of_mem (mem_of_mem_tail (mem_reverse.mp he))

/-- The state that an early return leaves: the tables are those from before. -/
theorem prune_rolled_back {p p' : TxMemoryPool} {e : PruneError}
    (h : p.prune P throws true bytes = (p', some e)) :
    p' = { (pruneLoop P throws (p.pruneLimit bytes) p.pruneOrder p).1 with
      txpool := p.txpool } := by
  unfold prune at h
  split at h
  · cases h
  rename_i p1 e1 hloop
  cases h
  rw [hloop]
  rfl

theorem not_indexOk_of_victims {p p' : TxMemoryPool} {e : PruneError} (hp : IndexOk p)
    (h : p.prune P throws true bytes = (p', some e))
    (hv : pruneVictims P throws (p.pruneLimit bytes) p.pruneOrder p ≠ []) : ¬ IndexOk p' := by
  intro hp'
  have hlt := length_sorted_pruneLoop_lt (fun _ => mem_pruneOrder) hv
  have hbefore := hp.sorted.length_eq
  have hafter := hp'.sorted.length_eq
  rw [prune_rolled_back h, length_map] at hafter
  rw [length_map] at hbefore
  dsimp only at hafter
  omega

/-- **An early return of `prune`.** -/
theorem prune_rollback_iff (P : PoolParams) {throws : Hash → Bool} {bytes : Nat}
    {p p' : TxMemoryPool} {e : PruneError} (hp : IndexOk p)
    (h : p.prune P throws true bytes = (p', some e)) :
    IndexOk p' ↔ pruneVictims P throws (p.pruneLimit bytes) p.pruneOrder p = [] := by
  constructor
  · intro hp'
    by_contra hv
    exact not_indexOk_of_victims hp h hv hp'
  · intro hv
    rw [prune_rolled_back h, pruneLoop_of_no_victims hv]
    exact hp

/-! ## What is left -/

/-- The loop passes some of the ids, keeps those of them that are kept by a block, and stops early
only below the limit. -/
theorem pruneLoop_spec (ids : List Hash)
    (hparse : ∀ (id : Hash) e, p.txpool[id]? = some e → parsePrefix e.blob ≠ none) :
    ∃ q passed left, pruneLoop P (fun _ => false) bytes ids p = (q, none) ∧ ids = passed ++ left ∧
      (left = [] ∨ q.txpoolWeight ≤ bytes) ∧
      ∀ (id : Hash) e, q.txpool[id]? = some e ↔
        p.txpool[id]? = some e ∧ (id ∈ passed → e.txMeta.keptByBlock) := by
  induction ids generalizing p with
  | nil => exact ⟨p, [], [], rfl, rfl, .inl rfl, by simp⟩
  | cons txid ids ih =>
    have hspec := pruneTurn_spec P (fun _ => false) bytes p txid
    unfold pruneLoop
    cases hturn : pruneTurn P (fun _ => false) bytes p txid <;> rw [hturn] at hspec
    case stop => exact ⟨p, [], txid :: ids, rfl, rfl, .inr hspec, by simp⟩
    case fail err =>
      obtain hthrow | ⟨e, he, hnone⟩ := hspec
      · cases hthrow
      · exact absurd hnone (hparse txid e he)
    case skip =>
      obtain ⟨q, passed, left, hloop, hids, hend, htable⟩ := ih hparse
      refine ⟨q, txid :: passed, left, hloop, congrArg (txid :: ·) hids, hend, fun id e => ?_⟩
      rw [htable, mem_cons]
      refine and_congr_right fun he => ⟨?_, fun h hid => h (.inr hid)⟩
      rintro h (rfl | hid)
      · exact hspec e he
      · exact h hid
    case remove p' =>
      obtain ⟨e', tx, he', hkept, -, rfl⟩ := hspec
      have herase (id : Hash) e : (p.removeEntry P txid e' tx.vin).txpool[id]? = some e ↔
          txid ≠ id ∧ p.txpool[id]? = some e := Table.getElem?_erase_eq_some
      obtain ⟨q, passed, left, hloop, hids, hend, htable⟩ :=
        ih fun id e he => hparse id e ((herase id e).mp he).2
      refine ⟨q, txid :: passed, left, hloop, congrArg (txid :: ·) hids, hend, fun id e => ?_⟩
      rw [htable, herase, mem_cons, and_assoc]
      constructor
      · rintro ⟨hne, he, h⟩
        exact ⟨he, fun hid => h (hid.resolve_left (Ne.symm hne))⟩
      · rintro ⟨he, h⟩
        refine ⟨?_, he, fun hid => h (.inr hid)⟩
        rintro rfl
        cases he'.symm.trans he
        rw [h (.inl rfl)] at hkept
        cases hkept

/-- **What `prune` leaves and takes**: it ends at the limit or with transactions that are kept by a
block or first; what it removes was not kept and stands behind everything else that it could have
removed; and it removes nothing below the limit. -/
theorem prune_removes_last (P : PoolParams) {p : TxMemoryPool} (hp : IndexOk p)
    (hparse : ∀ (id : Hash) e, p.txpool[id]? = some e → parsePrefix e.blob ≠ none) (bytes : Nat) :
    ((p.pruned P bytes).txpoolWeight ≤ p.pruneLimit bytes ∨
      ∀ (id : Hash) e, (p.pruned P bytes).txpool[id]? = some e →
        e.txMeta.keptByBlock ∨ (p.lists.sorted.map SortedTx.txid).head? = some id) ∧
    (∀ (id : Hash) e, p.txpool[id]? = some e → id ∉ (p.pruned P bytes).txpool →
      e.txMeta.keptByBlock = false ∧ ∀ (id' : Hash) e', (p.pruned P bytes).txpool[id']? = some e' →
        e'.txMeta.keptByBlock = false → (p.lists.sorted.map SortedTx.txid).head? ≠ some id' →
        [id', id].Sublist (p.lists.sorted.map SortedTx.txid)) ∧
    (p.txpoolWeight ≤ p.pruneLimit bytes → p.pruned P bytes = p) := by
  obtain ⟨q, passed, left, hloop, hids, hend, htable⟩ :=
    @pruneLoop_spec P (p.pruneLimit bytes) p p.pruneOrder hparse
  have hq : p.pruned P bytes = q := by
    unfold pruned prune
    rw [hloop]
  -- the ids of the pool are the first one and those that `prune` looks at
  have hmem (id : Hash) e (he : p.txpool[id]? = some e) :
      (p.lists.sorted.map SortedTx.txid).head? = some id ∨ id ∈ passed ++ left := by
    have hsorted := hp.sorted.mem_iff.mpr (ExtTreeMap.mem_keys.mpr (Table.mem_of_getElem? he))
    rw [← hids, pruneOrder, map_reverse, mem_reverse]
    cases hs : p.lists.sorted with
    | nil => simp [hs] at hsorted
    | cons s l =>
      rw [hs, map_cons, mem_cons] at hsorted
      rw [map_cons, head?_cons, Option.some.injEq, tail_cons]
      exact hsorted.imp_left Eq.symm
  rw [hq]
  refine ⟨hend.symm.imp_right fun hleft id e he => ?_, fun id e he hgone => ?_, fun hle => ?_⟩
  · obtain ⟨hpe, hkept⟩ := (htable id e).mp he
    rw [hleft, append_nil] at hmem
    exact (hmem id e hpe).symm.imp_left hkept
  · have hpassed : id ∈ passed ∧ e.txMeta.keptByBlock = false := by
      by_contra h
      refine hgone (Table.mem_of_getElem? ((htable id e).mpr ⟨he, fun hid => ?_⟩))
      by_contra hk
      exact h ⟨hid, Bool.eq_false_of_not_eq_true hk⟩
    refine ⟨hpassed.2, fun id' e' he' hkept hfirst => ?_⟩
    obtain ⟨hpe', hkept'⟩ := (htable id' e').mp he'
    have hleft : id' ∈ left := by
      refine (mem_append.mp ((hmem id' e' hpe').resolve_left hfirst)).resolve_left fun h => ?_
      rw [hkept' h] at hkept
      cases hkept
    have hsub : ([id] ++ [id']).Sublist p.pruneOrder := hids ▸
      (singleton_sublist.mpr hpassed.1).append (singleton_sublist.mpr hleft)
    rw [pruneOrder, map_reverse, ← reverse_sublist, reverse_reverse, map_tail] at hsub
    exact hsub.trans (tail_sublist _)
  · have hstop : pruneLoop P (fun _ => false) (p.pruneLimit bytes) p.pruneOrder p = (p, none) := by
      cases p.pruneOrder with
      | nil => rfl
      | cons txid ids => rw [pruneLoop, pruneTurn, if_pos hle]
    rw [hloop] at hstop
    exact congrArg Prod.fst hstop

end TxMemoryPool

/-! ## Examples -/

/-- Three transactions arrive. -/
def sampleArrivals : List (BlockchainAccess × PoolOp) :=
  [7, 8, 9].map fun image => (sampleAccess true, .addTx (sampleNewTx image .fluff))

def samplePool : TxMemoryPool :=
  runOps samplePoolParams sampleArrivals (TxMemoryPool.init samplePoolParams {} 0 false).1

/-- `prune` to the weight of one transaction, when the database throws at one of them. -/
def samplePrune (image : UInt8) : TxMemoryPool × Option TxMemoryPool.PruneError :=
  samplePool.prune samplePoolParams (fun txid => txid = Blob.fill image) true 100

theorem samplePool_consistent : Consistent samplePoolParams sampleCatalog 0 samplePool := by
  have hops : ∀ x ∈ sampleArrivals, x.2.Promised samplePoolParams sampleCatalog := by
    intro x hx
    obtain ⟨image, hi, rfl⟩ := mem_map.mp hx
    exact sample_promised hi .fluff
  exact runOps_consistent (TxMemoryPool.init_consistent rfl sample_entries sample_init).2 hops

theorem samplePool_indexOk : IndexOk samplePool := samplePool_consistent.indexOk_iff.mpr rfl

/-- The last transaction is gone from the index, and it is in the tables. -/
theorem prune_rollback_lost :
    IndexOk samplePool ∧ (samplePrune 8).2 = some .database ∧ ¬ IndexOk (samplePrune 8).1 := by
  refine ⟨samplePool_indexOk, by decide, fun hlost => ?_⟩
  have hweight := hlost.weight
  have hindex : (samplePrune 8).1.txpoolWeight = 200 := by decide
  have htotal : totalWeight (samplePrune 8).1.txpool = 300 := by decide
  omega

/-- Nothing is lost if the database throws at the first transaction `prune` looks at. -/
theorem prune_rollback_sample : IndexOk (samplePrune 9).1 := by
  have hfail : (samplePrune 9).2 = some .database := by decide
  have h : samplePool.prune samplePoolParams (fun txid => txid = Blob.fill 9) true 100 =
      ((samplePrune 9).1, some .database) := Prod.ext rfl hfail
  exact (TxMemoryPool.prune_rollback_iff samplePoolParams samplePool_indexOk h).mpr
    (by decide)

/-- Three transactions of weight 100 are pruned to one of them. -/
theorem prune_removes_last_sample :
    (samplePool.pruned samplePoolParams 100).txpoolWeight ≤ samplePool.pruneLimit 100 ∨
      ∀ (id : Hash) e, (samplePool.pruned samplePoolParams 100).txpool[id]? = some e →
        e.txMeta.keptByBlock ∨ (samplePool.lists.sorted.map SortedTx.txid).head? = some id := by
  refine (TxMemoryPool.prune_removes_last samplePoolParams samplePool_indexOk ?_ 100).1
  intro id e he
  obtain ⟨tx, htx, -⟩ := (samplePool_consistent.entries id e he).readable.head
  rw [htx]
  exact Option.some_ne_none tx

/-- Two transactions whose blobs do not parse. -/
def unreadablePool : TxMemoryPool where
  txpool := ((∅ : PoolTable).insert (Blob.fill 1) ⟨{ weight := 1 }, [0x80, 0]⟩).insert (Blob.fill 2)
    ⟨{ weight := 1 }, [0x80, 0]⟩
  txpoolWeight := 2
  lists := { sorted := [⟨2, 0, Blob.fill 1⟩, ⟨1, 0, Blob.fill 2⟩] }

/-- Nothing of them is pruned, since `prune` returns at the first blob that does not parse. -/
theorem prune_unreadable : IndexOk unreadablePool ∧
    (unreadablePool.pruned samplePoolParams 1).txpoolWeight = 2 ∧
    ((unreadablePool.pruned samplePoolParams 1).txpool[(Blob.fill 2 : Hash)]?.map
      fun e => e.txMeta.keptByBlock) = some false ∧
    (unreadablePool.lists.sorted.map SortedTx.txid).head? ≠ some (Blob.fill 2) := by
  refine ⟨⟨fun k => ?_, by decide, by decide⟩, by decide, by decide, by decide⟩
  exact ExtTreeMap.getElem?_empty

end Hashmonkey.Pool
