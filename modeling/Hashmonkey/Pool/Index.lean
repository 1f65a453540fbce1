import Hashmonkey.Pool.Operations

/-!
# The index of the pool (`cryptonote_core/tx_pool.h`)

What the pool keeps in memory is an index of its tables: it could be computed from them, and `init`
does so. `IndexOk` says that the index matches: `m_spent_key_images` has for each key image that
some transaction spends the ids of the transactions that do, and no other key; `m_txpool_weight` is
the sum of the weights; the sorted container has the ids of the tables, each once.

This is the specification of the pool. `Pool/Steps` and `Pool/Runs` say after which runs it holds.
-/

open Hashmonkey.Core

namespace Hashmonkey.Pool

open Basic Db Lib Std

/-! ## The index -/

/-- The stored transaction spends a key image. -/
def PoolEntry.spends (e : PoolEntry) (k : KeyImage) : Bool :=
  match parsePrefix e.blob with
  | none => false
  | some tx => k ∈ keyImages tx.vin

/-- The transactions that spend a key image. -/
def spenders (txpool : PoolTable) (k : KeyImage) : Finset Hash :=
  (txpool.keys.filter fun id => txpool[id]?.any (·.spends k)).toFinset

/-- The sum of the stored weights. -/
def totalWeight (txpool : PoolTable) : Nat := Table.total (fun e => e.txMeta.weight) txpool

/-- **The index matches the tables.** -/
structure IndexOk (p : TxMemoryPool) : Prop where
  images : ∀ k : KeyImage, p.spentKeyImages[k]? =
    if spenders p.txpool k = ∅ then none else some (spenders p.txpool k)
  weight : p.txpoolWeight = totalWeight p.txpool
  sorted : (p.lists.sorted.map SortedTx.txid).Perm p.txpool.keys

theorem mem_spenders {txpool : PoolTable} {k : KeyImage} {id : Hash} :
    id ∈ spenders txpool k ↔ ∃ e, txpool[id]? = some e ∧ e.spends k := by
  rw [spenders, List.mem_toFinset, List.mem_filter, ExtTreeMap.mem_keys, Option.any_eq_true]
  exact ⟨fun h => h.2, fun h => ⟨Table.mem_of_getElem? h.choose_spec.1, h⟩⟩

/-! ## Lists -/

namespace TransientLists

theorem trackRemovedTx_sorted (l : TransientLists) (txid : Hash) (sensitive : Bool) (now : Nat) :
    (l.trackRemovedTx txid sensitive now).sorted = l.sorted := by
  unfold trackRemovedTx
  dsimp only
  split
  · rfl
  · split <;> rfl

@[simp] theorem removeTx_sorted (l : TransientLists) (txid : Hash) (sensitive : Bool) (now : Nat) :
    (l.removeTx txid sensitive now).sorted = eraseSorted l.sorted txid :=
  trackRemovedTx_sorted _ _ _ _

theorem length_eraseSorted_lt {l : List SortedTx} {txid : Hash}
    (h : txid ∈ l.map SortedTx.txid) : (eraseSorted l txid).length < l.length := by
  obtain ⟨e, he, rfl⟩ := List.mem_map.mp h
  have hpos : 0 < l.length := List.length_pos_of_mem he
  rw [eraseSorted, List.length_eraseP_of_mem he (decide_eq_true rfl)]
  omega

end TransientLists

end Hashmonkey.Pool
