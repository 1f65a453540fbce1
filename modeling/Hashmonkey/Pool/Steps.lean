import Hashmonkey.Pool.Index

/-!
# What a step of the pool can do (`tx_pool.cpp`)

Whatever the operations of the pool do to its tables and to what it keeps in memory is a sequence of
four kinds of steps:

* `Removes`: a transaction leaves the tables, the key images, the weight and the lists;
* `Puts`: a transaction enters them, or the entry it has is replaced and it is listed anew;
* `Updates`: meta data change, but no weight, no blob, and not who may see the transaction;
* `forget`: the times of additions and removals are thrown away.

`Consistent` is the index invariant in a form that steps keep. It is relative to a `Catalog`, which
says what the transaction with an id is: its inputs, its weight and whether it is pruned. Callers
give the same transaction under the same id. `Consistent` also has a number, by how much
`m_txpool_weight` is greater than the sum of the weights; a `Puts` can increase it.

Results: `PoolStep.consistent`, `PoolSteps.consistent`, and `Consistent.indexOk_iff`, which leads
from the invariant back to `IndexOk`.
-/

open Hashmonkey.Core

namespace Hashmonkey.Pool

open Basic Db Lib Std ExtTreeMap Table

/-! ## Relay methods -/

namespace TxpoolTxMeta

/-- The flags are those of a relay method. -/
def RelayOk (m : TxpoolTxMeta) : Prop := m.setRelayMethod m.getRelayMethod = m

@[simp] theorem getRelayMethod_setRelayMethod (m : TxpoolTxMeta) (r : RelayMethod) :
    (m.setRelayMethod r).getRelayMethod = r := by
  cases r <;> rfl

theorem relayOk_setRelayMethod (m : TxpoolTxMeta) (r : RelayMethod) :
    (m.setRelayMethod r).RelayOk := by
  unfold RelayOk
  rw [getRelayMethod_setRelayMethod]
  rfl

variable {m : TxpoolTxMeta}

theorem RelayOk.keptByBlock (h : m.RelayOk) :
    m.keptByBlock = decide (m.getRelayMethod = .block) := by
  conv_lhs => rw [← h]
  rfl

/-- Only the five flags matter. -/
theorem RelayOk.congr {m' : TxpoolTxMeta} (h : m.RelayOk) (hkept : m'.keptByBlock = m.keptByBlock)
    (hnot : m'.doNotRelay = m.doNotRelay) (hlocal : m'.isLocal = m.isLocal)
    (hforward : m'.isForwarding = m.isForwarding) (hstem : m'.dandelionppStem = m.dandelionppStem) :
    m'.RelayOk := by
  cases m
  cases m'
  cases hkept
  cases hnot
  cases hlocal
  cases hforward
  cases hstem
  simp only [RelayOk, setRelayMethod, getRelayMethod, TxpoolTxMeta.mk.injEq, true_and,
    and_true] at h ⊢
  exact h

theorem RelayOk.upgrade (h : m.RelayOk) (r : RelayMethod) : (m.upgradeRelayMethod r).RelayOk := by
  unfold upgradeRelayMethod
  split
  · exact relayOk_setRelayMethod m r
  · exact h

@[simp] theorem upgradeRelayMethod_weight (m : TxpoolTxMeta) (r : RelayMethod) :
    (m.upgradeRelayMethod r).weight = m.weight := by
  unfold upgradeRelayMethod
  split <;> rfl

@[simp] theorem upgradeRelayMethod_pruned (m : TxpoolTxMeta) (r : RelayMethod) :
    (m.upgradeRelayMethod r).pruned = m.pruned := by
  unfold upgradeRelayMethod
  split <;> rfl

theorem getRelayMethod_upgrade (m : TxpoolTxMeta) (r : RelayMethod) :
    (m.upgradeRelayMethod r).getRelayMethod = if m.upgrades r then r else m.getRelayMethod := by
  unfold upgradeRelayMethod
  split <;> simp

variable {r : RelayMethod}

/-- A relay method of higher rank is no more private. -/
theorem matchesCategory_of_rank_le {r' : RelayMethod} (h : r.rank ≤ r'.rank)
    (hr : matchesCategory r .broadcasted) : matchesCategory r' .broadcasted := by
  revert h hr
  cases r <;> cases r' <;> simp [matchesCategory, RelayMethod.rank]

theorem sensitive_of_upgrade (h : (m.upgradeRelayMethod r).sensitive) : m.sensitive := by
  unfold sensitive matchesRelay at h ⊢
  rw [getRelayMethod_upgrade] at h
  rw [Bool.not_eq_true'] at h ⊢
  split at h
  · rename_i hup
    refine Bool.eq_false_iff.mpr fun hm => ?_
    rw [matchesCategory_of_rank_le (Nat.le_of_lt (of_decide_eq_true hup)) hm] at h
    cases h
  · exact h

theorem RelayOk.kept_of_upgrade (h : m.RelayOk)
    (hk : m.keptByBlock) : (m.upgradeRelayMethod r).keptByBlock := by
  rw [h.keptByBlock, decide_eq_true_eq] at hk
  rw [(h.upgrade r).keptByBlock, getRelayMethod_upgrade, decide_eq_true_eq, hk, ite_eq_right_iff]
  intro hup
  have hlt : m.getRelayMethod.rank < r.rank := of_decide_eq_true hup
  rw [hk] at hlt
  cases r <;> simp [RelayMethod.rank] at hlt

end TxpoolTxMeta

/-! ## Key images -/

@[simp] theorem keyImages_key (i : TxinToKey) (vin : List TxinV) :
    keyImages (.key i :: vin) = i.kImage :: keyImages vin := rfl

variable {vin : List TxinV}

/-- All inputs are of the usual type. -/
theorem exists_key {x : TxinV} (h : checkInputsTypesSupported (x :: vin)) : ∃ i, x = .key i := by
  cases x with
  | key i => exact ⟨i, rfl⟩
  | _ => cases h

/-- No key image has an empty set. -/
def NoEmpty (images : KeyImagesContainer) : Prop := ∀ k : KeyImage, images[k]? ≠ some ∅

variable {images : KeyImagesContainer}

theorem NoEmpty.getElem? (h : NoEmpty images) (k : KeyImage) :
    images[k]? = if images.getD k ∅ = ∅ then none else some (images.getD k ∅) := by
  rw [getD_eq_getD_getElem?]
  cases hk : images[k]? with
  | none => simp
  | some s =>
    have hs : s ≠ ∅ := fun e => h k (e ▸ hk)
    simp [hs]

/-- Containers without empty sets are equal if they have the same sets. -/
theorem NoEmpty.ext {images' : KeyImagesContainer} (h : NoEmpty images)
    (h' : NoEmpty images') (heq : ∀ k, images.getD k ∅ = images'.getD k ∅) : images = images' := by
  apply ext_getElem?
  intro k
  rw [h.getElem?, h'.getElem?, heq]

theorem noEmpty_insert (h : NoEmpty images) (k : KeyImage)
    {s : Finset Hash} (hs : s ≠ ∅) : NoEmpty (images.insert k s) := by
  intro l
  rw [Table.getElem?_insert]
  split
  · exact fun e => hs (Option.some.inj e)
  · exact h l

theorem noEmpty_erase (h : NoEmpty images) (k : KeyImage) : NoEmpty (images.erase k) := by
  intro l
  rw [Table.getElem?_erase]
  split
  · simp
  · exact h l

variable {id : Hash}

theorem getElem?_of_mem_getD {k : KeyImage} (h : id ∈ images.getD k ∅) :
    images[k]? = some (images.getD k ∅) := by
  rw [getD_eq_getD_getElem?] at h ⊢
  cases hk : images[k]? with
  | none => simp [hk] at h
  | some s => rfl

/-- **`insert_key_images` gets to the end** if no set is in the way, and then the id is in the set
of every key image. -/
theorem insertKeyImages_ok {txpool : PoolTable} {relay : RelayMethod}
    (hkey : checkInputsTypesSupported vin) (hnodup : (keyImages vin).Nodup)
    (hset : ∀ k ∈ keyImages vin,
      (relay ≠ .block → images.getD k ∅ = ∅ ∨ images.getD k ∅ = {id}) ∧
      ¬ (id ∈ images.getD k ∅ ∧ txpoolTxMatchesCategory txpool id .legacy)) :
    ∃ images', insertKeyImages txpool id relay vin images = (images', true) ∧
      (∀ k, images'.getD k ∅ =
        if k ∈ keyImages vin then insert id (images.getD k ∅) else images.getD k ∅) ∧
      (NoEmpty images → NoEmpty images') := by
  induction vin generalizing images with
  | nil => exact ⟨images, rfl, fun k => by simp [keyImages], fun h => h⟩
  | cons x vin ih =>
    obtain ⟨i, rfl⟩ := exists_key hkey
    rw [keyImages_key, List.nodup_cons] at hnodup
    have hhead := hset i.kImage List.mem_cons_self
    have hother : ∀ k ∈ keyImages vin, (images.insert i.kImage
        (insert id (images.getD i.kImage ∅))).getD k ∅ = images.getD k ∅ := by
      intro k hk
      have hne : i.kImage ≠ k := fun e => hnodup.1 (e ▸ hk)
      rw [Table.getD_insert, if_neg hne]
    obtain ⟨images', heq, hget, hne⟩ := ih hkey hnodup.2 fun k hk => by
      rw [hother k hk]
      exact hset k (List.mem_cons_of_mem _ hk)
    refine ⟨images', ?_, fun k => ?_,
      fun h => hne (noEmpty_insert h _ (Finset.insert_ne_empty _ _))⟩
    · rw [← heq, insertKeyImages, if_neg, if_neg hhead.2]
      rintro ⟨hrelay, hbad⟩
      exact hbad (hhead.1 hrelay)
    · rw [hget, Table.getD_insert]
      by_cases hk : i.kImage = k
      · cases hk
        simp [hnodup.1]
      · simp [hk, Ne.symm hk]

/-- `insert_key_images` stops at once for a transaction that is in the pool for all to see. -/
theorem insertKeyImages_legacy {txpool : PoolTable} (hkey : checkInputsTypesSupported vin)
    (hvin : vin ≠ []) (hset : ∀ k ∈ keyImages vin, id ∈ images.getD k ∅)
    (hlegacy : txpoolTxMatchesCategory txpool id .legacy) :
    insertKeyImages txpool id .block vin images = (images, false) := by
  cases vin with
  | nil => exact absurd rfl hvin
  | cons x vin =>
    obtain ⟨i, rfl⟩ := exists_key hkey
    have hmem := hset i.kImage List.mem_cons_self
    rw [insertKeyImages, if_neg (fun h => h.1 rfl), if_pos ⟨hmem, hlegacy⟩,
      insert_of_getElem? (getElem?_of_mem_getD hmem)]

/-- **`remove_transaction_keyimages` gets to the end** if the id is in every set. -/
theorem removeTransactionKeyimages_ok (hkey : checkInputsTypesSupported vin)
    (hnodup : (keyImages vin).Nodup) (hset : ∀ k ∈ keyImages vin, id ∈ images.getD k ∅) :
    (∀ k, (removeTransactionKeyimages id vin images).getD k ∅ =
      if k ∈ keyImages vin then (images.getD k ∅).erase id else images.getD k ∅) ∧
    (NoEmpty images → NoEmpty (removeTransactionKeyimages id vin images)) := by
  induction vin generalizing images with
  | nil => exact ⟨fun k => by simp [keyImages, removeTransactionKeyimages], fun h => h⟩
  | cons x vin ih =>
    obtain ⟨i, rfl⟩ := exists_key hkey
    rw [keyImages_key, List.nodup_cons] at hnodup
    have his := hset i.kImage List.mem_cons_self
    have hs := getElem?_of_mem_getD his
    generalize hgetD : images.getD i.kImage ∅ = s at his hs
    -- the set loses the id, and the key goes with the last one
    set next := if s.erase id = ∅ then images.erase i.kImage
      else images.insert i.kImage (s.erase id) with hnext
    have hget : ∀ k, next.getD k ∅ = if i.kImage = k then s.erase id else images.getD k ∅ := by
      intro k
      rw [hnext]
      split
      · rename_i hempty
        rw [getD_eq_getD_getElem?, Table.getElem?_erase]
        split
        · exact hempty.symm
        · rw [getD_eq_getD_getElem?]
      · rw [Table.getD_insert]
    have hother : ∀ k ∈ keyImages vin, next.getD k ∅ = images.getD k ∅ := by
      intro k hk
      have hne : i.kImage ≠ k := fun e => hnodup.1 (e ▸ hk)
      rw [hget, if_neg hne]
    have hstep : removeTransactionKeyimages id (.key i :: vin) images =
        removeTransactionKeyimages id vin next := by
      rw [removeTransactionKeyimages, hs]
      exact if_pos his
    obtain ⟨hih, hne⟩ := ih hkey hnodup.2 fun k hk => by
      rw [hother k hk]
      exact hset k (List.mem_cons_of_mem _ hk)
    rw [hstep]
    refine ⟨fun k => ?_, fun h => hne ?_⟩
    · rw [hih, hget]
      by_cases hk : i.kImage = k
      · cases hk
        simp [hnodup.1, hgetD]
      · simp [hk, Ne.symm hk]
    · rw [hnext]
      split
      · exact noEmpty_erase h _
      · exact noEmpty_insert h _ ‹_›

/-! ## The sorted container -/

namespace TransientLists

theorem map_txid_eraseSorted (l : List SortedTx) (txid : Hash) :
    (eraseSorted l txid).map SortedTx.txid = (l.map SortedTx.txid).erase txid := by
  induction l with
  | nil => rfl
  | cons e l ih =>
    unfold eraseSorted at ih ⊢
    by_cases h : e.txid = txid
    · simp [h]
    have hval : e.txid.1 ≠ txid.1 := fun c => h (Subtype.ext c)
    simp [h, hval, ih]

theorem insertByFee_perm (e : SortedTx) (l : List SortedTx) : (insertByFee e l).Perm (e :: l) := by
  induction l with
  | nil => exact List.Perm.refl _
  | cons x l ih =>
    unfold insertByFee
    split
    · exact List.Perm.refl _
    · exact (ih.cons x).trans (List.Perm.swap e x l)

theorem map_txid_insertSorted {l : List SortedTx} {e : SortedTx}
    (h : e.txid ∉ l.map SortedTx.txid) :
    ((insertSorted l e).map SortedTx.txid).Perm (e.txid :: l.map SortedTx.txid) := by
  have hany : l.any (·.txid = e.txid) = false := by
    rw [Bool.eq_false_iff]
    intro hany
    obtain ⟨x, hx, he⟩ := List.any_eq_true.mp hany
    exact h (List.mem_map.mpr ⟨x, hx, of_decide_eq_true he⟩)
  rw [insertSorted, hany]
  exact (insertByFee_perm e l).map SortedTx.txid

theorem insertSorted_of_mem {l : List SortedTx} {e : SortedTx} (h : e.txid ∈ l.map SortedTx.txid) :
    insertSorted l e = l := by
  obtain ⟨x, hx, he⟩ := List.mem_map.mp h
  exact if_pos (List.any_eq_true.mpr ⟨x, hx, decide_eq_true he⟩)

/-- **Listing a transaction** makes it one of those in the container, once. -/
theorem map_txid_addTx {l : TransientLists} {txid : Hash} {fee receiveTime now : Nat}
    (hnodup : (l.sorted.map SortedTx.txid).Nodup) :
    ((l.addTx txid fee receiveTime now).sorted.map SortedTx.txid).Perm
      (if txid ∈ l.sorted.map SortedTx.txid then l.sorted.map SortedTx.txid
       else txid :: l.sorted.map SortedTx.txid) := by
  unfold addTx
  dsimp only
  by_cases hadded : txid ∈ l.addedById
  · rw [if_pos hadded]
    have hnew : txid ∉ (eraseSorted l.sorted txid).map SortedTx.txid := by
      rw [map_txid_eraseSorted]
      exact hnodup.not_mem_erase
    refine (map_txid_insertSorted hnew).trans ?_
    rw [map_txid_eraseSorted]
    split
    · exact (List.perm_cons_erase ‹_›).symm
    · rw [List.erase_of_not_mem ‹_›]
  · rw [if_neg hadded]
    split
    · rw [insertSorted_of_mem ‹_›]
    · exact map_txid_insertSorted ‹_›

end TransientLists

/-! ## The invariant -/

/-- What the transaction with an id is. -/
structure Catalog where
  vin : Hash → List TxinV
  weight : Hash → Nat
  pruned : Hash → Bool

/-- A blob that parses, in the ways the pool parses it, to a transaction with the given inputs. -/
structure Readable (P : PoolParams) (blob : Bytes) (pruned : Bool) (vin : List TxinV) : Prop where
  head : ∃ tx, parsePrefix blob = some tx ∧ tx.vin = vin
  full : ∃ tx, (if pruned then parseAndValidateTxBaseFromBlob P.nic.scalarmultKey blob
    else parseAndValidateTxFromBlob P.nic.scalarmultKey blob) = some tx ∧ tx.vin = vin ∧
      tx.pruned = pruned

/-- Inputs that `check_tx_semantic` accepts: there are some, all of the usual type, with different
key images. -/
structure SpendsOnce (vin : List TxinV) : Prop where
  nonempty : vin ≠ []
  keys : checkInputsTypesSupported vin
  nodup : (keyImages vin).Nodup

theorem nodup_of_keyimagesDiff : ∀ {ki : List KeyImage} {vin : List TxinV},
    checkTxInputsKeyimagesDiff ki vin → (keyImages vin).Nodup ∧ ∀ k ∈ keyImages vin, k ∉ ki
  | _, [], _ => ⟨List.nodup_nil, by simp [keyImages]⟩
  | ki, .key i :: vin, h => by
    rw [checkTxInputsKeyimagesDiff] at h
    split at h
    · cases h
    · rename_i hnew
      obtain ⟨hnodup, hki⟩ := nodup_of_keyimagesDiff h
      rw [keyImages_key, List.nodup_cons]
      refine ⟨⟨fun hi => hki _ hi List.mem_cons_self, hnodup⟩, fun k hk => ?_⟩
      rcases List.mem_cons.mp hk with rfl | hk
      · exact hnew
      · exact fun hmem => hki k hk (List.mem_cons_of_mem _ hmem)

theorem SpendsOnce.of_semantic (h : SemanticInputs vin) : SpendsOnce vin :=
  ⟨h.nonempty, h.keys, (nodup_of_keyimagesDiff h.diff).1⟩

/-- What a transaction object and the catalog have in common. -/
structure Catalog.Lists (cat : Catalog) (id : Hash) (tx : Transaction) : Prop where
  vin : tx.vin = cat.vin id
  pruned : tx.pruned = cat.pruned id

/-- An entry of the tables. -/
structure EntryOk (P : PoolParams) (cat : Catalog) (id : Hash) (e : PoolEntry) : Prop where
  weight : e.txMeta.weight = cat.weight id
  pruned : e.txMeta.pruned = cat.pruned id
  readable : Readable P e.blob (cat.pruned id) (cat.vin id)
  inputs : SpendsOnce (cat.vin id)
  relay : e.txMeta.RelayOk

/-- **The index invariant**, with the surplus of `m_txpool_weight`. -/
structure Consistent (P : PoolParams) (cat : Catalog) (surplus : Nat) (p : TxMemoryPool) :
    Prop where
  entries : ∀ (id : Hash) (e : PoolEntry), p.txpool[id]? = some e → EntryOk P cat id e
  images : ∀ (k : KeyImage) (id : Hash),
    id ∈ p.spentKeyImages.getD k ∅ ↔ id ∈ p.txpool ∧ k ∈ keyImages (cat.vin id)
  noEmpty : NoEmpty p.spentKeyImages
  weight : p.txpoolWeight = totalWeight p.txpool + surplus
  sorted : (p.lists.sorted.map SortedTx.txid).Perm p.txpool.keys
  single : ∀ (id id' : Hash) (e e' : PoolEntry) (k : KeyImage), p.txpool[id]? = some e →
    p.txpool[id']? = some e' → e.txMeta.keptByBlock = false → e'.txMeta.keptByBlock = false →
    k ∈ keyImages (cat.vin id) → k ∈ keyImages (cat.vin id') → id = id'
  cache : ∀ (id : Hash) (tx : Transaction), p.parsedTxCache[id]? = some tx → cat.Lists id tx

section

variable {P : PoolParams} {cat : Catalog} {surplus : Nat} {p p' : TxMemoryPool} {id : Hash}
  {e : PoolEntry}

theorem EntryOk.spends (h : EntryOk P cat id e) (k : KeyImage) :
    e.spends k ↔ k ∈ keyImages (cat.vin id) := by
  obtain ⟨tx, htx, hvin⟩ := h.readable.head
  unfold PoolEntry.spends
  rw [htx, ← hvin]
  exact decide_eq_true_iff

theorem Consistent.spenders_eq (h : Consistent P cat surplus p) (k : KeyImage) :
    spenders p.txpool k = p.spentKeyImages.getD k ∅ := by
  ext id
  rw [mem_spenders, h.images]
  constructor
  · rintro ⟨e, he, hk⟩
    exact ⟨mem_of_getElem? he, ((h.entries id e he).spends k).mp hk⟩
  · rintro ⟨hmem, hk⟩
    obtain ⟨e, he⟩ := exists_getElem? hmem
    exact ⟨e, he, ((h.entries id e he).spends k).mpr hk⟩

/-- The index matches the tables if `m_txpool_weight` has no surplus. -/
theorem Consistent.indexOk_iff (h : Consistent P cat surplus p) : IndexOk p ↔ surplus = 0 := by
  constructor
  · intro hp
    have := h.weight
    have := hp.weight
    omega
  · intro hs
    refine ⟨fun k => ?_, by rw [h.weight, hs, Nat.add_zero], h.sorted⟩
    rw [h.spenders_eq, h.noEmpty.getElem?]

theorem Consistent.mem_sorted (h : Consistent P cat surplus p) :
    id ∈ p.lists.sorted.map SortedTx.txid ↔ id ∈ p.txpool := by
  rw [h.sorted.mem_iff, mem_keys]

/-! ## Steps -/

/-- The transaction `id` leaves the pool. -/
structure Removes (P : PoolParams) (cat : Catalog) (p : TxMemoryPool) (id : Hash) (e : PoolEntry)
    (p' : TxMemoryPool) : Prop where
  stored : p.txpool[id]? = some e
  txpool : p'.txpool = p.txpool.erase id
  images : p'.spentKeyImages = removeTransactionKeyimages id (cat.vin id) p.spentKeyImages
  weight : p'.txpoolWeight = p.txpoolWeight - e.txMeta.weight
  lists : ∃ r, p.reads ≤ r ∧ r < p'.reads ∧
    p'.lists = p.lists.removeTx id e.txMeta.sensitive (P.clock r)
  cache : p'.parsedTxCache = p.parsedTxCache

/-- What a new entry has to be, apart from its key images. -/
structure Replaces (P : PoolParams) (cat : Catalog) (p : TxMemoryPool) (id : Hash) (e : PoolEntry) :
    Prop where
  entry : EntryOk P cat id e
  relay : ∀ e₀, p.txpool[id]? = some e₀ → (e₀.txMeta.keptByBlock → e.txMeta.keptByBlock) ∧
    (e.txMeta.sensitive → e₀.txMeta.sensitive)
  /-- another transaction that is not kept by block has none of its key images -/
  free : e.txMeta.keptByBlock = false → ∀ id' e' k, p.txpool[id']? = some e' →
    e'.txMeta.keptByBlock = false → k ∈ keyImages (cat.vin id) → k ∈ keyImages (cat.vin id') →
    id = id'

/-- The transaction `id` enters the pool, or its entry is replaced. The weight grows by that of a
new transaction, and by `recount`. -/
structure Puts (P : PoolParams) (cat : Catalog) (p : TxMemoryPool) (id : Hash) (e : PoolEntry)
    (recount : Nat) (p' : TxMemoryPool) : Prop extends Replaces P cat p id e where
  txpool : p'.txpool = p.txpool.insert id e
  images : ∀ k, p'.spentKeyImages.getD k ∅ =
    if k ∈ keyImages (cat.vin id) then insert id (p.spentKeyImages.getD k ∅)
    else p.spentKeyImages.getD k ∅
  noEmpty : NoEmpty p.spentKeyImages → NoEmpty p'.spentKeyImages
  weight : p'.txpoolWeight =
    p.txpoolWeight + (if id ∈ p.txpool then 0 else cat.weight id) + recount
  lists : ∃ fee receiveTime r, p.reads ≤ r ∧ r < p'.reads ∧
    p'.lists = p.lists.addTx id fee receiveTime (P.clock r)
  cache : ∀ id tx, p'.parsedTxCache[id]? = some tx →
    p.parsedTxCache[id]? = some tx ∨ cat.Lists id tx

/-- Two entries of the same transaction, seen by the same clients. -/
structure SameTx (e e' : PoolEntry) : Prop where
  blob : e'.blob = e.blob
  weight : e'.txMeta.weight = e.txMeta.weight
  pruned : e'.txMeta.pruned = e.txMeta.pruned
  sensitive : e'.txMeta.sensitive = e.txMeta.sensitive
  kept : e.txMeta.keptByBlock → e'.txMeta.keptByBlock
  relay : e.txMeta.RelayOk → e'.txMeta.RelayOk

/-- Nothing but meta data and caches change. -/
structure Updates (cat : Catalog) (p p' : TxMemoryPool) : Prop where
  txpool : ∀ id : Hash, Option.Rel SameTx p.txpool[id]? p'.txpool[id]?
  images : p'.spentKeyImages = p.spentKeyImages
  weight : p'.txpoolWeight = p.txpoolWeight
  lists : p'.lists = p.lists
  reads : p.reads ≤ p'.reads
  cache : ∀ id tx, p'.parsedTxCache[id]? = some tx →
    p.parsedTxCache[id]? = some tx ∨ cat.Lists id tx

/-- One step, with the recounted weight. -/
inductive PoolStep (P : PoolParams) (cat : Catalog) : TxMemoryPool → Nat → TxMemoryPool → Prop
  | remove {p p' : TxMemoryPool} {id : Hash} {e : PoolEntry} :
      Removes P cat p id e p' → PoolStep P cat p 0 p'
  | put {p p' : TxMemoryPool} {id : Hash} {e : PoolEntry} {recount : Nat} :
      Puts P cat p id e recount p' → PoolStep P cat p recount p'
  | update {p p' : TxMemoryPool} : Updates cat p p' → PoolStep P cat p 0 p'
  | forget (p : TxMemoryPool) : PoolStep P cat p 0 { p with lists := p.lists.forget }

/-- Steps one after the other, with all recounted weights. -/
inductive PoolSteps (P : PoolParams) (cat : Catalog) : TxMemoryPool → Nat → TxMemoryPool → Prop
  | refl (p : TxMemoryPool) : PoolSteps P cat p 0 p
  | tail {p p₁ p' : TxMemoryPool} {n m : Nat} :
      PoolSteps P cat p n p₁ → PoolStep P cat p₁ m p' → PoolSteps P cat p (n + m) p'

/-! ## Steps keep the invariant -/

theorem Removes.consistent (h : Removes P cat p id e p') (hp : Consistent P cat surplus p) :
    Consistent P cat surplus p' := by
  have hentry := hp.entries id e h.stored
  have hmem : id ∈ p.txpool := mem_of_getElem? h.stored
  have hset : ∀ k ∈ keyImages (cat.vin id), id ∈ p.spentKeyImages.getD k ∅ :=
    fun k hk => (hp.images k id).mpr ⟨hmem, hk⟩
  obtain ⟨himages, hnoEmpty⟩ :=
    removeTransactionKeyimages_ok hentry.inputs.keys hentry.inputs.nodup hset
  rw [← h.images] at himages hnoEmpty
  have hget : ∀ id', p'.txpool[id']? = if id = id' then none else p.txpool[id']? := fun id' => by
    rw [h.txpool, Table.getElem?_erase]
  have hsome : ∀ id' e', p'.txpool[id']? = some e' → id ≠ id' ∧ p.txpool[id']? = some e' :=
    fun id' e' he' => getElem?_erase_eq_some.mp (h.txpool ▸ he')
  have hmem' : ∀ id', id' ∈ p'.txpool ↔ id ≠ id' ∧ id' ∈ p.txpool := by
    intro id'
    rw [mem_iff_isSome_getElem?, hget, mem_iff_isSome_getElem?]
    split <;> simp [*]
  refine ⟨fun id' e' he' => hp.entries id' e' (hsome id' e' he').2, ?_, hnoEmpty hp.noEmpty, ?_, ?_,
    ?_, ?_⟩
  · intro k id'
    rw [himages, hmem']
    have hbefore := hp.images k id'
    split <;> grind
  · have htotal := total_erase (fun e => e.txMeta.weight) h.stored
    have hweight := hp.weight
    unfold totalWeight at hweight ⊢
    rw [h.weight, h.txpool]
    omega
  · obtain ⟨r, -, -, hlists⟩ := h.lists
    rw [hlists, TransientLists.removeTx_sorted, TransientLists.map_txid_eraseSorted]
    refine (hp.sorted.erase id).trans ?_
    rw [List.perm_ext_iff_of_nodup (nodup_keys.erase id) nodup_keys]
    intro id'
    rw [nodup_keys.mem_erase_iff, mem_keys, mem_keys, hmem']
    exact and_congr_left' ne_comm
  · intro id1 id2 e1 e2 k h1 h2
    exact hp.single id1 id2 e1 e2 k (hsome id1 e1 h1).2 (hsome id2 e2 h2).2
  · rw [h.cache]
    exact hp.cache

theorem cache_of_step (hp : Consistent P cat surplus p)
    (h : ∀ id tx, p'.parsedTxCache[id]? = some tx →
      p.parsedTxCache[id]? = some tx ∨ cat.Lists id tx) (id : Hash) (tx : Transaction)
    (htx : p'.parsedTxCache[id]? = some tx) : cat.Lists id tx :=
  (h id tx htx).elim (hp.cache id tx) fun h => h

theorem Puts.consistent {recount : Nat} (h : Puts P cat p id e recount p')
    (hp : Consistent P cat surplus p) : Consistent P cat (surplus + recount) p' := by
  have hget : ∀ id', p'.txpool[id']? = if id = id' then some e else p.txpool[id']? := fun id' => by
    rw [h.txpool, Table.getElem?_insert]
  have hmem' : ∀ id', id' ∈ p'.txpool ↔ id = id' ∨ id' ∈ p.txpool := by
    intro id'
    rw [mem_iff_isSome_getElem?, hget, mem_iff_isSome_getElem?]
    split <;> simp [*]
  refine ⟨?_, ?_, h.noEmpty hp.noEmpty, ?_, ?_, ?_, cache_of_step hp h.cache⟩
  · intro id' e' he'
    rw [hget] at he'
    split at he'
    · rename_i heq
      cases he'
      exact heq ▸ h.entry
    · exact hp.entries id' e' he'
  · intro k id'
    rw [h.images, hmem']
    have hbefore := hp.images k id'
    split <;> grind
  · have hweight := hp.weight
    unfold totalWeight at hweight ⊢
    rw [h.weight, h.txpool]
    by_cases hid : id ∈ p.txpool
    · obtain ⟨e0, he0⟩ := exists_getElem? hid
      have hsame : e.txMeta.weight = e0.txMeta.weight :=
        h.entry.weight.trans (hp.entries id e0 he0).weight.symm
      rw [if_pos hid, total_insert_of_getElem? (fun e => e.txMeta.weight) he0 hsame]
      omega
    · rw [if_neg hid, total_insert (fun e => e.txMeta.weight) hid, h.entry.weight]
      omega
  · obtain ⟨fee, receiveTime, r, -, -, hlists⟩ := h.lists
    rw [hlists]
    refine (TransientLists.map_txid_addTx (hp.sorted.nodup_iff.mpr nodup_keys)).trans ?_
    rw [h.txpool]
    by_cases hid : id ∈ p.txpool
    · rw [if_pos (hp.mem_sorted.mpr hid)]
      refine hp.sorted.trans (keys_perm fun id' => ?_)
      rw [mem_insert, LawfulEqCmp.compare_eq_iff_eq]
      exact ⟨.inr, fun h => h.elim (fun c => c ▸ hid) fun h => h⟩
    · rw [if_neg fun c => hid (hp.mem_sorted.mp c)]
      exact (hp.sorted.cons id).trans (keys_insert_perm hid).symm
  · intro id1 id2 e1 e2 k h1 h2 hkept1 hkept2 hk1 hk2
    rw [hget] at h1 h2
    -- either can be the new entry, and that one has none of the other's key images
    split at h1 <;> split at h2
    · exact ‹id = id1›.symm.trans ‹id = id2›
    · cases ‹id = id1›
      cases h1
      exact h.free hkept1 id2 e2 k h2 hkept2 hk1 hk2
    · cases ‹id = id2›
      cases h2
      exact (h.free hkept2 id1 e1 k h1 hkept1 hk2 hk1).symm
    · exact hp.single id1 id2 e1 e2 k h1 h2 hkept1 hkept2 hk1 hk2

variable {e' : PoolEntry}

theorem rel_some {r : PoolEntry → PoolEntry → Prop} {a b : Option PoolEntry}
    (h : Option.Rel r a b) (hb : b = some e') : ∃ e, a = some e ∧ r e e' := by
  cases h with
  | some h =>
    cases hb
    exact ⟨_, rfl, h⟩
  | none => cases hb

theorem rel_imp {r r' : PoolEntry → PoolEntry → Prop} (hr : ∀ v w, r v w → r' v w)
    {a b : Option PoolEntry} (h : Option.Rel r a b) : Option.Rel r' a b := by
  cases h with
  | some h => exact .some (hr _ _ h)
  | none => exact .none

theorem Updates.getElem? (h : Updates cat p p') (he' : p'.txpool[id]? = some e') :
    ∃ e, p.txpool[id]? = some e ∧ SameTx e e' :=
  rel_some (h.txpool id) he'

theorem Updates.mem_iff (h : Updates cat p p') (id : Hash) : id ∈ p'.txpool ↔ id ∈ p.txpool := by
  rw [mem_iff_isSome_getElem?, mem_iff_isSome_getElem?, isSome_of_rel (h.txpool id)]

theorem SameTx.entryOk (h : SameTx e e') (he : EntryOk P cat id e) : EntryOk P cat id e' where
  weight := h.weight.trans he.weight
  pruned := h.pruned.trans he.pruned
  readable := h.blob ▸ he.readable
  inputs := he.inputs
  relay := h.relay he.relay

theorem SameTx.not_kept (h : SameTx e e') (he : e'.txMeta.keptByBlock = false) :
    e.txMeta.keptByBlock = false := by
  rw [Bool.eq_false_iff] at he ⊢
  exact fun hk => he (h.kept hk)

theorem Updates.consistent (h : Updates cat p p') (hp : Consistent P cat surplus p) :
    Consistent P cat surplus p' := by
  refine ⟨?_, ?_, h.images ▸ hp.noEmpty, ?_, ?_, ?_, cache_of_step hp h.cache⟩
  · intro id e' he'
    obtain ⟨e, he, hsame⟩ := h.getElem? he'
    exact hsame.entryOk (hp.entries id e he)
  · intro k id
    rw [h.images, hp.images, h.mem_iff]
  · have htotal : totalWeight p'.txpool = totalWeight p.txpool :=
      (total_congr _ fun id => rel_imp (fun _ _ h => h.weight.symm) (h.txpool id)).symm
    rw [h.weight, hp.weight, htotal]
  · rw [h.lists]
    exact hp.sorted.trans (keys_perm fun id => (h.mem_iff id).symm)
  · intro id1 id2 e1 e2 k h1 h2 hkept1 hkept2
    obtain ⟨e1', h1', hsame1⟩ := h.getElem? h1
    obtain ⟨e2', h2', hsame2⟩ := h.getElem? h2
    exact hp.single id1 id2 e1' e2' k h1' h2' (hsame1.not_kept hkept1) (hsame2.not_kept hkept2)

variable {n : Nat}

/-- **A step keeps the invariant.** -/
theorem PoolStep.consistent (h : PoolStep P cat p n p')
    (hp : Consistent P cat surplus p) : Consistent P cat (surplus + n) p' := by
  cases h with
  | remove h => exact h.consistent hp
  | put h => exact h.consistent hp
  | update h => exact h.consistent hp
  | forget => exact ⟨hp.entries, hp.images, hp.noEmpty, hp.weight, hp.sorted, hp.single, hp.cache⟩

/-- **A sequence of steps keeps the invariant.** -/
theorem PoolSteps.consistent (h : PoolSteps P cat p n p')
    (hp : Consistent P cat surplus p) : Consistent P cat (surplus + n) p' := by
  induction h with
  | refl => exact hp
  | tail _ hstep ih =>
    rw [← Nat.add_assoc]
    exact hstep.consistent ih

theorem PoolStep.steps (h : PoolStep P cat p n p') : PoolSteps P cat p n p' := by
  rw [← Nat.zero_add n]
  exact .tail (.refl p) h

theorem PoolSteps.trans {p'' : TxMemoryPool} {m : Nat} (h : PoolSteps P cat p n p')
    (h' : PoolSteps P cat p' m p'') : PoolSteps P cat p (n + m) p'' := by
  induction h' with
  | refl => exact h
  | tail _ hstep ih =>
    rw [← Nat.add_assoc]
    exact .tail ih hstep

end

end Hashmonkey.Pool
