import Hashmonkey.Pool.Steps

/-!
# The operations of the pool are sequences of steps (`tx_pool.cpp`)

For every operation of the pool, from any state with the index invariant: a sequence of `PoolStep`s
leads from the state before to the state after.

* `prune` and `take_tx` remove transactions one by one (`pruned_steps`, `takeTx_steps`);
* `add_tx` updates, puts the transaction in and prunes (`addTx_cases`). Stored again over the entry
  it has, a transaction of a block whose inputs fail is counted a second time in `m_txpool_weight`;
  `recounted` is by how much;
* `set_relayed` lists transactions anew that become visible (`setRelayed_steps`);
* `remove_stuck_transactions` takes them out of the lists in one loop and out of the rest in
  another. The steps go through states that the code does not have (`findStuck_steps`);
* `validate` takes out and puts back (`validate_steps`).

Callers promise (`NewTx.Promised`) that the transaction is the one of the catalog, with its blob and
weight, and that a hard fork version is not zero.
-/

open Hashmonkey.Core

namespace Hashmonkey.Pool

open Basic Db Lib Std TxpoolTxMeta List PoolStep

namespace TxMemoryPool

variable {P : PoolParams} {b : BlockchainAccess} {cat : Catalog} {surplus : Nat}
  {p p' : TxMemoryPool} {id : Hash} {e : PoolEntry}

/-! ## Removing -/

variable {vin : List TxinV}

theorem removeEntry_removes (he : p.txpool[id]? = some e)
    (hvin : vin = cat.vin id) : Removes P cat p id e (p.removeEntry P id e vin) where
  stored := he
  txpool := rfl
  images := hvin ▸ rfl
  weight := rfl
  lists := ⟨p.reads, le_rfl, Nat.lt_succ_self _, rfl⟩
  cache := rfl

/-- What a turn of the loop of `prune` can do. -/
theorem pruneTurn_spec (P : PoolParams) (throws : Hash → Bool) (bytes : Nat) (p : TxMemoryPool)
    (txid : Hash) :
    match pruneTurn P throws bytes p txid with
    | .stop => p.txpoolWeight ≤ bytes
    | .fail _ => throws txid ∨ ∃ e, p.txpool[txid]? = some e ∧ parsePrefix e.blob = none
    | .skip => ∀ e, p.txpool[txid]? = some e → e.txMeta.keptByBlock
    | .remove p' => ∃ e tx, p.txpool[txid]? = some e ∧ e.txMeta.keptByBlock = false ∧
        parsePrefix e.blob = some tx ∧ p' = p.removeEntry P txid e tx.vin := by
  unfold pruneTurn
  split_ifs with hweight hthrows
  · exact hweight
  · exact .inl hthrows
  cases he : p.txpool[txid]? with
  | none => exact fun e h => nomatch h
  | some e =>
    dsimp only
    split_ifs with hkept
    · rintro _ ⟨⟩
      exact hkept
    cases htx : parsePrefix e.blob with
    | none => exact .inr ⟨e, rfl, htx⟩
    | some tx => exact ⟨e, tx, rfl, Bool.eq_false_of_not_eq_true hkept, htx, rfl⟩

theorem pruneLoop_steps (hp : Consistent P cat surplus p) (bytes : Nat) (txids : List Hash) :
    (pruneLoop P (fun _ => false) bytes txids p).2 = none ∧
      PoolSteps P cat p 0 (pruneLoop P (fun _ => false) bytes txids p).1 := by
  induction txids generalizing p with
  | nil => exact ⟨rfl, .refl p⟩
  | cons txid txids ih =>
    have hspec := pruneTurn_spec P (fun _ => false) bytes p txid
    unfold pruneLoop
    cases hturn : pruneTurn P (fun _ => false) bytes p txid <;> rw [hturn] at hspec
    case stop => exact ⟨rfl, .refl p⟩
    case skip => exact ih hp
    case fail err =>
      obtain hthrow | ⟨e, he, hnone⟩ := hspec
      · cases hthrow
      obtain ⟨tx, htx, -⟩ := (hp.entries txid e he).readable.head
      cases hnone.symm.trans htx
    case remove p' =>
      obtain ⟨e, tx, he, -, htx, rfl⟩ := hspec
      obtain ⟨tx', htx', hvin⟩ := (hp.entries txid e he).readable.head
      cases htx.symm.trans htx'
      have hrem : Removes P cat p txid e (p.removeEntry P txid e tx.vin) :=
        removeEntry_removes he hvin
      obtain ⟨hnone, hsteps⟩ := ih (hrem.consistent hp)
      exact ⟨hnone, (steps (.remove hrem)).trans hsteps⟩

theorem pruned_steps (hp : Consistent P cat surplus p) (bytes : Nat) :
    PoolSteps P cat p 0 (p.pruned P bytes) := by
  obtain ⟨hnone, hsteps⟩ := pruneLoop_steps hp (p.pruneLimit bytes) p.pruneOrder
  rcases hloop : pruneLoop P (fun _ => false) (p.pruneLimit bytes) p.pruneOrder p with ⟨q, err⟩
  rw [hloop] at hnone hsteps
  cases hnone
  rw [pruned, prune, hloop]
  exact hsteps

variable {bytes : Nat}

/-- What every removal keeps holds after the loop. -/
theorem pruneLoop_rec {I : TxMemoryPool → Prop} {throws : Hash → Bool} {txids : List Hash}
    (hstep : ∀ q txid e tx, I q → I (removeEntry P q txid e tx)) (hp : I p) :
    I (pruneLoop P throws bytes txids p).1 := by
  induction txids generalizing p with
  | nil => exact hp
  | cons txid txids ih =>
    have hspec := pruneTurn_spec P throws bytes p txid
    unfold pruneLoop
    cases hturn : pruneTurn P throws bytes p txid <;> rw [hturn] at hspec
    case stop | fail => exact hp
    case skip => exact ih hp
    case remove p' =>
      obtain ⟨e, tx, -, -, -, rfl⟩ := hspec
      exact ih (hstep p txid e tx.vin hp)

/-- The transactions that are left after pruning were there before. -/
theorem getElem?_of_pruned (h : (p.pruned P bytes).txpool[id]? = some e) :
    p.txpool[id]? = some e := by
  unfold pruned prune at h
  split at h
  · rename_i q hloop
    have hq : (pruneLoop P (fun _ => false) (p.pruneLimit bytes) p.pruneOrder p).1.txpool[id]? =
        some e := by rwa [hloop]
    revert hq
    refine pruneLoop_rec (I := fun q => q.txpool[id]? = some e → p.txpool[id]? = some e)
      (fun q txid _ _ hq herase => hq ?_) fun h => h
    exact (Table.getElem?_erase_eq_some.mp herase).2
  · exact h

/-- The transaction of an entry can be parsed. -/
theorem parseEntry_ok (hp : Consistent P cat surplus p) (he : p.txpool[id]? = some e) :
    ∃ tx, p.parseEntry P id e = some tx ∧ cat.Lists id tx := by
  unfold parseEntry
  split
  · rename_i tx htx
    exact ⟨tx, rfl, hp.cache id tx htx⟩
  obtain ⟨tx, htx, hvin, hpruned⟩ := (hp.entries id e he).readable.full
  rw [(hp.entries id e he).pruned, htx]
  exact ⟨_, rfl, hvin, hpruned⟩

/-- What `take_tx` does and hands out. -/
theorem takeTx_cases (hp : Consistent P cat surplus p) (id : Hash) :
    (id ∉ p.txpool ∧ p.takeTx P id = (p, none)) ∨
    ∃ e tx p', Removes P cat p id e p' ∧ cat.Lists id tx ∧
      p.takeTx P id = (p', some ⟨tx, e.blob, e.txMeta⟩) := by
  unfold takeTx
  cases h : p.txpool[id]? with
  | none =>
    refine .inl ⟨?_, rfl⟩
    rw [ExtTreeMap.mem_iff_isSome_getElem?, h]
    exact Bool.false_ne_true
  | some e =>
    obtain ⟨tx, htx, hlists⟩ := parseEntry_ok hp h
    dsimp only
    rw [htx]
    exact .inr ⟨e, tx, _, removeEntry_removes h hlists.vin, hlists, rfl⟩

theorem takeTx_steps (hp : Consistent P cat surplus p) (id : Hash) :
    PoolSteps P cat p 0 (p.takeTx P id).1 := by
  rcases takeTx_cases hp id with ⟨-, h⟩ | ⟨e, tx, p', hrem, -, h⟩
  · rw [h]
    exact .refl p
  rw [h]
  exact steps (.remove hrem)

/-! ## Adding -/

/-- What the callers of `add_tx` promise: the transaction is the one of the catalog, the blob is its
blob, and a version that it was verified for means that its inputs passed `check_tx_semantic`. -/
structure NewTx.Promised (P : PoolParams) (cat : Catalog) (t : NewTx) : Prop where
  lists : cat.Lists t.id t.tx
  weight : t.weight = cat.weight t.id
  readable : Readable P t.blob (cat.pruned t.id) (cat.vin t.id)
  verified : t.version = t.nicVerifiedHfVersion → SpendsOnce t.tx.vin

variable {tx : Transaction} {version : UInt8}

theorem spendsOnce_of_nicPasses (h : nicPasses P tx version) : SpendsOnce tx.vin := by
  unfold nicPasses at h
  split at h
  · rename_i passed tvc hok
    cases h
    exact .of_semantic (verNonInputConsensus_inputs P.nic hok)
  · cases h

variable {t : NewTx}

/-- A transaction that passes the first checks spends different key images. -/
theorem spendsOnce_of_checkNewTx {fee : UInt64} (h : p.checkNewTx P b t = .ok fee)
    (hver : t.version = t.nicVerifiedHfVersion → SpendsOnce t.tx.vin) : SpendsOnce t.tx.vin := by
  unfold checkNewTx at h
  split at h
  · cases h
  split at h
  · cases h
  rename_i hnic
  by_cases heq : t.version = t.nicVerifiedHfVersion
  · exact hver heq
  have hv : nicPasses P t.tx t.version := by
    by_contra hbad
    exact hnic ⟨heq, hbad⟩
  exact spendsOnce_of_nicPasses hv

theorem updates_refl (p : TxMemoryPool) : Updates cat p p where
  txpool id := by
    cases p.txpool[id]? with
    | none => exact .none
    | some e => exact .some ⟨rfl, rfl, rfl, rfl, fun h => h, fun h => h⟩
  images := rfl
  weight := rfl
  lists := rfl
  reads := le_rfl
  cache _ _ h := .inl h

/-- An update that leaves the tables alone. -/
theorem updates_of_eq (htxpool : p'.txpool = p.txpool)
    (himages : p'.spentKeyImages = p.spentKeyImages) (hweight : p'.txpoolWeight = p.txpoolWeight)
    (hlists : p'.lists = p.lists) (hreads : p.reads ≤ p'.reads)
    (hcache : ∀ id tx, p'.parsedTxCache[id]? = some tx →
      p.parsedTxCache[id]? = some tx ∨ cat.Lists id tx) : Updates cat p p' where
  txpool := htxpool ▸ (updates_refl p : Updates cat p p).txpool
  images := himages
  weight := hweight
  lists := hlists
  reads := hreads
  cache := hcache

/-- The cache of parsed transactions is filled. -/
theorem cacheParsed_eq (p : TxMemoryPool) (t : NewTx) :
    ∃ parsedTxCache, p.cacheParsed t = { p with parsedTxCache } := by
  unfold cacheParsed
  split
  · exact ⟨_, rfl⟩
  · exact ⟨_, rfl⟩

theorem cacheParsed_updates (ht : cat.Lists t.id t.tx) : Updates cat p (p.cacheParsed t) := by
  unfold cacheParsed
  split
  · refine updates_of_eq rfl rfl rfl rfl le_rfl fun id tx h => ?_
    obtain ⟨rfl, rfl⟩ | ⟨-, h⟩ := Table.getElem?_insert_eq_some.mp h
    · exact .inr ht
    · exact .inl h
  · exact updates_refl p

theorem tick_updates (p : TxMemoryPool) : Updates cat p p.tick :=
  updates_of_eq rfl rfl rfl rfl (Nat.le_succ _) fun _ _ h => .inl h

/-- The checks of inputs touch the log of calls and the cache of verdicts. -/
theorem checkTxInputs_eq (b : BlockchainAccess) (p : TxMemoryPool) (tx : Transaction)
    (txid validId : Hash)
    (kept : Bool) : ∃ checks inputCache, (p.checkTxInputs b tx txid validId kept).2 =
      { p with checks, inputCache } := by
  unfold checkTxInputs
  split
  · exact ⟨p.checks, p.inputCache, rfl⟩
  split
  · exact ⟨_, p.inputCache, rfl⟩
  · exact ⟨_, _, rfl⟩

/-- A transaction whose key images are not spent in the pool meets only itself there. -/
theorem sets_of_not_spent (h : ¬ haveTxKeyimgesAsSpent p.txpool p.spentKeyImages vin id)
    {k : KeyImage} (hk : k ∈ keyImages vin) :
    p.spentKeyImages.getD k ∅ = ∅ ∨ p.spentKeyImages.getD k ∅ = {id} ∧
      ¬ txpoolTxMatchesCategory p.txpool id .legacy := by
  obtain ⟨x, hx, hxk⟩ := mem_filterMap.mp hk
  have hany : ¬ haveTxKeyimgAsSpent p.txpool p.spentKeyImages k id := by
    intro hspent
    refine h (any_eq_true.mpr ⟨x, hx, ?_⟩)
    cases x with
    | key i =>
      cases hxk
      exact hspent
    | _ => rfl
  unfold haveTxKeyimgAsSpent at hany
  dsimp only at hany
  split at hany
  · exact .inl ‹_›
  split at hany
  · exact absurd rfl hany
  · exact .inr ⟨not_not.mp ‹_›, hany⟩

/-- The sets of a transaction's key images are not in the way of `insert_key_images`. -/
def SetsFree (p : TxMemoryPool) (id : Hash) (relay : RelayMethod) (vin : List TxinV) : Prop :=
  ∀ k ∈ keyImages vin,
    (relay ≠ .block → p.spentKeyImages.getD k ∅ = ∅ ∨ p.spentKeyImages.getD k ∅ = {id}) ∧
    ¬ (id ∈ p.spentKeyImages.getD k ∅ ∧ txpoolTxMatchesCategory p.txpool id .legacy)

variable {relay : RelayMethod} {next : TxMemoryPool → TxMemoryPool} {fee receiveTime : Nat}

/-- **Key images in, then the entry**: a `Puts`, whatever is then added to the weight. -/
theorem withKeyImages_puts
    (hvin : vin = cat.vin id) (he : Replaces P cat p id e) (hset : p.SetsFree id relay vin)
    (hnext : ∀ q : TxMemoryPool, next q =
      addTxToTransientLists P { q with txpool := q.txpool.insert id e } id fee receiveTime) :
    ∃ q, p.withKeyImages id relay vin next = (q, true) ∧ q.txpool = p.txpool.insert id e ∧
      q.txpoolWeight = p.txpoolWeight ∧ ∀ w recount : Nat,
        w = p.txpoolWeight + (if id ∈ p.txpool then 0 else cat.weight id) + recount →
        Puts P cat p id e recount { q with txpoolWeight := w } := by
  subst hvin
  obtain ⟨images, heq, hget, hne⟩ :=
    insertKeyImages_ok he.entry.inputs.keys he.entry.inputs.nodup hset
  refine ⟨next { p with spentKeyImages := images }, ?_, ?_, ?_, fun w recount hw => ?_⟩
  · rw [withKeyImages, heq]
  · rw [hnext]
    rfl
  · rw [hnext]
    rfl
  · rw [hnext]
    exact
      { he with
        txpool := rfl
        images := hget
        noEmpty := hne
        weight := hw
        lists := ⟨fee, receiveTime, p.reads, le_rfl, Nat.lt_succ_self _, rfl⟩
        cache := fun _ _ h => .inl h }

/-- A transaction that is in the pool for all to see is not stored again. -/
theorem withKeyImages_legacy (hp : Consistent P cat surplus p) (hvin : vin = cat.vin id)
    (hlegacy : txpoolTxMatchesCategory p.txpool id .legacy) :
    p.withKeyImages id .block vin next = (p, false) := by
  obtain ⟨e, he⟩ : ∃ e, p.txpool[id]? = some e := by
    unfold txpoolTxMatchesCategory at hlegacy
    split at hlegacy
    · cases hlegacy
    · exact ⟨_, ‹_›⟩
  have hin := (hp.entries id e he).inputs
  subst hvin
  rw [withKeyImages, insertKeyImages_legacy hin.keys hin.nonempty
    (fun k hk => (hp.images k id).mpr ⟨Table.mem_of_getElem? he, hk⟩) hlegacy]

theorem setsFree_of_not_spent
    (h : ¬ haveTxKeyimgesAsSpent p.txpool p.spentKeyImages vin id) : p.SetsFree id relay vin := by
  intro k hk
  rcases sets_of_not_spent h hk with hempty | ⟨hself, hlegacy⟩
  · rw [hempty]
    exact ⟨fun _ => .inl rfl, fun h => absurd h.1 (Finset.notMem_empty _)⟩
  · exact ⟨fun _ => .inr hself, fun h => hlegacy h.2⟩

/-- **Storing a transaction**: it is refused if it comes from a block and is in the pool for all to
see. -/
theorem store_cases (hp : Consistent P cat surplus p) (ht : cat.Lists t.id t.tx)
    (he : Replaces P cat p t.id e)
    (hrelay : relay = .block ∨ ¬ haveTxKeyimgesAsSpent p.txpool p.spentKeyImages t.tx.vin t.id)
    (hnext : ∀ q : TxMemoryPool, next q =
      addTxToTransientLists P { q with txpool := q.txpool.insert t.id e } t.id fee receiveTime) :
    (relay = .block ∧ txpoolTxMatchesCategory p.txpool t.id .legacy ∧ ∃ q,
      (p.tick.cacheParsed t).withKeyImages t.id relay t.tx.vin next = (q, false) ∧
      PoolSteps P cat p 0 q) ∨
    ((relay = .block → ¬ txpoolTxMatchesCategory p.txpool t.id .legacy) ∧ ∃ q,
      (p.tick.cacheParsed t).withKeyImages t.id relay t.tx.vin next = (q, true) ∧
      q.txpool = p.txpool.insert t.id e ∧ q.txpoolWeight = p.txpoolWeight ∧ ∀ w recount : Nat,
        w = p.txpoolWeight + (if t.id ∈ p.txpool then 0 else cat.weight t.id) + recount →
        PoolSteps P cat p recount { q with txpoolWeight := w }) := by
  have hup : PoolSteps P cat p 0 (p.tick.cacheParsed t) :=
    (steps (.update (tick_updates p))).trans
      (steps (.update (cacheParsed_updates ht)))
  obtain ⟨cache, hcache⟩ := cacheParsed_eq p.tick t
  rw [hcache] at hup ⊢
  set p1 : TxMemoryPool := { p.tick with parsedTxCache := cache }
  by_cases hlegacy : relay = .block ∧ txpoolTxMatchesCategory p.txpool t.id .legacy
  · refine .inl ⟨hlegacy.1, hlegacy.2, p1, ?_, hup⟩
    rw [hlegacy.1]
    exact withKeyImages_legacy (hup.consistent hp) ht.vin hlegacy.2
  have hset : p1.SetsFree t.id relay t.tx.vin := by
    rcases hrelay with hblock | hspent
    · rw [hblock]
      exact fun _ _ => ⟨fun h => absurd rfl h, fun h => hlegacy ⟨hblock, h.2⟩⟩
    · exact setsFree_of_not_spent hspent
  have he' : Replaces P cat p1 t.id e := ⟨he.entry, he.relay, he.free⟩
  obtain ⟨q, heq, hq, hw, hputs⟩ := withKeyImages_puts ht.vin he' hset hnext
  refine .inr ⟨fun hb h => hlegacy ⟨hb, h⟩, q, heq, hq, hw, fun w recount hwr => ?_⟩
  rw [← Nat.zero_add recount]
  exact hup.trans (steps (.put (hputs w recount hwr)))

/-! ### Inputs that failed -/

theorem storeFailed_cases (hp : Consistent P cat surplus p) (ht : t.Promised P cat)
    (hin : SpendsOnce t.tx.vin) (hkept : t.txRelay = .block) (fee : UInt64) (receiveTime : Nat)
    (v : InputsVerdict) :
    (txpoolTxMatchesCategory p.txpool t.id .legacy ∧ ∃ q,
      p.storeFailed P t fee receiveTime v = (q, false) ∧ PoolSteps P cat p 0 q) ∨
    (¬ txpoolTxMatchesCategory p.txpool t.id .legacy ∧ ∃ q e,
      p.storeFailed P t fee receiveTime v = (q, true) ∧ q.txpool = p.txpool.insert t.id e ∧
      e.txMeta.getRelayMethod = t.txRelay ∧
      PoolSteps P cat p (if t.id ∈ p.txpool then t.weight else 0)
        { q with txpoolWeight := q.txpoolWeight + t.weight }) := by
  unfold storeFailed
  dsimp only
  -- the entry that is stored
  set m : TxpoolTxMeta := setRelayMethod _ t.txRelay with hm
  have hmethod : m.getRelayMethod = t.txRelay := getRelayMethod_setRelayMethod _ _
  have hrelay : m.RelayOk := relayOk_setRelayMethod _ _
  have hblock : m.keptByBlock := by
    rw [hrelay.keptByBlock, hmethod, hkept]
    rfl
  have he : Replaces P cat p t.id ⟨m, t.blob⟩ :=
    { entry :=
        { weight := ht.weight
          pruned := ht.lists.pruned
          readable := ht.readable
          inputs := ht.lists.vin ▸ hin
          relay := hrelay }
      relay := fun e0 _ => ⟨fun _ => hblock, fun hs => by
        simp [sensitive, matchesRelay, hmethod, hkept,
          matchesCategory] at hs⟩
      free := fun hno => by simp [hblock] at hno }
  rcases store_cases hp ht.lists he (.inl hkept) (fun q => rfl) with
    ⟨-, hlegacy, q, heq, hsteps⟩ | ⟨hlegacy, q, heq, htxpool, hweight, hsteps⟩
  · exact .inl ⟨hlegacy, q, heq, hsteps⟩
  refine .inr ⟨hlegacy hkept, q, _, heq, htxpool, hmethod, hsteps _ _ ?_⟩
  rw [hweight, ht.weight]
  split <;> rfl

/-! ### Inputs that passed -/

theorem relayMethod_eq_block : p.relayMethod t = .block ↔ t.txRelay = .block := by
  unfold relayMethod
  split
  · split
    · rename_i h
      simp [h.1]
    · rfl
  · rfl

theorem storedMeta_relayOk (hp : Consistent P cat surplus p) (t : NewTx) (v : InputsVerdict) :
    (p.storedMeta t v).RelayOk := by
  unfold storedMeta
  split
  · exact (hp.entries _ _ ‹_›).relay
  · exact relayOk_setRelayMethod _ _

variable {v : InputsVerdict}

theorem getRelayMethod_storedMeta (h : t.id ∉ p.txpool) :
    (p.storedMeta t v).getRelayMethod = .none := by
  rw [ExtTreeMap.mem_iff_isSome_getElem?] at h
  rw [storedMeta, Option.not_isSome_iff_eq_none.mp h]
  exact getRelayMethod_setRelayMethod _ _

/-- A transaction that comes from a block is stored as such. -/
theorem upgraded_kept (hp : Consistent P cat surplus p) (hkept : t.txRelay = .block)
    (h : (p.storedMeta t v).upgrades (p.relayMethod t) ∨ t.id ∉ p.txpool) :
    ((p.storedMeta t v).upgradeRelayMethod (p.relayMethod t)).keptByBlock := by
  have hrelay := storedMeta_relayOk hp t v
  rw [relayMethod_eq_block.mpr hkept] at h ⊢
  have hup : (p.storedMeta t v).upgrades .block := by
    rcases h with h | h
    · exact h
    rw [upgrades, getRelayMethod_storedMeta h]
    rfl
  rw [(hrelay.upgrade _).keptByBlock, getRelayMethod_upgrade, if_pos hup]
  rfl

/-- The relay method of a transaction that is new. -/
theorem upgraded_of_new (h : t.id ∉ p.txpool) :
    ((p.storedMeta t v).upgradeRelayMethod (p.relayMethod t)).getRelayMethod = t.txRelay := by
  have hmethod : p.relayMethod t = t.txRelay := by
    rw [ExtTreeMap.mem_iff_isSome_getElem?] at h
    rw [relayMethod, Option.not_isSome_iff_eq_none.mp h]
  rw [getRelayMethod_upgrade, hmethod, upgrades,
    getRelayMethod_storedMeta h]
  cases t.txRelay <;> rfl

/-- The entry of a transaction that is stored anew or upgraded. -/
theorem passedMeta_replaces {fee : UInt64}
    (hp : Consistent P cat surplus p) (ht : t.Promised P cat) (hin : SpendsOnce t.tx.vin)
    (hspent : t.txRelay = .block ∨
      ¬ haveTxKeyimgesAsSpent p.txpool p.spentKeyImages t.tx.vin t.id)
    (hup : (p.storedMeta t v).upgrades (p.relayMethod t) ∨ t.id ∉ p.txpool) :
    Replaces P cat p t.id
      ⟨p.passedMeta P t fee receiveTime v (p.relayMethod t) (p.storedMeta t v), t.blob⟩ := by
  -- the flags are those of the upgraded meta data
  set m := p.passedMeta P t fee receiveTime v (p.relayMethod t) (p.storedMeta t v)
  set m0 := (p.storedMeta t v).upgradeRelayMethod (p.relayMethod t) with hm0
  have hkept0 : m.keptByBlock = m0.keptByBlock := rfl
  have hsens0 : m.sensitive = m0.sensitive := rfl
  have hrelay0 : m0.RelayOk := (storedMeta_relayOk hp t v).upgrade _
  refine ⟨⟨ht.weight, ht.lists.pruned, ht.readable, ht.lists.vin ▸ hin,
    hrelay0.congr rfl rfl rfl rfl rfl⟩, ?_, ?_⟩
  · intro e0 he0
    have hstored : m0 = e0.txMeta.upgradeRelayMethod (p.relayMethod t) := by
      rw [hm0, storedMeta, he0]
    rw [hkept0, hsens0, hstored]
    exact ⟨(hp.entries _ _ he0).relay.kept_of_upgrade, sensitive_of_upgrade⟩
  · intro hno id' e' k he' _ hk hk'
    rcases hspent with hblock | hspent
    · rw [hkept0, upgraded_kept hp hblock hup] at hno
      cases hno
    have hmem := (hp.images k id').mpr ⟨Table.mem_of_getElem? he', hk'⟩
    rcases sets_of_not_spent hspent (ht.lists.vin ▸ hk) with hempty | ⟨hself, -⟩
    · rw [hempty] at hmem
      exact absurd hmem (Finset.notMem_empty _)
    rw [hself] at hmem
    exact (Finset.mem_singleton.mp hmem).symm

theorem storePassed_cases (hp : Consistent P cat surplus p) (ht : t.Promised P cat)
    (hin : SpendsOnce t.tx.vin) (hspent : t.txRelay = .block ∨
      ¬ haveTxKeyimgesAsSpent p.txpool p.spentKeyImages t.tx.vin t.id) (fee : UInt64)
    (receiveTime : Nat) (v : InputsVerdict) :
    (∃ q, p.storePassed P t fee receiveTime v = (q, false) ∧ PoolSteps P cat p 0 q) ∨
    (∃ q, p.storePassed P t fee receiveTime v = (q, true) ∧
      (t.id ∉ p.txpool → ∃ e, q.txpool = p.txpool.insert t.id e ∧
        e.txMeta.getRelayMethod = t.txRelay) ∧
      PoolSteps P cat p 0
        (if t.id ∉ p.txpool then { q with txpoolWeight := q.txpoolWeight + t.weight }
         else q)) := by
  unfold storePassed
  dsimp only
  split
  · rename_i hup
    have hnext : ∀ (q : TxMemoryPool) (m : TxpoolTxMeta),
        ((q.removeTxpoolTx t.id).addTxpoolTx t.id t.blob m).addTxToTransientLists P t.id
          (t.feePerByte P fee) receiveTime =
        addTxToTransientLists P { q with txpool := q.txpool.insert t.id ⟨m, t.blob⟩ } t.id
          (t.feePerByte P fee) receiveTime := by
      intro q m
      simp only [removeTxpoolTx, addTxpoolTx, Table.insert_erase]
    have hrel : p.relayMethod t = .block ∨
        ¬ haveTxKeyimgesAsSpent p.txpool p.spentKeyImages t.tx.vin t.id :=
      hspent.imp_left relayMethod_eq_block.mpr
    rcases store_cases hp ht.lists (passedMeta_replaces hp ht hin hspent hup) hrel
      (fun q => hnext q _) with ⟨-, -, q, heq, hsteps⟩ | ⟨-, q, heq, htxpool, hweight, hsteps⟩
    · exact .inl ⟨q, heq, hsteps⟩
    refine .inr ⟨q, heq, fun hnew => ⟨_, htxpool, upgraded_of_new hnew⟩, ?_⟩
    split
    · rename_i hmem
      refine hsteps (q.txpoolWeight + t.weight) 0 ?_
      rw [hweight, if_neg hmem, ht.weight, Nat.add_zero]
    · rename_i hmem
      refine hsteps q.txpoolWeight 0 ?_
      rw [hweight, if_pos (not_not.mp hmem), Nat.add_zero]
  · rename_i hup
    rw [not_or] at hup
    refine .inr ⟨_, rfl, fun hnew => absurd hnew hup.2, ?_⟩
    rw [if_neg hup.2]
    exact steps (.update (cacheParsed_updates ht.lists))

/-! ### The whole of `add_tx` -/

/-- `mark_double_spend` changes nothing but one flag. -/
theorem markDoubleSpend_updates (p : TxMemoryPool) (vin : List TxinV) :
    Updates cat p { p with txpool := markDoubleSpend p.spentKeyImages vin p.txpool } where
  txpool id := by
    unfold markDoubleSpend
    split
    · rw [ExtTreeMap.getElem?_map]
      cases p.txpool[id]? with
      | none => exact .none
      | some e =>
        refine .some ?_
        split
        · exact ⟨rfl, rfl, rfl, rfl, fun h => h, fun h => h.congr rfl rfl rfl rfl rfl⟩
        · exact ⟨rfl, rfl, rfl, rfl, fun h => h, fun h => h⟩
    · exact (updates_refl p : Updates cat p p).txpool id
  images := rfl
  weight := rfl
  lists := rfl
  reads := le_rfl
  cache _ _ h := .inl h

/-- The weight that a call of `add_tx` counts a second time: the transaction comes from a block, its
inputs fail, and it is in the pool, but not for all to see. -/
def recounted (P : PoolParams) (b : BlockchainAccess) (p : TxMemoryPool) (t : NewTx) : Nat :=
  if t.keptByBlock ∧ (p.checkNewTx P b t).isOk ∧
      ¬ (b.checkTxInputs t.tx t.validInputVerificationId true).passed ∧
      t.id ∈ p.txpool ∧ ¬ txpoolTxMatchesCategory p.txpool t.id .legacy then t.weight
  else 0

theorem recounted_of_not_kept (h : ¬ t.keptByBlock) : p.recounted P b t = 0 :=
  if_neg fun hc => h hc.1

/-- **What `add_tx` can do**: it refuses the transaction, or it stores it and then prunes. -/
theorem addTx_cases (hp : Consistent P cat surplus p) (ht : t.Promised P cat) :
    (∃ err q, p.addTx P b t = (q, .error err) ∧ PoolSteps P cat p (p.recounted P b t) q) ∨
    ∃ added q, p.addTx P b t = (q.pruned P q.txpoolMaxWeight, .ok added) ∧
      PoolSteps P cat p (p.recounted P b t) q ∧
      (t.id ∉ p.txpool → ∀ e, q.txpool[t.id]? = some e → e.txMeta.getRelayMethod = t.txRelay) := by
  unfold addTx
  cases hck : p.checkNewTx P b t with
  | error err =>
    refine .inl ⟨err, p, rfl, ?_⟩
    have h0 : p.recounted P b t = 0 := if_neg fun hc => by
      simp [hck, Except.isOk, Except.toBool] at hc
    rw [h0]
    exact .refl p
  | ok fee =>
    have hin : SpendsOnce t.tx.vin := spendsOnce_of_checkNewTx hck ht.verified
    dsimp only
    split
    · rename_i hspent
      refine .inl ⟨_, _, rfl, ?_⟩
      rw [recounted_of_not_kept hspent.1]
      exact steps (.update (markDoubleSpend_updates p t.tx.vin))
    rename_i hspent
    have hverdict : t.keptByBlock → (p.tick.checkTxInputs b t.tx t.id
        t.validInputVerificationId t.keptByBlock).1 =
        b.checkTxInputs t.tx t.validInputVerificationId true := by
      intro hkept
      rw [hkept]
      rfl
    obtain ⟨checks, cache, hstate⟩ := checkTxInputs_eq b p.tick t.tx t.id
      t.validInputVerificationId t.keptByBlock
    rcases hpair : p.tick.checkTxInputs b t.tx t.id t.validInputVerificationId t.keptByBlock
      with ⟨v, p1⟩
    rw [hpair] at hverdict hstate
    dsimp only at hverdict hstate ⊢
    subst hstate
    set p1 : TxMemoryPool := { p.tick with checks, inputCache := cache }
    have hup : PoolSteps P cat p 0 p1 := steps (.update
      (updates_of_eq rfl rfl rfl rfl (Nat.le_succ _) fun _ _ h => .inl h))
    have hp1 : Consistent P cat surplus p1 := hup.consistent hp
    have hnew : ∀ (q : TxMemoryPool) (e : PoolEntry), q.txpool = p.txpool.insert t.id e →
        e.txMeta.getRelayMethod = t.txRelay → ∀ e', q.txpool[t.id]? = some e' →
        e'.txMeta.getRelayMethod = t.txRelay := by
      intro q e hq he e' he'
      rw [hq, Table.getElem?_insert, if_pos rfl] at he'
      cases he'
      exact he
    split
    · rename_i hrefused
      refine .inl ⟨_, _, rfl, ?_⟩
      rw [recounted_of_not_kept hrefused.2]
      exact hup
    rename_i hrefused
    by_cases hpassed : v.passed
    · have h0 : p.recounted P b t = 0 := if_neg fun hc => by
        rw [← hverdict hc.1] at hc
        exact hc.2.2.1 hpassed
      have hspent1 : t.txRelay = .block ∨
          ¬ haveTxKeyimgesAsSpent p1.txpool p1.spentKeyImages t.tx.vin t.id := by
        by_cases hkept : t.keptByBlock
        · exact .inl (of_decide_eq_true hkept)
        · exact .inr fun h => hspent ⟨hkept, h⟩
      rw [h0]
      rcases storePassed_cases hp1 ht hin hspent1 fee (p.time P) v with
        ⟨q, heq, hsteps⟩ | ⟨q, heq, hrelay, hsteps⟩
      · refine .inl ⟨.keyImages, q, ?_, hup.trans hsteps⟩
        simp [hpassed, heq]
      refine .inr ⟨decide (t.id ∉ p1.txpool), _, ?_, hup.trans hsteps, ?_⟩
      · simp [hpassed, heq]
      · intro hnot e he
        have hnot1 : t.id ∉ p1.txpool := hnot
        rw [if_pos hnot1] at he
        obtain ⟨e1, hq, he1⟩ := hrelay hnot
        exact hnew q e1 hq he1 e he
    · have hkept : t.keptByBlock := by
        by_contra hkept
        exact hrefused ⟨hpassed, hkept⟩
      rcases storeFailed_cases hp1 ht hin (of_decide_eq_true hkept) fee (p.time P) v with
        ⟨hlegacy, q, heq, hsteps⟩ | ⟨hlegacy, q, e, heq, hq, he, hsteps⟩
      · have h0 : p.recounted P b t = 0 := if_neg fun hc => hc.2.2.2.2 hlegacy
        refine .inl ⟨.keyImages, q, ?_, h0 ▸ hup.trans hsteps⟩
        simp [hpassed, heq]
      have hlegacy0 : ¬ txpoolTxMatchesCategory p.txpool t.id .legacy := hlegacy
      have hcount : p.recounted P b t = 0 + if t.id ∈ p.txpool then t.weight else 0 := by
        rw [hverdict hkept] at hpassed
        simp [recounted, hkept, hck, hpassed, hlegacy0, Except.isOk, Except.toBool]
      refine .inr ⟨true, { q with txpoolWeight := q.txpoolWeight + t.weight }, ?_,
        hcount ▸ hup.trans hsteps, fun _ => hnew _ e hq he⟩
      simp [hpassed, heq]

theorem addTx_steps (hp : Consistent P cat surplus p) (ht : t.Promised P cat) :
    PoolSteps P cat p (p.recounted P b t) (p.addTx P b t).1 := by
  rcases addTx_cases (b := b) hp ht with ⟨err, q, heq, hsteps⟩ | ⟨added, q, heq, hsteps, -⟩
  · rw [heq]
    exact hsteps
  rw [heq]
  exact hsteps.trans (pruned_steps (hsteps.consistent hp) q.txpoolMaxWeight)

/-- The relay method of a transaction that was not there before. -/
theorem addTx_relay {added : Bool} (hp : Consistent P cat surplus p)
    (ht : t.Promised P cat) (hnew : t.id ∉ p.txpool) (h : p.addTx P b t = (p', .ok added))
    (he : p'.txpool[t.id]? = some e) : e.txMeta.getRelayMethod = t.txRelay := by
  rcases addTx_cases (b := b) hp ht with ⟨err, q, heq, -⟩ | ⟨added', q, heq, -, hrelay⟩
  · rw [heq] at h
    cases h
  rw [heq] at h
  cases h
  exact hrelay hnew e (getElem?_of_pruned he)

/-! ## Relaying -/

theorem updateTxpoolTx_eq (he : p.txpool[id]? = some e) (m : TxpoolTxMeta) :
    p.updateTxpoolTx id m = { p with txpool := p.txpool.insert id { e with txMeta := m } } := by
  rw [updateTxpoolTx, he]

variable {m : TxpoolTxMeta}

/-- `update_txpool_tx` with meta data of the same transaction. -/
theorem updateTxpoolTx_updates (h : ∀ e, p.txpool[id]? = some e → SameTx e { e with txMeta := m }) :
    Updates cat p (p.updateTxpoolTx id m) := by
  cases he : p.txpool[id]? with
  | none =>
    rw [updateTxpoolTx, he]
    exact updates_refl p
  | some e =>
    rw [updateTxpoolTx_eq he]
    refine ⟨fun id' => ?_, rfl, rfl, rfl, le_rfl, fun _ _ h => .inl h⟩
    rw [Table.getElem?_insert]
    split
    · rename_i heq
      cases heq
      rw [he]
      exact .some (h e he)
    · exact (updates_refl p : Updates cat p p).txpool id'

/-- Listing a transaction of the pool anew, with meta data that hide it from no more clients. -/
theorem relist_puts (hp : Consistent P cat surplus p)
    (he : p.txpool[id]? = some e) (hentry : EntryOk P cat id { e with txMeta := m })
    (hkept : e.txMeta.keptByBlock → m.keptByBlock) (hsens : m.sensitive → e.txMeta.sensitive) :
    Puts P cat p id { e with txMeta := m } 0
      ((p.updateTxpoolTx id m).addTxToTransientLists P id fee receiveTime) := by
  have hmem : id ∈ p.txpool := Table.mem_of_getElem? he
  rw [updateTxpoolTx_eq he]
  refine ⟨⟨hentry, ?_, ?_⟩, rfl, ?_, fun h => h, ?_, ?_, fun _ _ h => .inl h⟩
  · intro e0 he0
    rw [he] at he0
    cases he0
    exact ⟨hkept, hsens⟩
  · intro hno id' e' k he' hno' hk hk'
    have hno0 : e.txMeta.keptByBlock = false := by
      rw [Bool.eq_false_iff] at hno ⊢
      exact fun h => hno (hkept h)
    exact hp.single id id' e e' k he he' hno0 hno' hk hk'
  · intro k
    split
    · rename_i hk
      exact (Finset.insert_eq_self.mpr ((hp.images k id).mpr ⟨hmem, hk⟩)).symm
    · rfl
  · rw [if_pos hmem]
    rfl
  · exact ⟨fee, receiveTime, p.reads, le_rfl, Nat.lt_succ_self _, rfl⟩

/-- Relaying a transaction shows it to more clients, or leaves it as it was. -/
theorem setRelayedOne_steps (hp : Consistent P cat surplus p) (now : Nat) (method : RelayMethod)
    (hash : Hash) : PoolSteps P cat p 0 (setRelayedOne P now method p hash) := by
  unfold setRelayedOne
  cases he : p.txpool[hash]? with
  | none => exact .refl p
  | some e =>
    have hentry := hp.entries hash e he
    set m := p.relayedMeta P now method e.txMeta with hm
    have hsens : m.sensitive → e.txMeta.sensitive := sensitive_of_upgrade
    have hkept : e.txMeta.keptByBlock → m.keptByBlock := hentry.relay.kept_of_upgrade
    have hrelay : m.RelayOk := (hentry.relay.upgrade method).congr rfl rfl rfl rfl rfl
    have hweight : m.weight = e.txMeta.weight := upgradeRelayMethod_weight _ _
    have hpruned : m.pruned = e.txMeta.pruned := upgradeRelayMethod_pruned _ _
    have htick : PoolSteps P cat p 0 p.tick := steps (.update (tick_updates p))
    dsimp only
    split
    · have hnew : EntryOk P cat hash { e with txMeta := m } :=
        ⟨hweight.trans hentry.weight, hpruned.trans hentry.pruned, hentry.readable, hentry.inputs,
          hrelay⟩
      exact htick.trans (steps (.put (relist_puts (htick.consistent hp) he hnew hkept
        hsens)))
    rename_i hvisible
    have hsame : m.sensitive = e.txMeta.sensitive := by
      cases h : m.sensitive with
      | true => rw [hsens h]
      | false =>
        by_contra hne
        exact hvisible ⟨by simpa using Ne.symm hne, Bool.eq_false_iff.mp h⟩
    refine htick.trans (steps (.update (updateTxpoolTx_updates fun e' he' => ?_)))
    cases he.symm.trans he'
    exact ⟨rfl, hweight, hpruned, hsame, hkept, fun _ => hrelay⟩

/-- Turns of a loop are steps if each is. -/
theorem foldl_steps {α : Type} {f : TxMemoryPool → α → TxMemoryPool} {l : List α}
    (hf : ∀ (q : TxMemoryPool), ∀ a ∈ l, Consistent P cat surplus q → PoolSteps P cat q 0 (f q a))
    (hp : Consistent P cat surplus p) : PoolSteps P cat p 0 (l.foldl f p) :=
  foldlRecOn l f (.refl p) fun q hsteps a ha => hsteps.trans (hf q a ha (hsteps.consistent hp))

theorem setRelayed_steps (hp : Consistent P cat surplus p) (hashes : List Hash)
    (method : RelayMethod) : PoolSteps P cat p 0 (p.setRelayed P hashes method) := by
  have htick : PoolSteps P cat p 0 p.tick := steps (.update (tick_updates p))
  exact htick.trans (foldl_steps (fun q hash _ hq => setRelayedOne_steps hq _ method hash)
    (htick.consistent hp))

/-! ## Transactions that are stuck -/

/-- The second loop of `remove_stuck_transactions` does not look at what the first one changes. -/
theorem foldl_removeStuck (remove : List (Hash × Nat)) (p : TxMemoryPool) (lists : TransientLists)
    (reads : Nat) (timedOutTransactions : Finset Hash) :
    remove.foldl removeStuck { p with lists, reads, timedOutTransactions } =
      { remove.foldl removeStuck p with lists, reads, timedOutTransactions } := by
  refine foldl_hom (fun p : TxMemoryPool => { p with lists, reads, timedOutTransactions })
    fun p x => ?_
  unfold removeStuck
  dsimp only
  split
  · rfl
  · split <;> rfl

theorem foldl_removeStuck_frame (remove : List (Hash × Nat)) (p : TxMemoryPool) :
    (remove.foldl removeStuck p).lists = p.lists ∧ (remove.foldl removeStuck p).reads = p.reads ∧
      (remove.foldl removeStuck p).timedOutTransactions = p.timedOutTransactions := by
  have h := foldl_removeStuck remove p p.lists p.reads p.timedOutTransactions
  have hlists := congrArg TxMemoryPool.lists h
  have hreads := congrArg TxMemoryPool.reads h
  have htimed := congrArg TxMemoryPool.timedOutTransactions h
  exact ⟨hlists, hreads, htimed⟩

/-- **The two loops of `remove_stuck_transactions` together**: what the second loop makes of the
state of the first goes, turn by turn, through the removals of whole transactions. -/
theorem findStuck_steps {entries : List (Hash × PoolEntry)} {remove : List (Hash × Nat)}
    (hv : Consistent P cat surplus (remove.foldl removeStuck p))
    (hin : ∀ x ∈ entries, (remove.foldl removeStuck p).txpool[x.1]? = some x.2)
    (hnodup : (entries.map Prod.fst).Nodup) :
    PoolSteps P cat (remove.foldl removeStuck p) 0
      ((findStuck P entries (p, remove)).2.foldl removeStuck
        (findStuck P entries (p, remove)).1) := by
  induction entries generalizing p remove with
  | nil => exact .refl _
  | cons x entries ih =>
    obtain ⟨txid, e⟩ := x
    set v := remove.foldl removeStuck p with hvdef
    obtain ⟨hlists, hreads, htimed⟩ := foldl_removeStuck_frame remove p
    rw [← hvdef] at hlists hreads htimed
    have he : v.txpool[txid]? = some e := hin (txid, e) mem_cons_self
    rw [map_cons, nodup_cons] at hnodup
    unfold findStuck
    split
    · -- the transaction is outdated
      set p1 : TxMemoryPool :=
        { p.tick.removeTxFromTransientLists P txid e.txMeta.sensitive with
          timedOutTransactions := insert txid p.timedOutTransactions } with hp1
      have hv1 : (remove ++ [(txid, e.txMeta.weight)]).foldl removeStuck p1 =
          removeStuck { v with
            lists := p1.lists
            reads := p1.reads
            timedOutTransactions := p1.timedOutTransactions } (txid, e.txMeta.weight) := by
        rw [foldl_append, hvdef, ← foldl_removeStuck]
        rfl
      obtain ⟨tx, htx, hvin⟩ := (hv.entries txid e he).readable.head
      have hrem : Removes P cat v txid e
          ((remove ++ [(txid, e.txMeta.weight)]).foldl removeStuck p1) := by
        rw [hv1, removeStuck]
        dsimp only
        rw [he]
        dsimp only
        rw [htx]
        refine ⟨he, rfl, hvin ▸ rfl, rfl, ⟨p.reads + 1, ?_, ?_, ?_⟩, rfl⟩
        · omega
        · exact Nat.lt_succ_self _
        · rw [hlists]
          rfl
      refine (steps (.remove hrem)).trans (ih (hrem.consistent hv) ?_ hnodup.2)
      intro y hy
      have hne : txid ≠ y.1 := fun h => hnodup.1 (mem_map.mpr ⟨y, hy, h.symm⟩)
      rw [hrem.txpool, Table.getElem?_erase, if_neg hne]
      exact hin y (mem_cons_of_mem _ hy)
    · have htick : remove.foldl removeStuck p.tick = v.tick := by
        have h := foldl_removeStuck remove p p.lists (p.reads + 1) p.timedOutTransactions
        refine h.trans ?_
        simp only [tick, ← hvdef, hlists, hreads, htimed]
      have hstep : PoolSteps P cat v 0 v.tick := steps (.update (tick_updates v))
      refine hstep.trans (m := 0) ?_
      rw [← htick]
      refine ih (htick ▸ hstep.consistent hv) ?_ hnodup.2
      rw [htick]
      exact fun y hy => hin y (mem_cons_of_mem _ hy)

variable {txpool : PoolTable}

theorem mem_toList {x : Hash × PoolEntry} : x ∈ txpool.toList ↔ txpool[x.1]? = some x.2 :=
  ExtTreeMap.mem_toList_iff_getElem?_eq_some

theorem nodup_toList : (txpool.toList.map Prod.fst).Nodup := by
  rw [ExtTreeMap.map_fst_toList_eq_keys]
  exact ExtTreeMap.nodup_keys

theorem removeStuckTransactions_steps (hp : Consistent P cat surplus p) :
    PoolSteps P cat p 0 (p.removeStuckTransactions P) :=
  @findStuck_steps P cat surplus p _ [] hp (fun _ => mem_toList.mp) nodup_toList

/-! ## Validating -/

/-- The call of `add_tx` for a transaction that was taken out keeps the promises. -/
theorem revalidated_promised {e0 : PoolEntry} (hversion : version ≠ 0)
    (hentry : EntryOk P cat id e) (he0 : EntryOk P cat id e0) (hlists : cat.Lists id tx) :
    (revalidated version id e.txMeta (some ⟨tx, e0.blob, e0.txMeta⟩)).Promised P cat where
  lists := hlists
  weight := hentry.weight
  readable := he0.readable
  verified h := absurd h hversion

/-- A transaction that could not be taken out is refused. -/
theorem addTx_revalidated_none (P : PoolParams) (b : BlockchainAccess) (p : TxMemoryPool)
    (id : Hash)
    (m : TxpoolTxMeta) (hversion : version ≠ 0) :
    ∃ err, p.addTx P b (revalidated version id m none) = (p, .error err) := by
  have hck : ∃ err, p.checkNewTx P b (revalidated version id m none) = .error err := by
    unfold checkNewTx
    split
    · exact ⟨_, rfl⟩
    rw [if_pos ⟨hversion, fun h => (spendsOnce_of_nicPasses h).nonempty rfl⟩]
    exact ⟨_, rfl⟩
  obtain ⟨err, hck⟩ := hck
  exact ⟨err, by rw [addTx, hck]⟩

theorem validateOne_steps (hversion : version ≠ 0) (hp : Consistent P cat surplus p)
    (hentry : EntryOk P cat id e) : PoolSteps P cat p 0 (validateOne P b version p (id, e)) := by
  unfold validateOne
  rcases takeTx_cases hp id with ⟨-, htake⟩ | ⟨e0, tx, p1, hrem, hlists, htake⟩
  · rw [htake]
    obtain ⟨err, hadd⟩ := addTx_revalidated_none P b p id e.txMeta hversion
    dsimp only
    rw [hadd]
    exact .refl p
  rw [htake]
  dsimp only
  have hp1 := hrem.consistent hp
  have htaken : PoolSteps P cat p 0 p1 := steps (.remove hrem)
  have ht := revalidated_promised hversion hentry (hp.entries id e0 hrem.stored) hlists
  set t := revalidated version id e.txMeta (some ⟨tx, e0.blob, e0.txMeta⟩) with htdef
  have hnew : t.id ∉ p1.txpool := by
    rw [hrem.txpool]
    exact Table.not_mem_erase _ _
  have hadd : PoolSteps P cat p1 0 (p1.addTx P b t).1 := by
    have h := addTx_steps (b := b) hp1 ht
    rwa [recounted, if_neg fun hc => hnew hc.2.2.2.1] at h
  rcases hres : p1.addTx P b t with ⟨p2, res⟩
  rw [hres] at hadd
  cases res with
  | error err => exact htaken.trans hadd
  | ok added =>
    have hp2 := hadd.consistent hp1
    refine (htaken.trans hadd).trans (m := 0)
      (steps (.update (updateTxpoolTx_updates fun e2 he2 => ?_)))
    -- the relay method is the one it had
    have hrelay : e2.txMeta.getRelayMethod = e.txMeta.getRelayMethod :=
      addTx_relay hp1 ht hnew hres he2
    have hentry2 := hp2.entries id e2 he2
    refine ⟨rfl, ?_, ?_, ?_, ?_, fun _ => hentry.relay⟩
    · exact hentry.weight.trans hentry2.weight.symm
    · exact hentry.pruned.trans hentry2.pruned.symm
    · unfold sensitive matchesRelay
      rw [hrelay]
    · rw [hentry.relay.keptByBlock, hentry2.relay.keptByBlock, hrelay]
      exact fun h => h

theorem validate_steps (hversion : version ≠ 0)
    (hp : Consistent P cat surplus p) : PoolSteps P cat p 0 (p.validate P b version) := by
  have hforget : PoolSteps P cat p 0 { p with lists := p.lists.forget } :=
    steps (.forget p)
  refine hforget.trans (m := 0) (foldl_steps (fun q x hx hq => ?_) (hforget.consistent hp))
  have he := mem_toList.mp (mem_of_mem_filter hx)
  exact validateOne_steps hversion hq (hp.entries x.1 x.2 he)

theorem onBlockchainChange_steps (p : TxMemoryPool) : PoolSteps P cat p 0 p.onBlockchainChange :=
  steps (.update (updates_of_eq rfl rfl rfl rfl le_rfl fun id tx h => by
    simp [onBlockchainChange] at h))

end TxMemoryPool

end Hashmonkey.Pool
