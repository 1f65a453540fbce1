import Hashmonkey.Wallet.Moves

/-!
# Runs of a wallet (`wallet2.cpp`)

A wallet that is kept up to date goes through transactions in blocks and in the pool, new blocks,
reorganisations, checks of its own pending transactions, and transactions that it sends.

* `WalletEvent`: one of these. A call that throws leaves the wallet as it is then, and the next
  refresh goes on from there;
* `WalletRun`: the states of a wallet, the last one first;
* `PubIndexed`, `KeyIndexed`: the two maps have the places of the transfers, and nothing else.

Results: a block is a sequence of events (`processNewBlockchainEntry_events`), and in an ordinary
wallet the map of the public keys is exact in every run (`WalletRun.pubIndexed`), as is the map of
the key images unless two outputs with different keys have the same one (`WalletRun.keyIndexed`).
-/

open Hashmonkey.Core

namespace Hashmonkey.Wallet

open Basic Crypto Db Lib Ringct Serialization List TransferDetails

variable {a : Account} {c : TxContext} {w w' : Wallet2}

/-! ## Events -/

/-- What happens to a wallet. -/
inductive WalletEvent
  /-- a transaction in the next block, or one in the pool -/
  | transaction (c : TxContext)
  /-- the transactions of the next block are done -/
  | newBlock (id : Hash)
  /-- an own transaction is looked up in the pool -/
  | unconfirmed (incremental : Bool) (txid : Hash) (seenInPool : Bool) (now : Nat)
      (refreshed : Bool)
  | reorg (height : Nat)
  | commit (ptx : PendingTx)

/-- The height that goes with a transaction. -/
def WalletEvent.Enabled (w : Wallet2) : WalletEvent → Prop
  | .transaction c => c.height = if c.pool then 0 else w.blockchain.size
  | _ => True

/-- The wallet after an event. -/
def WalletEvent.apply (a : Account) (w : Wallet2) : WalletEvent → Wallet2
  | .transaction c => left (processNewTransaction a c w)
  | .newBlock id => { w with blockchain := w.blockchain.pushBack id }
  | .unconfirmed incremental txid seenInPool now refreshed =>
    w.processUnconfirmedTransfer incremental txid seenInPool now refreshed
  | .reorg height => left (w.handleReorg height)
  | .commit ptx => left (w.commitTx a ptx)

/-- The states that a new wallet goes through, the last one first. -/
inductive WalletRun (a : Account) : List Wallet2 → Prop
  | start {w : Wallet2} (htransfers : w.transfers = []) (hkeyImages : w.keyImages = ∅)
      (hpubKeys : w.pubKeys = ∅) : WalletRun a [w]
  | step {w : Wallet2} {ws : List Wallet2} (h : WalletRun a (w :: ws)) (e : WalletEvent)
      (he : e.Enabled w) : WalletRun a (e.apply a w :: w :: ws)

instance (w : Wallet2) : (e : WalletEvent) → Decidable (e.Enabled w)
  | .transaction c => inferInstanceAs (Decidable (c.height = _))
  | .newBlock _ => .isTrue trivial
  | .unconfirmed .. => .isTrue trivial
  | .reorg _ => .isTrue trivial
  | .commit _ => .isTrue trivial

/-- The wallet after a list of events. -/
def runEvents (a : Account) (w : Wallet2) (es : List WalletEvent) : Wallet2 :=
  es.foldl (WalletEvent.apply a) w

/-- Each event is possible when it comes. -/
def allEnabled (a : Account) : Wallet2 → List WalletEvent → Bool
  | _, [] => true
  | w, e :: es => decide (e.Enabled w) && allEnabled a (e.apply a w) es

variable {ws : List Wallet2}

theorem runEvents_run (h : WalletRun a (w :: ws)) {es : List WalletEvent}
    (hes : allEnabled a w es = true) : ∃ ws', WalletRun a (runEvents a w es :: ws') := by
  induction es generalizing w ws with
  | nil => exact ⟨ws, h⟩
  | cons e es ih =>
    rw [allEnabled, Bool.and_eq_true, decide_eq_true_eq] at hes
    exact ih (.step h e hes.1) hes.2

/-- One event, whichever. -/
def EventStep (a : Account) (w w' : Wallet2) : Prop :=
  ∃ e : WalletEvent, e.Enabled w ∧ w' = e.apply a w

theorem multisigRescan_blockchain (w : Wallet2) :
    (w.multisigRescan a).blockchain = w.blockchain := by
  unfold Wallet2.multisigRescan
  split <;> rfl

theorem Move.blockchain (h : Move a c w w') : w'.blockchain = w.blockchain := by
  cases h with
  | other h => exact h.blockchain
  | push => exact multisigRescan_blockchain _
  | replace => exact multisigRescan_blockchain _
  | spend => rfl

theorem Moves.blockchain (h : Moves a c w w') : w'.blockchain = w.blockchain := by
  induction h with
  | refl => rfl
  | tail _ hmove ih => exact hmove.blockchain.trans ih

theorem processTransactions_events {txs : List TxContext} {height : Nat}
    (htxs : ∀ c ∈ txs, c.pool = false ∧ c.height = height) (hheight : height = w.blockchain.size) :
    Leaves id (fun w' => Relation.ReflTransGen (EventStep a) w w' ∧ w'.blockchain = w.blockchain)
      (processTransactions a txs w) := by
  induction txs generalizing w with
  | nil => exact ⟨.refl, rfl⟩
  | cons c txs ih =>
    obtain ⟨⟨hpool, hc⟩, hrest⟩ := forall_mem_cons.mp htxs
    have hchain := (processNewTransaction_moves a c w).blockchain
    have hone : EventStep a w (left (processNewTransaction a c w)) := by
      refine ⟨.transaction c, ?_, rfl⟩
      change c.height = if c.pool then 0 else w.blockchain.size
      rw [hpool, hc]
      exact hheight
    rw [processTransactions]
    cases hw : processNewTransaction a c w with
    | error f =>
      rw [hw] at hone hchain
      exact ⟨.single hone, hchain⟩
    | ok w1 =>
      rw [hw] at hone hchain
      have hrun := ih (w := w1) hrest (hheight.trans (congrArg Hashchain.size hchain.symm))
      exact hrun.imp fun w' hw' => ⟨.head hone hw'.1, hw'.2.trans hchain⟩

/-- **A block is a sequence of events**: its transactions, and its id. -/
theorem processNewBlockchainEntry_events (a : Account) (b : BlockEntry) (w : Wallet2) :
    Relation.ReflTransGen (EventStep a) w (left (processNewBlockchainEntry a b w)) := by
  have hblock : ∀ w : Wallet2,
      EventStep a w { w with blockchain := w.blockchain.pushBack b.id } :=
    fun w => ⟨.newBlock b.id, trivial, rfl⟩
  refine leaves_left ?_
  unfold processNewBlockchainEntry
  split
  · exact .refl
  split
  · exact .refl
  rename_i hheight
  rw [not_not] at hheight
  split
  · exact .single (hblock w)
  have hminer : Leaves id
      (fun w' => Relation.ReflTransGen (EventStep a) w w' ∧ w'.blockchain = w.blockchain)
      (if a.refreshType ≠ .noCoinbase then
        processNewTransaction a (b.minerTx.inBlock b.height true) w else .ok w) := by
    split
    · have hone := @processTransactions_events a w [b.minerTx.inBlock b.height true] b.height
        (by simp [TxContext.inBlock]) hheight
      rw [processTransactions] at hone
      cases hw : processNewTransaction a (b.minerTx.inBlock b.height true) w with
      | error f =>
        rw [hw] at hone
        exact hone
      | ok w1 =>
        rw [hw] at hone
        exact hone
    · exact ⟨.refl, rfl⟩
  split
  · rename_i hw
    rw [hw] at hminer
    exact hminer.1
  rename_i w1 hw
  rw [hw] at hminer
  obtain ⟨hevents, hchain⟩ := hminer
  split
  · exact hevents
  have htxs := @processTransactions_events a w1
    (b.txs.map fun c => c.inBlock b.height false) b.height
    (by simp [TxContext.inBlock]) (hheight.trans (congrArg Hashchain.size hchain.symm))
  split
  · rename_i hw2
    rw [hw2] at htxs
    exact hevents.trans htxs.1
  · rename_i w2 hw2
    rw [hw2] at htxs
    exact (hevents.trans htxs.1).tail (hblock w2)

/-! ## Keys of transfers -/

/-- A wallet with its spend key, of one signer, that is not in the background. -/
structure Ordinary (a : Account) : Prop where
  watchOnly : a.watchOnly = false
  multisig : a.multisig = false
  backgroundSyncing : a.backgroundSyncing = false

/-- What the maps depend on. -/
def TransferDetails.keys (td : TransferDetails) : Option PublicKey × KeyImage × Bool × Bool :=
  (td.getPublicKey, td.keyImage, td.keyImageKnown, td.keyImagePartial)

/-- `m_pub_keys` has the places of the transfers. -/
structure PubIndexed (w : Wallet2) : Prop where
  index : Indexes w.pubKeys getPublicKey w.transfers
  /-- the key images are known as well -/
  known : ∀ td ∈ w.transfers, td.getPublicKey ≠ none ∧ td.keyImageKnown = true ∧
    td.keyImagePartial = false

/-- `m_key_images` has the places of the transfers. -/
def KeyIndexed (w : Wallet2) : Prop :=
  Indexes w.keyImages (fun td => some td.keyImage) w.transfers

/-- Two outputs with different public keys have the same key image. -/
def Collides (w : Wallet2) : Prop :=
  ∃ td ∈ w.transfers, ∃ td' ∈ w.transfers, td.getPublicKey ≠ td'.getPublicKey ∧
    td.keyImage = td'.keyImage

/-- The keys of the transfers are the same. -/
def SameKeys (w w' : Wallet2) : Prop :=
  w'.transfers.map TransferDetails.keys = w.transfers.map TransferDetails.keys

theorem of_keys_eq {td : TransferDetails} {k : Option PublicKey × KeyImage × Bool × Bool}
    (h : td.keys = k) : td.getPublicKey = k.1 ∧ td.keyImage = k.2.1 ∧
      td.keyImageKnown = k.2.2.1 ∧ td.keyImagePartial = k.2.2.2 := by
  subst h
  exact ⟨rfl, rfl, rfl, rfl⟩

theorem SameKeys.mem (h : SameKeys w w') {td : TransferDetails} (htd : td ∈ w'.transfers) :
    ∃ td0 ∈ w.transfers, td.keys = td0.keys :=
  mem_of_map_eq h htd

theorem SameKeys.map (h : SameKeys w w') {β : Type}
    (g : Option PublicKey × KeyImage × Bool × Bool → β) :
    w'.transfers.map (fun td => g td.keys) = w.transfers.map fun td => g td.keys := by
  have hmap := congrArg (List.map g) h
  rwa [map_map, map_map] at hmap

theorem PubIndexed.congr (h : PubIndexed w) (hp : w'.pubKeys = w.pubKeys) (hk : SameKeys w w') :
    PubIndexed w' where
  index := by
    rw [hp]
    exact h.index.congr (hk.map fun k => k.1)
  known := by
    intro td htd
    obtain ⟨td0, htd0, heq⟩ := hk.mem htd
    obtain ⟨hpub, -, hknown, hpartial⟩ := of_keys_eq heq
    rw [hpub, hknown, hpartial]
    exact h.known td0 htd0

theorem KeyIndexed.congr (h : KeyIndexed w) (hk : w'.keyImages = w.keyImages)
    (hkeys : SameKeys w w') : KeyIndexed w' := by
  unfold KeyIndexed
  rw [hk]
  exact Indexes.congr h (hkeys.map fun k => some k.2.1)

theorem Collides.congr (h : Collides w) (hk : SameKeys w w') : Collides w' := by
  obtain ⟨td, htd, td', htd', hpub, himage⟩ := h
  have hback : SameKeys w' w := Eq.symm hk
  obtain ⟨td1, htd1, heq⟩ := hback.mem htd
  obtain ⟨td2, htd2, heq'⟩ := hback.mem htd'
  obtain ⟨h1, h3, -⟩ := of_keys_eq heq
  obtain ⟨h2, h4, -⟩ := of_keys_eq heq'
  rw [h1, h2] at hpub
  rw [h3, h4] at himage
  exact ⟨td1, htd1, td2, htd2, hpub, himage⟩

/-- The keys of the transfers and the maps are the same. -/
structure KeepsKeys (w w' : Wallet2) : Prop where
  keys : SameKeys w w'
  pubKeys : w'.pubKeys = w.pubKeys
  keyImages : w'.keyImages = w.keyImages

theorem KeepsKeys.refl (w : Wallet2) : KeepsKeys w w := ⟨rfl, rfl, rfl⟩

theorem PubIndexed.keeps (h : PubIndexed w) (hk : KeepsKeys w w') : PubIndexed w' :=
  h.congr hk.pubKeys hk.keys

/-! ## Moves keep the maps -/

theorem multisigRescan_ordinary (ha : Ordinary a) (w : Wallet2) : w.multisigRescan a = w := by
  unfold Wallet2.multisigRescan
  rw [ha.multisig]
  rfl

theorem getPublicKey_eq {td : TransferDetails} {o : Nat} {out : TxOut} {key : PublicKey}
    (htx : td.tx = c.tx.toTransactionPrefix) (ho : td.internalOutputIndex = o)
    (hout : c.tx.vout[o]? = some out) (hpub : getOutputPublicKey out = some key) :
    td.getPublicKey = some key := by
  rw [getPublicKey, htx, ho, hout]
  exact hpub

/-- The transfer that is put at the end. -/
theorem pushTransfer_ordinary (ha : Ordinary a) {k o : Nat} {out : TxOut}
    {globalIndex amount : UInt64} {index : SubaddressIndex} {info : TxScanInfo}
    (hout : c.tx.vout[o]? = some out) (hpub : getOutputPublicKey out = some info.pub) :
    ∃ td : TransferDetails, td.keys = (some info.pub, info.ki, true, false) ∧
      (w.pushTransfer a c k o out globalIndex amount index info).transfers = w.transfers ++ [td] ∧
      (w.pushTransfer a c k o out globalIndex amount index info).keyImages =
        w.keyImages.insert info.ki w.transfers.length ∧
      (w.pushTransfer a c k o out globalIndex amount index info).pubKeys =
        w.pubKeys.insert info.pub w.transfers.length := by
  have hki : newKeyImage a info = (info.ki, true) := by
    unfold newKeyImage
    rw [ha.watchOnly, ha.multisig, ha.backgroundSyncing]
    rfl
  unfold Wallet2.pushTransfer
  rw [hki]
  rw [multisigRescan_ordinary ha, ha.multisig]
  refine ⟨_, ?_, rfl, rfl, rfl⟩
  refine Prod.ext ?_ rfl
  exact getPublicKey_eq rfl rfl hout hpub

/-- A transfer takes the place of one with the same key. -/
theorem replaceTransfer_keys (ha : Ordinary a) (h : PubIndexed w) {place k o : Nat} {out : TxOut}
    {globalIndex amount : UInt64} {index : SubaddressIndex} {info : TxScanInfo}
    (hout : c.tx.vout[o]? = some out) (hpub : getOutputPublicKey out = some info.pub)
    (hplace : w.pubKeys[info.pub]? = some place) :
    KeepsKeys w (w.replaceTransfer a c place k o out globalIndex amount index info) := by
  unfold Wallet2.replaceTransfer
  rw [multisigRescan_ordinary ha]
  refine ⟨map_modify_congr fun td htd => ?_, rfl, rfl⟩
  obtain ⟨td0, htd0, hkey⟩ := (h.index info.pub place).mp hplace
  obtain rfl : td0 = td := Option.some.inj (htd0.symm.trans htd)
  refine Prod.ext ?_ rfl
  exact (getPublicKey_eq rfl rfl hout hpub).trans hkey.symm

theorem Move.pubIndexed (ha : Ordinary a) (hmove : Move a c w w') (h : PubIndexed w) :
    PubIndexed w' := by
  cases hmove with
  | other hsame => exact h.congr hsame.pubKeys (congrArg _ hsame.transfers)
  | @push k o out globalIndex amount index info hpool hout hpub hnew =>
    obtain ⟨td, hkeys, htransfers, _, hpubKeys⟩ :=
      @pushTransfer_ordinary a c w ha k o out globalIndex amount index info hout hpub
    obtain ⟨hkey, -, hknown, hpartial⟩ := of_keys_eq hkeys
    refine ⟨?_, fun td' htd' => ?_⟩
    · rw [htransfers, hpubKeys]
      exact h.index.append hkey hnew
    · rw [htransfers] at htd'
      rcases mem_append.mp htd' with hold | hlast
      · exact h.known td' hold
      rw [mem_singleton.mp hlast]
      exact ⟨by rw [hkey]; exact Option.some_ne_none _, hknown, hpartial⟩
  | replace hpool hout hpub hplace htd hspent =>
    exact h.keeps (replaceTransfer_keys ha h hout hpub hplace)
  | spend hin hplace htd => exact h.congr rfl (map_modify_congr fun _ _ => rfl)

/-- Either the map of the key images is exact, or there is a collision. -/
theorem Move.keyIndexed (ha : Ordinary a) (hmove : Move a c w w') (hp : PubIndexed w)
    (h : Collides w ∨ KeyIndexed w) : Collides w' ∨ KeyIndexed w' := by
  have hkeep : KeepsKeys w w' → Collides w' ∨ KeyIndexed w' := fun hk =>
    h.imp (fun hc => hc.congr hk.keys) fun hi => hi.congr hk.keyImages hk.keys
  cases hmove with
  | other hsame => exact hkeep ⟨congrArg _ hsame.transfers, hsame.pubKeys, hsame.keyImages⟩
  | @push k o out globalIndex amount index info hpool hout hpub hnew =>
    obtain ⟨td, hkeys, htransfers, hkeyImages, _⟩ :=
      @pushTransfer_ordinary a c w ha k o out globalIndex amount index info hout hpub
    obtain ⟨hkey, himage, -⟩ := of_keys_eq hkeys
    have hin : ∀ td0 ∈ w.transfers, td0 ∈ w.transfers ++ [td] :=
      fun td0 h0 => mem_append_left _ h0
    unfold Collides KeyIndexed
    rw [htransfers, hkeyImages]
    rcases h with ⟨td1, htd1, td2, htd2, hdiff⟩ | hindex
    · exact .inl ⟨td1, hin td1 htd1, td2, hin td2 htd2, hdiff⟩
    cases hold : w.keyImages[info.ki]? with
    | none => exact .inr (Indexes.append hindex (congrArg some himage) hold)
    | some j =>
      -- another output has the key image, and it has not this public key
      obtain ⟨td0, htd0, hsame⟩ := (hindex info.ki j).mp hold
      have hmem := mem_of_getElem? htd0
      refine .inl ⟨td0, hin td0 hmem, td, mem_append_right _ mem_cons_self, ?_, ?_⟩
      · rw [hkey]
        exact hp.index.ne_of_none hnew hmem
      · rw [himage]
        exact Option.some.inj hsame
  | replace hpool hout hpub hplace htd hspent =>
    exact hkeep (replaceTransfer_keys ha hp hout hpub hplace)
  | spend hin hplace htd => exact hkeep ⟨map_modify_congr fun _ _ => rfl, rfl, rfl⟩

theorem Moves.indexed (ha : Ordinary a) (hmoves : Moves a c w w') (hp : PubIndexed w) :
    PubIndexed w' ∧ (Collides w ∨ KeyIndexed w → Collides w' ∨ KeyIndexed w') := by
  induction hmoves with
  | refl => exact ⟨hp, id⟩
  | tail _ hmove ih =>
    exact ⟨hmove.pubIndexed ha ih.1, fun h => hmove.keyIndexed ha ih.1 (ih.2 h)⟩

/-! ## Detaching -/

theorem keys_resetSpent (td : TransferDetails) (height : Nat) :
    (td.resetSpent height).keys = td.keys := by
  unfold resetSpent
  split <;> rfl

theorem sameKeys_resetSpent (w : Wallet2) (height : Nat) : SameKeys w (w.resetSpent height) := by
  unfold SameKeys Wallet2.resetSpent
  rw [map_map]
  exact map_congr_left fun td _ => keys_resetSpent td height

/-- A loop over the transfers from place `j` on that erases the key of each. -/
theorem erase_indexes {f : TransferDetails → Option (Blob 32)}
    {erase : List TransferDetails → Places → Except (WalletError × Places) Places}
    {l tds : List TransferDetails} {n j : Nat} {m : Places} (hnil : ∀ m, erase [] m = .ok m)
    (hcons : ∀ td ∈ l, ∃ key, f td = some key ∧
      ∀ tds, ∀ m : Places, key ∈ m → erase (td :: tds) m = erase tds (m.erase key))
    (hdrop : l.drop j = tds) (hnj : n ≤ j) (h : IndexesOn m f l fun i => i < n ∨ j ≤ i) :
    ∃ m', erase tds m = .ok m' ∧ Indexes m' f (l.take n) := by
  induction tds generalizing j m with
  | nil => exact ⟨m, hnil m, h.erased (drop_eq_nil_iff.mp hdrop)⟩
  | cons td tds ih =>
    have htd : l[j]? = some td := by
      rw [← head?_drop, hdrop]
      rfl
    obtain ⟨key, hkey, hstep⟩ := hcons td (mem_of_getElem? htd)
    obtain ⟨hmem, hnext⟩ := h.erase_next hnj htd hkey
    rw [hstep tds m hmem]
    refine ih ?_ (Nat.le_succ_of_le hnj) hnext
    rw [← tail_drop, hdrop]
    rfl

/-- The wallet after the blocks from a height on were detached, up to the two maps. -/
def Wallet2.detached (w : Wallet2) (height : Nat) (keyImages pubKeys : Places) : Wallet2 :=
  { w with
    keyImages
    pubKeys
    transfers := (w.resetSpent height).transfers.take ((w.resetSpent height).detachStart height)
    blockchain := w.blockchain.detach height
    payments := w.payments.filter fun p => p.2.blockHeight < height
    confirmedTxs := w.confirmedTxs.filter fun _ d => d.blockHeight < height }

theorem indexesOn_start {m : Places} {f : TransferDetails → Option (Blob 32)}
    {l : List TransferDetails} (h : Indexes m f l) (n : Nat) :
    IndexesOn m f l fun i => i < n ∨ n ≤ i :=
  h.on.restrict fun i _ => iff_of_true trivial (Nat.lt_or_ge i n)

theorem KeyIndexed.erase (h : KeyIndexed w) (hpub : PubIndexed w) (n : Nat) :
    ∃ m, eraseKeyImages (w.transfers.drop n) w.keyImages = .ok m ∧
      Indexes m (fun td => some td.keyImage) (w.transfers.take n) := by
  refine erase_indexes (fun _ => rfl) (fun td htd => ⟨_, rfl, fun tds m hmem => ?_⟩) rfl
    (Nat.le_refl n) (indexesOn_start h n)
  obtain ⟨-, hknown, hpartial⟩ := hpub.known td htd
  rw [eraseKeyImages, if_neg (by simp [hknown, hpartial]), if_neg (not_not.mpr hmem)]

theorem PubIndexed.erase (h : PubIndexed w) (n : Nat) :
    ∃ m, erasePubKeys (w.transfers.drop n) w.pubKeys = .ok m ∧
      Indexes m getPublicKey (w.transfers.take n) := by
  refine erase_indexes (fun _ => rfl) (fun td htd => ?_) rfl (Nat.le_refl n)
    (indexesOn_start h.index n)
  obtain ⟨key, hkey⟩ := Option.ne_none_iff_exists'.mp (h.known td htd).1
  refine ⟨key, hkey, fun tds m hmem => ?_⟩
  rw [erasePubKeys, hkey]
  exact if_neg (not_not.mpr hmem)

/-- **Detaching**: if both maps are exact, nothing is thrown, and they are exact afterwards. -/
theorem detachBlockchain_ok (hpub : PubIndexed w) (hkey : KeyIndexed w) (height : Nat) :
    ∃ keyImages pubKeys, w.detachBlockchain height = .ok (w.detached height keyImages pubKeys) ∧
      PubIndexed (w.detached height keyImages pubKeys) ∧
      KeyIndexed (w.detached height keyImages pubKeys) := by
  have hpub' : PubIndexed (w.resetSpent height) := hpub.congr rfl (sameKeys_resetSpent w height)
  have hkey' : KeyIndexed (w.resetSpent height) := hkey.congr rfl (sameKeys_resetSpent w height)
  obtain ⟨keyImages, hki, hindex⟩ := hkey'.erase hpub' ((w.resetSpent height).detachStart height)
  obtain ⟨pubKeys, hpk, hindex'⟩ := hpub'.erase ((w.resetSpent height).detachStart height)
  refine ⟨keyImages, pubKeys, ?_, ⟨hindex', fun td htd => ?_⟩, hindex⟩
  · unfold Wallet2.detachBlockchain
    dsimp only
    rw [hki]
    dsimp only
    rw [hpk]
    rfl
  · exact hpub'.known td (mem_of_mem_take htd)

/-- The map of the public keys is exact whatever happens to the other one. -/
theorem detachBlockchain_pub (hpub : PubIndexed w) (height : Nat) :
    PubIndexed (left (w.detachBlockchain height)) := by
  have hpub' : PubIndexed (w.resetSpent height) := hpub.congr rfl (sameKeys_resetSpent w height)
  obtain ⟨pubKeys, hpk, hindex⟩ := hpub'.erase ((w.resetSpent height).detachStart height)
  unfold Wallet2.detachBlockchain
  dsimp only
  split
  · exact hpub'.congr rfl rfl
  rw [hpk]
  exact ⟨hindex, fun td htd => hpub'.known td (mem_of_mem_take htd)⟩

/-! ## Runs keep the maps -/

/-- Only spent flags have changed, as far as the transfers, their maps and the blocks go. -/
structure OnlyFlags (w w' : Wallet2) : Prop where
  transfers : w'.transfers.map setUnspent = w.transfers.map setUnspent
  pubKeys : w'.pubKeys = w.pubKeys
  keyImages : w'.keyImages = w.keyImages
  blockchain : w'.blockchain = w.blockchain

theorem OnlyFlags.refl (w : Wallet2) : OnlyFlags w w := ⟨rfl, rfl, rfl, rfl⟩

theorem OnlyFlags.trans {w'' : Wallet2} (h : OnlyFlags w w') (h' : OnlyFlags w' w'') :
    OnlyFlags w w'' where
  transfers := h'.transfers.trans h.transfers
  pubKeys := h'.pubKeys.trans h.pubKeys
  keyImages := h'.keyImages.trans h.keyImages
  blockchain := h'.blockchain.trans h.blockchain

theorem OnlyFlags.map (h : OnlyFlags w w') {β : Type} {g : TransferDetails → β}
    (hg : ∀ td, g td.setUnspent = g td) : w'.transfers.map g = w.transfers.map g := by
  have hmap := congrArg (List.map g) h.transfers
  simpa only [map_map, Function.comp_def, hg] using hmap

theorem OnlyFlags.keepsKeys (h : OnlyFlags w w') : KeepsKeys w w' :=
  ⟨h.map fun _ => rfl, h.pubKeys, h.keyImages⟩

theorem onlyFlags_setSpent (w : Wallet2) (idx height : Nat) : OnlyFlags w (w.setSpent idx height) :=
  ⟨map_modify_congr fun _ _ => rfl, rfl, rfl, rfl⟩

/-- One of the two flags is set, as for a transaction that is not in a block. -/
def Wallet2.setFlag (w : Wallet2) (place : Nat) (spent : Bool) : Wallet2 :=
  if spent then w.setSpent place 0 else w.setUnspent place

/-- What `set_tx_key_images_spent` does for an input: nothing, or the flag changes. -/
theorem setKeyImageSpent_cases (w : Wallet2) (spent : Bool) (input : TxinV) :
    w.setKeyImageSpent spent input = w ∨
      ∃ i place td, input = .key i ∧ w.keyImages[i.kImage]? = some place ∧
        w.transfers[place]? = some td ∧ td.spent ≠ spent ∧
        w.setKeyImageSpent spent input = w.setFlag place spent := by
  unfold Wallet2.setKeyImageSpent
  split
  · rename_i i
    split
    · exact .inl rfl
    rename_i place hplace
    split
    · exact .inl rfl
    rename_i td htd
    split
    · exact .inl rfl
    split
    · exact .inl rfl
    rename_i hflag
    exact .inr ⟨i, place, td, rfl, hplace, htd, hflag, rfl⟩
  · exact .inl rfl

theorem onlyFlags_setKeyImageSpent (w : Wallet2) (spent : Bool) (input : TxinV) :
    OnlyFlags w (w.setKeyImageSpent spent input) := by
  rcases setKeyImageSpent_cases w spent input with heq | ⟨i, place, td, -, -, -, -, heq⟩
  · rw [heq]
    exact .refl w
  rw [heq, Wallet2.setFlag]
  split
  · exact onlyFlags_setSpent w place 0
  · exact ⟨map_modify_congr fun _ _ => rfl, rfl, rfl, rfl⟩

theorem onlyFlags_processUnconfirmedTransfer (w : Wallet2) (incremental : Bool) (txid : Hash)
    (seenInPool : Bool) (now : Nat) (refreshed : Bool) :
    OnlyFlags w (w.processUnconfirmedTransfer incremental txid seenInPool now refreshed) := by
  have hspent : ∀ (utd : UnconfirmedTransferDetails) (state : PendingState) (spent : Bool),
      OnlyFlags w ((w.setState txid utd state).setTxKeyImagesSpent utd.tx spent) := by
    intro utd state spent
    have hstate : OnlyFlags w (w.setState txid utd state) := ⟨rfl, rfl, rfl, rfl⟩
    exact foldlRecOn _ _ hstate
      fun w h input _ => h.trans (onlyFlags_setKeyImageSpent w spent input)
  unfold Wallet2.processUnconfirmedTransfer
  split
  · exact .refl w
  split
  · exact hspent _ _ _
  split
  · exact hspent _ _ _
  split
  · exact ⟨rfl, rfl, rfl, rfl⟩
  · exact .refl w

theorem onlyFlags_commitTx (w : Wallet2) (ptx : PendingTx) :
    OnlyFlags w (left (w.commitTx a ptx)) := by
  unfold Wallet2.commitTx
  split
  · exact .refl w
  split
  · exact .refl w
  have hadd : ∀ {txid tx amountIn amountOut paymentId change account indices now}, OnlyFlags w
      (w.addUnconfirmedTx txid tx amountIn amountOut paymentId change account indices now) :=
    ⟨rfl, rfl, rfl, rfl⟩
  exact foldlRecOn _ _ hadd fun w h idx _ => h.trans (onlyFlags_setSpent w idx 0)

/-- One event. -/
theorem WalletEvent.sound (ha : Ordinary a) (hpub : PubIndexed w) (e : WalletEvent) :
    PubIndexed (e.apply a w) ∧
      (KeyIndexed w → Collides (e.apply a w) ∨ KeyIndexed (e.apply a w)) := by
  have hkeep : ∀ {w'}, KeepsKeys w w' →
      PubIndexed w' ∧ (KeyIndexed w → Collides w' ∨ KeyIndexed w') := fun h =>
    ⟨hpub.keeps h, fun hkey => .inr (hkey.congr h.keyImages h.keys)⟩
  cases e with
  | transaction c =>
    obtain ⟨hp, hk⟩ := (processNewTransaction_moves a c w).indexed ha hpub
    exact ⟨hp, fun hkey => hk (.inr hkey)⟩
  | newBlock id => exact hkeep ⟨rfl, rfl, rfl⟩
  | unconfirmed incremental txid seenInPool now refreshed =>
    exact hkeep
      (onlyFlags_processUnconfirmedTransfer w incremental txid seenInPool now refreshed).keepsKeys
  | reorg height =>
    change PubIndexed (left (w.handleReorg height)) ∧
      (KeyIndexed w → Collides (left (w.handleReorg height)) ∨
        KeyIndexed (left (w.handleReorg height)))
    unfold Wallet2.handleReorg
    split
    · exact hkeep (.refl w)
    refine ⟨detachBlockchain_pub hpub height, fun hkey => ?_⟩
    obtain ⟨keyImages, pubKeys, hok, _, hindex⟩ := detachBlockchain_ok hpub hkey height
    rw [hok]
    exact .inr hindex
  | commit ptx => exact hkeep (onlyFlags_commitTx w ptx).keepsKeys

/-- **The map of the public keys is exact** in every state of an ordinary wallet. -/
theorem WalletRun.pubIndexed (ha : Ordinary a) (h : WalletRun a (w :: ws)) :
    PubIndexed w := by
  generalize hstates : w :: ws = states at h
  induction h generalizing w ws with
  | start htransfers hkeyImages hpubKeys =>
    cases hstates
    refine ⟨?_, fun td htd => ?_⟩
    · rw [htransfers, hpubKeys]
      exact indexes_nil
    · rw [htransfers] at htd
      cases htd
  | step _ e he ih =>
    cases hstates
    exact (e.sound ha (ih rfl)).1

/-- **So is the map of the key images**, unless two outputs with different public keys have the same
key image. -/
theorem WalletRun.keyIndexed (ha : Ordinary a) (h : WalletRun a (w :: ws)) :
    (∃ s ∈ w :: ws, Collides s) ∨ KeyIndexed w := by
  generalize hstates : w :: ws = states at h
  induction h generalizing w ws with
  | start htransfers hkeyImages hpubKeys =>
    cases hstates
    right
    unfold KeyIndexed
    rw [htransfers, hkeyImages]
    exact indexes_nil
  | step hrun e he ih =>
    cases hstates
    rcases ih rfl with ⟨s, hs, hcollides⟩ | hkey
    · exact .inl ⟨s, mem_cons_of_mem _ hs, hcollides⟩
    refine ((e.sound ha (hrun.pubIndexed ha)).2 hkey).imp_left fun hcollides => ?_
    exact ⟨_, mem_cons_self, hcollides⟩

end Hashmonkey.Wallet
