import Hashmonkey.Wallet.Reorg

/-!
# Outputs that stay spent (`wallet2.cpp`)

An output that a transaction in a block spends should be marked spent until that block is detached.
`process_unconfirmed_transfer` breaks this. When an own pending transaction times out, its inputs
are marked unspent, also those that another transaction has spent in a block.

* `Marked`: the output at a place is spent, at the height of the block or below;
* `HeightsBelow`: no transfer is above the chain of blocks, in any run;
* `SpendsPlace`: an input has the key image of the output at a place;
* `Respects`: the events after which a marked output is still marked. A transaction that times out
  does not have the output among its inputs, no transaction above the block spends it again, and
  blocks are only detached above that block.

A transaction marks what it spends (`processNewTransaction_marks`), and each event that respects an
output keeps the mark (`WalletEvent.marked`, by `Moves.marked` for the moves of a transaction).

Result: **`spent_stays`**. An output that is spent in a block stays marked through any number of
such events. `spent_undone` is a wallet that loses the mark while no block is detached.
-/

open Hashmonkey.Core

namespace Hashmonkey.Wallet

open Basic Crypto Db Lib Ringct Serialization List TransferDetails

variable {a : Account} {c : TxContext} {w w' : Wallet2} {p s : Nat}

/-! ## The transfer at a place -/

/-- Where a transfer is, and whether and where it is spent. -/
def TransferDetails.standing (td : TransferDetails) : Nat × Bool × Nat :=
  (td.blockHeight, td.spent, td.spentHeight)

theorem standing_multisigRescan (w : Wallet2) :
    (w.multisigRescan a).transfers.map standing = w.transfers.map standing := by
  unfold Wallet2.multisigRescan
  split
  · exact map_modify_congr fun _ _ => rfl
  · rfl

variable {td : TransferDetails}

theorem multisigRescan_at (htd : w.transfers[p]? = some td) :
    ∃ td', (w.multisigRescan a).transfers[p]? = some td' ∧ td'.standing = td.standing := by
  have hat : ((w.multisigRescan a).transfers.map standing)[p]? =
      (w.transfers.map standing)[p]? := by rw [standing_multisigRescan]
  rw [getElem?_map, getElem?_map, htd] at hat
  exact Option.map_eq_some_iff.mp hat

/-- What a move does to the transfer at a place. -/
inductive MovesAt (c : TxContext) (w : Wallet2) (p : Nat) (td td' : TransferDetails) : Prop
  | same (h : td'.standing = td.standing)
  /-- it was not spent and may be replaced -/
  | unspent (h : td.spent = false)
  /-- an input spends it -/
  | spent {i : TxinToKey} (hin : TxinV.key i ∈ c.tx.vin) (hi : w.keyImages[i.kImage]? = some p)
      (h : td'.standing = (td.blockHeight, true, c.height))

theorem Move.at (hmove : Move a c w w') (htd : w.transfers[p]? = some td) :
    ∃ td', w'.transfers[p]? = some td' ∧ MovesAt c w p td td' := by
  cases hmove with
  | other h => exact ⟨td, by rw [h.transfers, htd], .same rfl⟩
  | @push k o out globalIndex amount index info hpool hout hpub hnew =>
    have hold : ∀ new : TransferDetails, (w.transfers ++ [new])[p]? = some td := fun new => by
      rw [List.getElem?_append_left (List.getElem?_eq_some_iff.mp htd).1, htd]
    have hpush : ∃ td', (w.pushTransfer a c k o out globalIndex amount index info).transfers[p]? =
        some td' ∧ td'.standing = td.standing := multisigRescan_at (hold _)
    obtain ⟨td', htd', heq⟩ := hpush
    exact ⟨td', htd', .same heq⟩
  | @replace place k o td0 out globalIndex amount index info hpool hout hpub hplace htd0 hspent =>
    have hreplace : ∀ {td1}, (w.transfers.modify place fun td =>
        td.describe c k o out globalIndex amount index info.mask)[p]? = some td1 →
        ∃ td', (w.replaceTransfer a c place k o out globalIndex amount index info).transfers[p]? =
          some td' ∧ td'.standing = td1.standing := fun h => multisigRescan_at h
    by_cases hp : place = p
    · subst hp
      obtain rfl : td0 = td := Option.some.inj (htd0.symm.trans htd)
      rw [getElem?_modify_eq, htd] at hreplace
      obtain ⟨td', htd', _⟩ := hreplace rfl
      exact ⟨td', htd', .unspent hspent⟩
    · rw [getElem?_modify_ne _ _ hp] at hreplace
      obtain ⟨td', htd', heq⟩ := hreplace htd
      exact ⟨td', htd', .same heq⟩
  | @spend i place td0 amount hin hplace htd0 =>
    by_cases hp : place = p
    · subst hp
      exact ⟨_, getElem?_modify_self htd, .spent hin hplace rfl⟩
    · exact ⟨td, getElem?_modify_other hp htd, .same rfl⟩

/-! ## Heights of transfers -/

/-- No transfer is above the chain of blocks. -/
def HeightsBelow (w : Wallet2) : Prop := ∀ td ∈ w.transfers, td.blockHeight ≤ w.blockchain.size

theorem HeightsBelow.congr (h : HeightsBelow w)
    (ht : w'.transfers.map blockHeight = w.transfers.map blockHeight)
    (hb : w.blockchain.size ≤ w'.blockchain.size) : HeightsBelow w' := by
  intro td htd
  obtain ⟨td0, htd0, heq⟩ := mem_of_map_eq ht htd
  rw [heq]
  exact (h td0 htd0).trans hb

theorem Move.heights (hmove : Move a c w w') (h : HeightsBelow w)
    (hc : c.pool = false → c.height ≤ w.blockchain.size) : HeightsBelow w' := by
  have hrescan : ∀ {w1 : Wallet2}, w1.blockchain = w.blockchain →
      (∀ td ∈ w1.transfers, td.blockHeight = c.height ∨ td ∈ w.transfers) → c.pool = false →
      HeightsBelow (w1.multisigRescan a) := by
    intro w1 hb htds hpool td' htd'
    obtain ⟨td, htd, heq⟩ := mem_of_map_eq (standing_multisigRescan w1) htd'
    have hheight : td'.blockHeight = td.blockHeight := congrArg Prod.fst heq
    rw [hheight, multisigRescan_blockchain, hb]
    rcases htds td htd with hnew | hold
    · rw [hnew]
      exact hc hpool
    · exact h td hold
  cases hmove with
  | other hsame =>
    exact h.congr (by rw [hsame.transfers]) (Nat.le_of_eq (by rw [hsame.blockchain]))
  | push hpool hout hpub hnew =>
    refine hrescan (by rfl) (fun td htd => ?_) hpool
    rcases mem_append.mp htd with hold | hlast
    · exact .inr hold
    rw [mem_singleton.mp hlast]
    exact .inl rfl
  | @replace place k o td0 out globalIndex amount index info hpool hout hpub hplace htd0 hspent =>
    refine hrescan (by rfl) (fun td htd => ?_) hpool
    obtain ⟨j, hj⟩ := mem_iff_getElem?.mp htd
    by_cases hp : place = j
    · subst hp
      rw [getElem?_modify_eq, htd0] at hj
      cases hj
      exact .inl rfl
    · rw [getElem?_modify_ne _ _ hp] at hj
      exact .inr (mem_of_getElem? hj)
  | spend hin hplace htd => exact h.congr (map_modify_congr fun _ _ => rfl) (Nat.le_refl _)

theorem Moves.heights (hmoves : Moves a c w w') (h : HeightsBelow w)
    (hc : c.pool = false → c.height ≤ w.blockchain.size) : HeightsBelow w' := by
  induction hmoves with
  | refl => exact h
  | tail hbefore hmove ih =>
    refine hmove.heights ih fun hpool => ?_
    rw [Moves.blockchain hbefore]
    exact hc hpool

/-! ## Detaching and heights -/

theorem OnlyFlags.heights (hflags : OnlyFlags w w') (h : HeightsBelow w) : HeightsBelow w' :=
  h.congr (hflags.map fun _ => rfl) (Nat.le_of_eq (by rw [hflags.blockchain]))

theorem resetSpent_heights (h : HeightsBelow w) (height : Nat) :
    HeightsBelow (w.resetSpent height) := by
  refine h.congr ?_ (Nat.le_refl _)
  change (w.transfers.map fun td => td.resetSpent height).map blockHeight = _
  rw [map_map]
  exact map_congr_left fun td _ => blockHeight_resetSpent td height

theorem size_detach (chain : Hashchain) (height : Nat) :
    (chain.detach height).size = if chain.offset ≤ height ∧ height ≤ chain.size then height
      else chain.size := by
  unfold Hashchain.detach
  by_cases hrange : height ≤ chain.size ∧ height ≥ chain.offset
  · rw [if_pos hrange, if_pos ⟨hrange.2, hrange.1⟩]
    exact size_crop hrange.2 hrange.1
  · rw [if_neg hrange, if_neg fun h => hrange ⟨h.2, h.1⟩]

/-- What a reorganisation leaves: a wallet in which spent flags are reset and the maps may have
changed, or the one that is meant. -/
theorem handleReorg_left (w : Wallet2) (height : Nat) :
    left (w.handleReorg height) = w ∨
      (∃ keyImages pubKeys, left (w.handleReorg height) =
        { w.resetSpent height with keyImages, pubKeys }) ∨
      ∃ keyImages pubKeys, left (w.handleReorg height) = w.detached height keyImages pubKeys := by
  unfold Wallet2.handleReorg
  split
  · exact .inl rfl
  unfold Wallet2.detachBlockchain
  dsimp only
  split
  · exact .inr (.inl ⟨_, _, rfl⟩)
  split
  · exact .inr (.inl ⟨_, _, rfl⟩)
  · exact .inr (.inr ⟨_, _, rfl⟩)

theorem detached_heights (h : HeightsBelow w) (height : Nat) (keyImages pubKeys : Places) :
    HeightsBelow (w.detached height keyImages pubKeys) := by
  intro td htd
  rw [transfers_detached] at htd
  obtain ⟨td0, htd0, rfl⟩ := mem_map.mp htd
  rw [blockHeight_resetSpent]
  have hlt : td0.blockHeight < height :=
    of_decide_eq_true (all_eq_true.mp all_takeWhile td0 htd0)
  have hle := h td0 ((takeWhile_sublist _).mem htd0)
  change td0.blockHeight ≤ (w.blockchain.detach height).size
  rw [size_detach]
  split
  · exact Nat.le_of_lt hlt
  · exact hle

theorem handleReorg_heights (h : HeightsBelow w) (height : Nat) :
    HeightsBelow (left (w.handleReorg height)) := by
  rcases handleReorg_left w height with heq | ⟨keyImages, pubKeys, heq⟩ | ⟨keyImages, pubKeys, heq⟩
  · rwa [heq]
  · rw [heq]
    exact resetSpent_heights h height
  rw [heq]
  exact detached_heights h height keyImages pubKeys

/-- **No transfer is above the chain of blocks**, in any run. -/
theorem WalletRun.heightsBelow {ws : List Wallet2} (h : WalletRun a (w :: ws)) :
    HeightsBelow w := by
  generalize hstates : w :: ws = states at h
  induction h generalizing w ws with
  | start htransfers hkeyImages hpubKeys =>
    cases hstates
    intro td htd
    rw [htransfers] at htd
    cases htd
  | @step w0 ws0 _ e he ih =>
    cases hstates
    have hbelow := ih rfl
    cases e with
    | transaction c =>
      refine (processNewTransaction_moves a c w0).heights hbelow fun hpool => ?_
      change c.height = if c.pool then 0 else w0.blockchain.size at he
      rw [hpool] at he
      exact Nat.le_of_eq he
    | newBlock id =>
      refine hbelow.congr rfl ?_
      change w0.blockchain.size ≤ (w0.blockchain.pushBack id).size
      rw [size_pushBack]
      exact Nat.le_succ _
    | unconfirmed incremental txid seenInPool now refreshed =>
      exact (onlyFlags_processUnconfirmedTransfer w0 incremental txid seenInPool now
        refreshed).heights hbelow
    | reorg height => exact handleReorg_heights hbelow height
    | commit ptx => exact (onlyFlags_commitTx w0 ptx).heights hbelow

/-! ## Marked outputs -/

/-- The output at a place is marked spent, at a height or below, and it is not above that height. -/
def Marked (p s : Nat) (w : Wallet2) : Prop :=
  ∃ td, w.transfers[p]? = some td ∧ td.spent = true ∧ td.spentHeight ≤ s ∧ td.blockHeight ≤ s

theorem Marked.congr (h : Marked p s w) (ht : w'.transfers = w.transfers) : Marked p s w' := by
  unfold Marked
  rwa [ht]

/-- An input has the key image of the output at a place. A composite key image may be about to
become known. -/
def SpendsPlace (a : Account) (w : Wallet2) (p : Nat) (ki : KeyImage) : Prop :=
  w.keyImages[ki]? = some p ∨ a.multisig = true ∧ a.multisigRescan p = some ki

theorem multisigRescan_spends {ki : KeyImage} (h : (w.multisigRescan a).keyImages[ki]? = some p) :
    SpendsPlace a w p ki := by
  unfold Wallet2.multisigRescan at h
  split at h
  · rename_i ki' td hdata hlast
    obtain ⟨rfl, rfl⟩ | ⟨-, h⟩ := Table.getElem?_insert_eq_some.mp h
    · exact .inr (Option.ite_none_right_eq_some.mp hdata)
    · exact .inl (Table.getElem?_erase_eq_some.mp h).2
  · exact .inl h

/-- Moves give no new key image to an output. -/
theorem Move.spends (hmove : Move a c w w') (hp : p < w.transfers.length) {ki : KeyImage}
    (h : SpendsPlace a w' p ki) : SpendsPlace a w p ki := by
  rcases h with hki | hrescan
  · cases hmove with
    | other hsame =>
      rw [hsame.keyImages] at hki
      exact .inl hki
    | push hpool hout hpub hnew =>
      rcases multisigRescan_spends hki with hpushed | hrescan
      · dsimp only at hpushed
        split at hpushed
        · obtain ⟨-, rfl⟩ | ⟨-, hpushed⟩ := Table.getElem?_insert_eq_some.mp hpushed
          · exact absurd hp (Nat.lt_irrefl _)
          · exact .inl hpushed
        · exact .inl hpushed
      · exact .inr hrescan
    | replace hpool hout hpub hplace htd hspent =>
      exact (multisigRescan_spends hki).imp_left fun hold => hold
    | spend hin hplace htd => exact .inl hki
  · exact .inr hrescan

/-- **A transaction keeps the mark**, if it is not above the height or does not spend the output. -/
theorem Moves.marked (hmoves : Moves a c w w') (h : Marked p s w)
    (hc : c.height ≤ s ∨ ∀ i, TxinV.key i ∈ c.tx.vin → ¬ SpendsPlace a w p i.kImage) :
    Marked p s w' ∧ ∀ ki, SpendsPlace a w' p ki → SpendsPlace a w p ki := by
  induction hmoves with
  | refl => exact ⟨h, fun _ => id⟩
  | tail _ hmove ih =>
    obtain ⟨⟨td, htd, hspent, hs, hb⟩, hback⟩ := ih
    have hp := (List.getElem?_eq_some_iff.mp htd).1
    refine ⟨?_, fun ki hki => hback ki (hmove.spends hp hki)⟩
    obtain ⟨td', htd', hat⟩ := hmove.at htd
    cases hat with
    | same heq =>
      simp only [standing, Prod.mk.injEq] at heq
      obtain ⟨hb', hspent', hs'⟩ := heq
      exact ⟨td', htd', hspent'.trans hspent, hs'.le.trans hs, hb'.le.trans hb⟩
    | unspent hnot =>
      rw [hspent] at hnot
      cases hnot
    | @spent i hin hi heq =>
      simp only [standing, Prod.mk.injEq] at heq
      obtain ⟨hb', hspent', hs'⟩ := heq
      rcases hc with hheight | hnone
      · exact ⟨td', htd', hspent', hs'.le.trans hheight, hb'.le.trans hb⟩
      · exact absurd (hback i.kImage (.inl hi)) (hnone i hin)

/-! ## Events -/

theorem setSpent_marked (h : Marked p s w) (idx : Nat) : Marked p s (w.setSpent idx 0) := by
  obtain ⟨td, htd, hspent, hs, hb⟩ := h
  by_cases hp : idx = p
  · subst hp
    exact ⟨td.setSpent 0, getElem?_modify_self htd, rfl, Nat.zero_le s, hb⟩
  · exact ⟨td, getElem?_modify_other hp htd, hspent, hs, hb⟩

/-- The flag of an output changes only if it is not what it should be. -/
theorem setKeyImageSpent_marked (h : Marked p s w) {spent : Bool} {input : TxinV}
    (hinput : spent = true ∨ ∀ i, input = .key i → w.keyImages[i.kImage]? ≠ some p) :
    Marked p s (w.setKeyImageSpent spent input) := by
  rcases setKeyImageSpent_cases w spent input with
    heq | ⟨i, place, td, hi, hplace, htd, hflag, heq⟩
  · rwa [heq]
  rw [heq]
  cases hspent : spent with
  | true => exact setSpent_marked h place
  | false =>
    have hne : place ≠ p := by
      rintro rfl
      rcases hinput with htrue | hother
      · exact Bool.false_ne_true (hspent.symm.trans htrue)
      · exact hother i hi hplace
    obtain ⟨td0, htd0, hmark⟩ := h
    exact ⟨td0, getElem?_modify_other hne htd0, hmark⟩

theorem setTxKeyImagesSpent_marked (h : Marked p s w) {tx : TransactionPrefix} {spent : Bool}
    (htx : spent = true ∨ ∀ i, TxinV.key i ∈ tx.vin → w.keyImages[i.kImage]? ≠ some p) :
    Marked p s (w.setTxKeyImagesSpent tx spent) := by
  unfold Wallet2.setTxKeyImagesSpent
  generalize tx.vin = inputs at htx
  induction inputs generalizing w with
  | nil => exact h
  | cons input inputs ih =>
    refine ih (setKeyImageSpent_marked h (htx.imp_right fun hnone i hi => ?_)) ?_
    · exact hnone i (hi ▸ mem_cons_self)
    · rw [(onlyFlags_setKeyImageSpent w spent input).keyImages]
      exact htx.imp_right fun hnone i hi => hnone i (mem_cons_of_mem _ hi)

/-- The events that leave the output at a place marked. A pending transaction that times out does
not spend it, no transaction in a later block spends it again, and blocks are only detached above
the height, with the transfers in order. -/
def Respects (a : Account) (p s : Nat) (w : Wallet2) : WalletEvent → Prop
  | .transaction c =>
    c.height ≤ s ∨ ∀ i, TxinV.key i ∈ c.tx.vin → ¬ SpendsPlace a w p i.kImage
  | .unconfirmed incremental txid seenInPool now refreshed =>
    seenInPool = true ∨ ∀ utd, w.unconfirmedTxs[txid]? = some utd →
      utd.timesOut incremental now refreshed = true →
      ∀ i, TxinV.key i ∈ utd.tx.vin → w.keyImages[i.kImage]? ≠ some p
  | .reorg height => s < height ∧ HeightLast height w
  | _ => True

theorem processUnconfirmedTransfer_marked (h : Marked p s w) {incremental : Bool} {txid : Hash}
    {seenInPool : Bool} {now : Nat} {refreshed : Bool}
    (hr : Respects a p s w (.unconfirmed incremental txid seenInPool now refreshed)) :
    Marked p s (w.processUnconfirmedTransfer incremental txid seenInPool now refreshed) := by
  unfold Wallet2.processUnconfirmedTransfer
  split
  · exact h
  rename_i utd hutd
  have hstate : ∀ state, Marked p s (w.setState txid utd state) := fun _ => h.congr rfl
  split
  · exact setTxKeyImagesSpent_marked (hstate _) (.inl rfl)
  rename_i hunseen
  split
  · rename_i htimeout
    exact setTxKeyImagesSpent_marked (hstate _)
      (.inr ((hr.resolve_left hunseen) utd hutd htimeout))
  · split
    · exact hstate _
    · exact h

theorem commitTx_marked (h : Marked p s w) (ptx : PendingTx) :
    Marked p s (left (w.commitTx a ptx)) := by
  unfold Wallet2.commitTx
  split
  · exact h
  split
  · exact h
  · exact foldlRecOn _ _ (h.congr rfl) fun _ h idx _ => setSpent_marked h idx

variable {height : Nat}

theorem TransferDetails.resetSpent_of_lt
    (h : td.spentHeight < height) : td.resetSpent height = td :=
  if_neg fun hspent => absurd hspent.2 (Nat.not_le.mpr h)

theorem handleReorg_marked (h : Marked p s w) (hs : s < height)
    (hlast : HeightLast height w) : Marked p s (left (w.handleReorg height)) := by
  obtain ⟨td, htd, hspent, hsh, hb⟩ := h
  have hreset : (w.transfers.map (·.resetSpent height))[p]? = some td := by
    rw [getElem?_map, htd]
    exact congrArg some (td.resetSpent_of_lt (hsh.trans_lt hs))
  rcases handleReorg_left w height with heq | ⟨keyImages, pubKeys, heq⟩ | ⟨keyImages, pubKeys, heq⟩
  · rw [heq]
    exact ⟨td, htd, hspent, hsh, hb⟩
  · rw [heq]
    exact ⟨td, hreset, hspent, hsh, hb⟩
  rw [heq]
  refine ⟨td, ?_, hspent, hsh, hb⟩
  -- the transfers in front of this one are below the height as well
  have hkept := getElem?_takeWhile (q := fun td => decide (td.blockHeight < height)) htd
    (decide_eq_true (hb.trans_lt hs))
    (hlast.imp fun himp hlt => decide_eq_true (himp (of_decide_eq_true hlt)))
  rw [transfers_detached, getElem?_map, hkept]
  exact congrArg some (td.resetSpent_of_lt (hsh.trans_lt hs))

/-- **An event that respects the output keeps the mark.** -/
theorem WalletEvent.marked (e : WalletEvent) (he : Respects a p s w e) (h : Marked p s w) :
    Marked p s (e.apply a w) := by
  cases e with
  | transaction c => exact ((processNewTransaction_moves a c w).marked h he).1
  | newBlock id => exact h.congr rfl
  | unconfirmed incremental txid seenInPool now refreshed =>
    exact processUnconfirmedTransfer_marked h he
  | reorg height => exact handleReorg_marked h he.1 he.2
  | commit ptx => exact commitTx_marked h ptx

/-! ## The block that spends an output -/

/-- The output at a place is marked spent at a height. -/
def SpentAt (p height : Nat) (w : Wallet2) : Prop :=
  ∃ td, w.transfers[p]? = some td ∧ td.spent = true ∧ td.spentHeight = height

theorem spendTransfer_spentAt (h : ∃ td, w.transfers[p]? = some td) (amount : UInt64)
    (height : Nat) : SpentAt p height (w.spendTransfer p amount height) := by
  obtain ⟨td, htd⟩ := h
  have hnew : (w.spendTransfer p amount height).transfers[p]? =
      some ({ td with amount }.setSpent height) := getElem?_modify_self htd
  exact ⟨_, hnew, rfl, rfl⟩

theorem SpentAt.spendTransfer (h : SpentAt p height w) (place : Nat)
    (amount : UInt64) : SpentAt p height (w.spendTransfer place amount height) := by
  obtain ⟨td, htd, hspent, hh⟩ := h
  by_cases hp : place = p
  · subst hp
    exact spendTransfer_spentAt ⟨td, htd⟩ amount height
  exact ⟨td, getElem?_modify_other hp htd, hspent, hh⟩

/-- One input marks the output with its key image, and keeps the marks of the inputs before. -/
theorem spendInput_marks {input : TxinV} {st st' : Spending} (h : spendInput c input st = .ok st') :
    st'.wallet.keyImages = st.wallet.keyImages ∧
      (SpentAt p c.height st.wallet → SpentAt p c.height st'.wallet) ∧
      ∀ i, input = .key i → st.wallet.keyImages[i.kImage]? = some p →
        SpentAt p c.height st'.wallet := by
  unfold spendInput at h
  split at h
  · rename_i i
    split at h
    · rename_i hnone
      cases h
      refine ⟨rfl, id, fun i' hi' hp => ?_⟩
      cases hi'
      cases hnone.symm.trans hp
    rename_i place hplace
    split at h
    · cases h
    rename_i td htd
    cases h
    refine ⟨rfl, fun hspent => hspent.spendTransfer place _, fun i' hi' hp => ?_⟩
    cases hi'
    obtain rfl : place = p := Option.some.inj (hplace.symm.trans hp)
    exact spendTransfer_spentAt ⟨td, htd⟩ _ _
  · rename_i hother
    cases h
    refine ⟨rfl, id, fun i hi => ?_⟩
    exact absurd hi (hother i)

theorem spendInputs_marks {inputs : List TxinV} {st st' : Spending}
    (h : spendInputs c inputs st = .ok st') :
    st'.wallet.keyImages = st.wallet.keyImages ∧
      (SpentAt p c.height st.wallet → SpentAt p c.height st'.wallet) ∧
      ∀ i, TxinV.key i ∈ inputs → st.wallet.keyImages[i.kImage]? = some p →
        SpentAt p c.height st'.wallet := by
  induction inputs generalizing st with
  | nil =>
    cases h
    exact ⟨rfl, id, fun i hi => absurd hi not_mem_nil⟩
  | cons input inputs ih =>
    rw [spendInputs] at h
    split at h
    · cases h
    rename_i st1 hone
    obtain ⟨hkeys1, hkeep1, hmark1⟩ := spendInput_marks (p := p) hone
    obtain ⟨hkeys, hkeep, hmark⟩ := ih h
    refine ⟨hkeys.trans hkeys1, hkeep ∘ hkeep1, fun i hi hp => ?_⟩
    rcases mem_cons.mp hi with hfirst | hlater
    · exact hkeep (hmark1 i hfirst.symm hp)
    rw [← hkeys1] at hp
    exact hmark i hlater hp

/-- A transaction marks the outputs that its inputs have the key images of. -/
theorem processNewTransaction_marks (h : processNewTransaction a c w = .ok w') {i : TxinToKey}
    (hi : TxinV.key i ∈ c.tx.vin) (hp : w'.keyImages[i.kImage]? = some p) :
    SpentAt p c.height w' := by
  unfold processNewTransaction at h
  split at h
  · cases h
  rename_i r _
  split at h
  · cases h
  split at h
  · cases h
  rename_i st hst
  have hleaves := finishTransaction_moves (a := a) (c := c) r st
  rw [h] at hleaves
  have hsame : SameTransfers st.wallet w' := hleaves
  obtain ⟨hkeys, _, hmark⟩ := spendInputs_marks (p := p) hst
  rw [hsame.keyImages, hkeys] at hp
  obtain ⟨td, htd, hspent⟩ := hmark i hi hp
  exact ⟨td, by rw [hsame.transfers]; exact htd, hspent⟩

/-- One event that respects the output at a place. -/
def RespectingStep (a : Account) (p s : Nat) (w w' : Wallet2) : Prop :=
  ∃ e : WalletEvent, e.Enabled w ∧ Respects a p s w e ∧ w' = e.apply a w

/-- **An output that a block spends stays marked spent**, whatever respecting events come after. -/
theorem spent_stays {ws : List Wallet2} (hrun : WalletRun a (w :: ws))
    (hheight : c.height = w.blockchain.size) (hok : processNewTransaction a c w = .ok w')
    {i : TxinToKey} (hi : TxinV.key i ∈ c.tx.vin) (hp : w'.keyImages[i.kImage]? = some p) :
    SpentAt p c.height w' ∧
      ∀ w'', Relation.ReflTransGen (RespectingStep a p c.height) w' w'' →
        ∃ td, w''.transfers[p]? = some td ∧ td.spent = true := by
  have hspent := processNewTransaction_marks hok hi hp
  have hmoves := processNewTransaction_moves a c w
  rw [hok] at hmoves
  have hbelow : HeightsBelow w' :=
    Moves.heights hmoves hrun.heightsBelow fun _ => Nat.le_of_eq hheight
  refine ⟨hspent, fun w'' hsteps => ?_⟩
  have hmarked : Marked p c.height w'' := by
    induction hsteps with
    | refl =>
      obtain ⟨td, htd, hflag, hh⟩ := hspent
      refine ⟨td, htd, hflag, Nat.le_of_eq hh, ?_⟩
      rw [hheight, ← Moves.blockchain hmoves]
      exact hbelow td (mem_of_getElem? htd)
    | tail _ hstep ih =>
      obtain ⟨e, _, he, rfl⟩ := hstep
      exact e.marked he ih
  obtain ⟨td, htd, hflag, _⟩ := hmarked
  exact ⟨td, htd, hflag⟩

/-- A transaction that spends the output with byte 7. -/
def sampleSpend (txid : UInt8) (height : Nat) (pool : Bool) : TxContext where
  txid := Blob.fill txid
  tx :=
    { version := 2
      vin := [.key ⟨0, [], Blob.fill 7⟩]
      rctSignatures := { type := .bulletproofPlus } }
  oIndices := []
  height
  pool
  subaddresses := fun _ _ => none

/-- The wallet receives an output, and a transaction that spends it is seen in the pool. -/
def sampleReceived : Wallet2 :=
  runEvents sampleAccount {}
    [.transaction (sampleContext [1] [(7, 3)] 0), .newBlock (Blob.fill 1),
      .transaction (sampleSpend 10 0 true)]

/-- Another transaction spends it in a block. -/
def sampleSpent : Wallet2 :=
  left (processNewTransaction sampleAccount (sampleSpend 11 1 false) sampleReceived)

theorem sampleReceived_run : ∃ ws, WalletRun sampleAccount (sampleReceived :: ws) :=
  runEvents_run (.start rfl rfl rfl) (by decide)

theorem sampleSpent_ok :
    processNewTransaction sampleAccount (sampleSpend 11 1 false) sampleReceived =
      .ok sampleSpent :=
  rfl

/-- The output is still marked when the block and another one were added, the transaction in the
pool was looked up and found, and the second block was detached. -/
theorem spent_stays_sample : (∃ ws, WalletRun sampleAccount (sampleReceived :: ws)) ∧
    SpentAt 0 1 sampleSpent ∧
      ∃ td, (runEvents sampleAccount sampleSpent [.newBlock (Blob.fill 2), .newBlock (Blob.fill 3),
        .unconfirmed false (Blob.fill 10) true 0 true, .reorg 2]).transfers[0]? = some td ∧
          td.spent = true := by
  obtain ⟨ws, hrun⟩ := sampleReceived_run
  have hstays := spent_stays hrun (by decide) sampleSpent_ok
    (i := ⟨0, [], Blob.fill 7⟩) (p := 0) (mem_singleton.mpr rfl) (by decide)
  have hlast : HeightLast 2 (runEvents sampleAccount sampleSpent [.newBlock (Blob.fill 2),
      .newBlock (Blob.fill 3), .unconfirmed false (Blob.fill 10) true 0 true]) :=
    pairwise_singleton _ _
  refine ⟨⟨ws, hrun⟩, hstays.1, hstays.2 _ ?_⟩
  exact (((Relation.ReflTransGen.single ⟨.newBlock (Blob.fill 2), trivial, trivial, rfl⟩).tail
    ⟨.newBlock (Blob.fill 3), trivial, trivial, rfl⟩).tail
    ⟨.unconfirmed false (Blob.fill 10) true 0 true, trivial, .inl rfl, rfl⟩).tail
    ⟨.reorg 2, trivial, ⟨by decide, hlast⟩, rfl⟩

/-- No block is detached and the output is marked unspent, since the pool does not have the first
transaction any more. -/
theorem spent_undone : (∃ ws, WalletRun sampleAccount (sampleReceived :: ws)) ∧
    processNewTransaction sampleAccount (sampleSpend 11 1 false) sampleReceived = .ok sampleSpent ∧
      SpentAt 0 1 sampleSpent ∧
      (runEvents sampleAccount sampleSpent [.newBlock (Blob.fill 2),
        .unconfirmed false (Blob.fill 10) false (600 * 1000000000) true]).transfers.map
          spent = [false] := by
  refine ⟨sampleReceived_run, sampleSpent_ok, ?_, by decide⟩
  exact processNewTransaction_marks sampleSpent_ok (i := ⟨0, [], Blob.fill 7⟩)
    (mem_singleton.mpr rfl) (by decide)

end Hashmonkey.Wallet
