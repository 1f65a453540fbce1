import Hashmonkey.Wallet.Detach
import Hashmonkey.Wallet.Totals

/-!
# What a transaction does to a wallet (`wallet/wallet2.cpp`)

A call of `process_new_transaction` changes the transfers and their maps in three ways: a transfer
is put at the end, one is replaced in its place, or one is marked spent. Everything else concerns
other parts of the wallet.

* `Move`: one such change, with what was checked before;
* `SameTransfers`: wallets that do not differ in what moves are about;
* `Leaves`, `left`: the wallet that a call leaves, also when it throws.

Result: **`processNewTransaction_moves`**, a call is a sequence of moves. What holds of transfers in
every run is shown for one move (`Wallet/Runs`, `Wallet/Reorg`, `Wallet/Spent`).
-/

open Hashmonkey.Core

namespace Hashmonkey.Wallet

open Basic Crypto Db Lib Ringct Serialization

variable {a : Account} {c : TxContext}

/-! ## Moves -/

/-- Two wallets have the same transfers, maps and blocks. -/
structure SameTransfers (w w' : Wallet2) : Prop where
  transfers : w'.transfers = w.transfers
  keyImages : w'.keyImages = w.keyImages
  pubKeys : w'.pubKeys = w.pubKeys
  blockchain : w'.blockchain = w.blockchain

theorem SameTransfers.refl (w : Wallet2) : SameTransfers w w := ⟨rfl, rfl, rfl, rfl⟩

theorem SameTransfers.trans {w w' w'' : Wallet2} (h : SameTransfers w w')
    (h' : SameTransfers w' w'') : SameTransfers w w'' where
  transfers := h'.transfers.trans h.transfers
  keyImages := h'.keyImages.trans h.keyImages
  pubKeys := h'.pubKeys.trans h.pubKeys
  blockchain := h'.blockchain.trans h.blockchain

/-- A change that a transaction makes. -/
inductive Move (a : Account) (c : TxContext) (w : Wallet2) : Wallet2 → Prop
  | other {w' : Wallet2} (h : SameTransfers w w') : Move a c w w'
  /-- an output with a key that the wallet does not have -/
  | push {k o : Nat} {out : TxOut} {globalIndex amount : UInt64} {index : SubaddressIndex}
      {info : TxScanInfo} (hpool : c.pool = false) (hout : c.tx.vout[o]? = some out)
      (hpub : getOutputPublicKey out = some info.pub) (hnew : w.pubKeys[info.pub]? = none) :
      Move a c w (w.pushTransfer a c k o out globalIndex amount index info)
  /-- an output takes the place of one with the same key that is not spent -/
  | replace {place k o : Nat} {td : TransferDetails} {out : TxOut} {globalIndex amount : UInt64}
      {index : SubaddressIndex} {info : TxScanInfo} (hpool : c.pool = false)
      (hout : c.tx.vout[o]? = some out) (hpub : getOutputPublicKey out = some info.pub)
      (hplace : w.pubKeys[info.pub]? = some place) (htd : w.transfers[place]? = some td)
      (hspent : td.spent = false) :
      Move a c w (w.replaceTransfer a c place k o out globalIndex amount index info)
  /-- an input has a key image of the wallet -/
  | spend {i : TxinToKey} {place : Nat} {td : TransferDetails} {amount : UInt64}
      (hin : TxinV.key i ∈ c.tx.vin) (hplace : w.keyImages[i.kImage]? = some place)
      (htd : w.transfers[place]? = some td) :
      Move a c w (w.spendTransfer place amount c.height)

/-- A sequence of moves. -/
abbrev Moves (a : Account) (c : TxContext) : Wallet2 → Wallet2 → Prop :=
  Relation.ReflTransGen (Move a c)

/-- A property of the wallet that a call leaves. -/
def Leaves {σ : Type} (wallet : σ → Wallet2) (P : Wallet2 → Prop) : Except Fault σ → Prop
  | .ok s => P (wallet s)
  | .error f => P f.wallet

/-- The wallet that a call leaves. -/
def left : Except Fault Wallet2 → Wallet2
  | .ok w => w
  | .error f => f.wallet

theorem leaves_left {P : Wallet2 → Prop} {x : Except Fault Wallet2} (h : Leaves id P x) :
    P (left x) := by
  cases x with
  | ok w => exact h
  | error f => exact h

theorem Leaves.imp {σ : Type} {wallet : σ → Wallet2} {P Q : Wallet2 → Prop}
    {x : Except Fault σ} (h : Leaves wallet P x) (hPQ : ∀ w, P w → Q w) : Leaves wallet Q x := by
  cases x with
  | ok s => exact hPQ _ h
  | error f => exact hPQ _ h

/-! ## Outputs -/

theorem receiveOutput_moves {k o : Nat} {st : Receiving}
    (hcredit : Creditable c.tx.vout st.records o) :
    Leaves Receiving.wallet (Moves a c st.wallet) (receiveOutput a c k o st) := by
  obtain ⟨out, r, received, hout, hr, hreceived, hpub, _⟩ := hcredit
  have hstay : Moves a c st.wallet st.wallet := .refl
  unfold receiveOutput
  rw [hout, hr]
  dsimp only
  rw [hreceived]
  cases hplace : st.wallet.pubKeys[r.info.pub]? with
  | none =>
    change Moves a c st.wallet (if c.pool then _ else _)
    split
    · exact hstay
    rename_i hpool
    exact .single (.push (Bool.eq_false_of_not_eq_true hpool) hout hpub hplace)
  | some place =>
    dsimp only
    cases htd : st.wallet.transfers[place]? with
    | none => exact hstay
    | some td =>
      dsimp only
      split
      · unfold receiveIgnored
        dsimp only
        split
        · exact hstay
        split
        · exact hstay
        · exact hstay
      · rename_i hsmaller
        have hspent : td.spent = false :=
          Bool.eq_false_of_not_eq_true fun h => hsmaller (.inl h)
        have hreplaced : Moves a c st.wallet
            (if c.pool then st.wallet
              else st.wallet.replaceTransfer a c place k o out (c.oIndices[o]?.getD 0)
                (creditedAmount out r.info) received.index r.info) := by
          split
          · exact hstay
          rename_i hpool
          exact .single (.replace (Bool.eq_false_of_not_eq_true hpool) hout hpub hplace htd hspent)
        unfold receiveReplacing
        dsimp only
        split
        · exact hstay
        split
        · exact hstay
        split
        · exact hreplaced
        split
        · exact hreplaced
        · exact hreplaced

theorem receiveOuts_moves {k : Nat} {outs : List Nat} {st : Receiving}
    (hcredit : ∀ o ∈ outs, Creditable c.tx.vout st.records o) :
    Leaves Receiving.wallet (Moves a c st.wallet) (receiveOuts a c k outs st) := by
  induction outs generalizing st with
  | nil => exact Relation.ReflTransGen.refl
  | cons o outs ih =>
    obtain ⟨hfirst, hrest⟩ := List.forall_mem_cons.mp hcredit
    have hone := receiveOutput_moves (a := a) (k := k) hfirst
    rw [receiveOuts]
    cases hst : receiveOutput a c k o st with
    | error f =>
      rw [hst] at hone
      exact hone
    | ok st1 =>
      rw [hst] at hone
      refine (ih ?_).imp fun w hw => Relation.ReflTransGen.trans hone hw
      rwa [receiveOutput_records hst]

theorem receiveKey_moves (k : Nat) (pubKey : PublicKey) (st : Receiving) :
    Leaves Receiving.wallet (Moves a c st.wallet) (receiveKey a c k pubKey st) := by
  have hstay : Moves a c st.wallet st.wallet := .refl
  unfold receiveKey
  split
  · exact hstay
  split
  · exact hstay
  rename_i records s hscan
  obtain ⟨found, hfound⟩ := scanKey_found hscan
  have hcredit : ∀ o ∈ s.outs, Creditable c.tx.vout records o := by
    intro o ho
    rw [hfound.outs] at ho
    obtain ⟨j, hj, rfl⟩ := List.mem_map.mp ho
    rw [Nat.zero_add]
    exact hfound.creditable j hj
  unfold receiveScanned
  split
  · exact hstay
  split
  · exact hstay
  · exact receiveOuts_moves hcredit

theorem receiveKeys_moves (k : Nat) (keys : List PublicKey) (st : Receiving) :
    Leaves Receiving.wallet (Moves a c st.wallet) (receiveKeys a c k keys st) := by
  induction keys generalizing k st with
  | nil => exact Relation.ReflTransGen.refl
  | cons key keys ih =>
    have hone := receiveKey_moves (a := a) (c := c) k key st
    rw [receiveKeys]
    cases hst : receiveKey a c k key st with
    | error f =>
      rw [hst] at hone
      exact hone
    | ok st1 =>
      rw [hst] at hone
      exact (ih _ _).imp fun w hw => Relation.ReflTransGen.trans hone hw

/-! ## Inputs -/

theorem spendInputs_moves {inputs : List TxinV} (hinputs : ∀ input ∈ inputs, input ∈ c.tx.vin)
    (st : Spending) : Leaves Spending.wallet (Moves a c st.wallet) (spendInputs c inputs st) := by
  induction inputs generalizing st with
  | nil => exact Relation.ReflTransGen.refl
  | cons input inputs ih =>
    obtain ⟨hfirst, hrest⟩ := List.forall_mem_cons.mp hinputs
    rw [spendInputs]
    have hone : Leaves Spending.wallet (Moves a c st.wallet) (spendInput c input st) := by
      unfold spendInput
      split
      · split
        · exact Relation.ReflTransGen.refl
        rename_i place hplace
        split
        · exact Relation.ReflTransGen.refl
        rename_i td htd
        exact Relation.ReflTransGen.single (.spend hfirst hplace htd)
      · exact Relation.ReflTransGen.refl
    cases hst : spendInput c input st with
    | error f =>
      rw [hst] at hone
      exact hone
    | ok st1 =>
      rw [hst] at hone
      exact (ih hrest st1).imp fun w hw => Relation.ReflTransGen.trans hone hw

/-! ## The rest -/

theorem sameTransfers_processUnconfirmed (w : Wallet2) (txid : Hash) (height : Nat) :
    SameTransfers w (w.processUnconfirmed a txid height) := by
  unfold Wallet2.processUnconfirmed
  split <;> exact ⟨rfl, rfl, rfl, rfl⟩

theorem sameTransfers_recordSpending (moneyGot : Tally SubaddressIndex UInt64) (st : Spending) :
    SameTransfers st.wallet (recordSpending a c moneyGot st) := by
  unfold recordSpending
  dsimp only
  split
  · exact .refl _
  split
  · exact .refl _
  split
  · split <;> exact ⟨rfl, rfl, rfl, rfl⟩
  · split <;> exact ⟨rfl, rfl, rfl, rfl⟩

theorem sameTransfers_recordPayments (r : Receiving) (fee : UInt64) (w : Wallet2)
    (rest : Tally SubaddressIndex UInt64) : SameTransfers w (recordPayments c r fee w rest) := by
  induction rest generalizing w with
  | nil => exact .refl _
  | cons e rest ih =>
    refine SameTransfers.trans ?_ (ih _)
    split <;> exact ⟨rfl, rfl, rfl, rfl⟩

theorem finishTransaction_moves (r : Receiving) (st : Spending) :
    Leaves id (SameTransfers st.wallet) (finishTransaction a c r st) := by
  have hspending := sameTransfers_recordSpending (a := a) (c := c) r.moneyGot st
  unfold finishTransaction
  dsimp only
  split
  · exact hspending
  split
  · exact hspending
  · exact hspending.trans (sameTransfers_recordPayments _ _ _ _)

/-- **A call is a sequence of moves**, up to where it returns or throws. -/
theorem processNewTransaction_moves (a : Account) (c : TxContext) (w : Wallet2) :
    Moves a c w (left (processNewTransaction a c w)) := by
  have hbefore : Moves a c w (w.beforeOutputs a c) := by
    unfold Wallet2.beforeOutputs
    split
    · exact .single (.other (sameTransfers_processUnconfirmed _ _ _))
    · exact .refl
  have hreceive := receiveKeys_moves (a := a) (c := c) 0 (loopKeys a c)
    (.start c (w.beforeOutputs a c))
  refine leaves_left ?_
  unfold processNewTransaction receiveOutputs
  cases hr : receiveKeys a c 0 (loopKeys a c) (.start c (w.beforeOutputs a c)) with
  | error f =>
    rw [hr] at hreceive
    exact hbefore.trans hreceive
  | ok r =>
    rw [hr] at hreceive
    have hreceived : Moves a c w r.wallet := hbefore.trans hreceive
    dsimp only
    split
    · exact hreceived
    have hspend := spendInputs_moves (a := a) (c := c) (fun _ h => h) { wallet := r.wallet }
    cases hst : spendInputs c c.tx.vin { wallet := r.wallet } with
    | error f =>
      rw [hst] at hspend
      exact hreceived.trans hspend
    | ok st =>
      rw [hst] at hspend
      refine (finishTransaction_moves r st).imp fun w' hw' => ?_
      exact (hreceived.trans hspend).tail (.other hw')

end Hashmonkey.Wallet
