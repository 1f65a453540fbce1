import Hashmonkey.Wallet.Process

/-!
# The amounts agree (`wallet2.cpp`)

`process_new_transaction` counts what it receives twice: `total_received_1` grows when an output is
stored, and `tx_money_got_in_outs` has a total for each address, which is changed when an output is
found, ignored or replaces another. At the end the two are compared, and the wallet exits if they
differ.

* `Creditable`: an output was found and its amount is the one that will be credited;
* `amountAt`: that amount. While the outputs found under a key are credited, the totals of the
  addresses are ahead by the amounts of those still to come (`Ahead`).

Result: **`received_amounts_agree`**, the amounts agree in every call, and for a transaction in a
block they are what the vector of transfers has gained.
-/

open Hashmonkey.Core

namespace Hashmonkey.Wallet

open Basic Crypto Lib Ringct Serialization List

variable {a : Account} {c : TxContext}

/-! ## Scanning -/

/-- After the check, the amount of an output that was found is the one in the transaction. -/
def Checked (o : TxOut) (r : OutRecord) : Prop :=
  r.info.received ≠ none → r.info.moneyTransfered = o.amount

theorem checked_once (k : Nat) (v : KeyView) (i : Nat) (o : TxOut) (r : OutRecord) :
    Checked o (checkAccOutPrecompOnce a c k v i o r) := by
  intro hr
  unfold checkAccOutPrecompOnce at hr ⊢
  split
  · rename_i hfound
    rw [if_pos hfound] at hr
    exact absurd rfl hr
  rename_i hfound
  rw [if_neg hfound] at hr
  unfold checkAccOutPrecomp at hr ⊢
  split
  · rename_i hkey
    rw [hkey] at hr
    exact absurd rfl hr
  · rename_i received hkey
    rw [hkey] at hr
    exact if_pos (Option.isSome_iff_ne_none.mpr hr)

/-- The amount found for an output. -/
def amountAt (records : List OutRecord) (o : Nat) : UInt64 :=
  (records[o]?.map fun r => r.info.amount).getD 0

/-- An output was found, with its key and the amount that will be credited. -/
def Creditable (vout : List TxOut) (records : List OutRecord) (o : Nat) : Prop :=
  ∃ out r received, vout[o]? = some out ∧ records[o]? = some r ∧ r.info.received = some received ∧
    getOutputPublicKey out = some r.info.pub ∧ creditedAmount out r.info = r.info.amount

/-- What a loop over the outputs from index `i` on has found: the places `found` count from there.
-/
structure Found (vout : List TxOut) (records : List OutRecord) (i : Nat) (s s' : Scanned)
    (found : List Nat) : Prop where
  outs : s'.outs = s.outs ++ found.map (i + ·)
  count : s'.numVoutsReceived = s.numVoutsReceived + found.length
  creditable : ∀ j ∈ found, Creditable vout records j
  total : s'.moneyGot.total = s.moneyGot.total + (found.map (amountAt records)).sum

variable {records : List OutRecord} {i : Nat}

theorem found_nil {vout : List TxOut} {s : Scanned} : Found vout records i s s [] :=
  ⟨(append_nil _).symm, rfl, forall_mem_nil _, (add_zero _).symm⟩

theorem outputAmount_credited {o : TxOut} {r : OutRecord}
    {received : SubaddressReceiveInfo} {money : UInt64} {pub : PublicKey} {ki : KeyImage}
    {mask : Key} (hchecked : Checked o r) (hr : r.info.received = some received)
    (hamount : outputAmount a c i received r.info = (money, mask)) :
    creditedAmount o (r.credit pub ki mask money).info = money := by
  have htransfered : r.info.moneyTransfered = o.amount :=
    hchecked (by rw [hr]; exact Option.some_ne_none _)
  unfold creditedAmount
  split
  · rename_i hne
    unfold outputAmount at hamount
    rw [htransfered, if_neg fun h => hne h.1] at hamount
    exact congrArg Prod.fst hamount
  · rfl

theorem scanOutputs_found {check : Nat → TxOut → OutRecord → OutRecord}
    {vout : List TxOut} {records' : List OutRecord} {s s' : Scanned}
    (hcheck : ∀ (j : Nat) (o : TxOut) (r : OutRecord), vout[j]? = some o → records[j]? = some r →
      Checked o (check (i + j) o r))
    (h : scanOutputs a c check i vout records s = .ok (records', s')) :
    ∃ found, Found vout records' i s s' found := by
  induction vout generalizing i records records' s with
  | nil =>
    cases h
    exact ⟨[], found_nil⟩
  | cons o vout ih =>
    cases records with
    | nil =>
      cases h
      exact ⟨[], found_nil⟩
    | cons r records =>
      rw [scanOutputs] at h
      split at h
      · cases h
      rename_i r1 s1 hone
      split at h
      · cases h
      rename_i records1 s2 hrest
      cases h
      obtain ⟨found, hfound⟩ := ih (fun j o r ho hr => by
        have hnext := hcheck (j + 1) o r ho hr
        rwa [← Nat.add_assoc, Nat.add_right_comm] at hnext) hrest
      have hchecked : Checked o (check i o r) := hcheck 0 o r rfl rfl
      -- the places of the rest, one further
      have hrest : Found (o :: vout) (r1 :: records1) i s1 s' (found.map (· + 1)) := by
        refine ⟨?_, ?_, forall_mem_map.mpr hfound.creditable, ?_⟩
        · rw [hfound.outs, map_map]
          refine congrArg _ (map_congr_left fun j _ => ?_)
          change i + 1 + j = i + (j + 1)
          omega
        · rw [hfound.count, length_map]
        · rw [hfound.total, map_map]
          rfl
      cases (scanChecked_ok hone).2 with
      | notOurs hr => exact ⟨_, hrest⟩
      | skipped hr hkey hkeys hamount => exact ⟨_, hrest⟩
      | @credited received key pub ki mask money hr hkey hkeys hamount hmoney =>
        refine ⟨0 :: found.map (· + 1), ?_, ?_, ?_, ?_⟩
        · rw [hrest.outs, map_cons]
          exact append_assoc s.outs [i] _
        · rw [hrest.count, length_cons]
          exact Nat.add_right_comm s.numVoutsReceived 1 _
        · refine forall_mem_cons.mpr ⟨?_, hrest.creditable⟩
          exact ⟨o, _, received, rfl, rfl, hr, by rw [hkey, outputKeys_pub hkeys]; rfl,
            outputAmount_credited hchecked hr hamount⟩
        · rw [hrest.total, map_cons, sum_cons]
          change (s.moneyGot.set received.index
            (s.moneyGot.getD received.index 0 + money)).total + _ = _ + (money + _)
          rw [Tally.total_set]
          abel

variable {k : Nat}

/-- **What is found for a key can be credited, and the totals of the addresses have it.** -/
theorem scanKey_found {v : KeyView} {records' : List OutRecord} {s s' : Scanned}
    (h : scanKey a c k v records s = .ok (records', s')) :
    ∃ found, Found c.tx.vout records' 0 s s' found := by
  unfold scanKey at h
  dsimp only at h
  split at h
  · cases h
    exact ⟨[], found_nil⟩
  · exact scanOutputs_found (fun j o r _ _ => checked_once k v (0 + j) o r) h
  split at h
  · rename_i o vout r records hvout
    split at h
    · cases h
    split at h
    · rw [hvout]
      refine scanOutputs_found (fun j o' r' ho hr => ?_) h
      cases j with
      | zero =>
        cases ho
        cases hr
        exact checked_once k v 0 o r
      | succ j =>
        obtain ⟨o1, r1, ho1, _, rfl⟩ := checkOutputs_at hr
        obtain rfl : o' = o1 := Option.some.inj (ho.symm.trans ho1)
        exact checked_once k v _ _ _
    · cases h
      exact ⟨[], found_nil⟩
  · cases h
    exact ⟨[], found_nil⟩

/-! ## Crediting -/

/-- The sum of `m_amount` over the transfers. -/
def sumAmounts (w : Wallet2) : UInt64 := (w.transfers.map TransferDetails.amount).sum

@[simp] theorem sumAmounts_multisigRescan (w : Wallet2) :
    sumAmounts (w.multisigRescan a) = sumAmounts w := by
  unfold Wallet2.multisigRescan
  split
  · rename_i td _ hlast
    rw [getLast?_eq_getElem?] at hlast
    unfold sumAmounts
    rw [sum_map_modify _ _ hlast]
    exact add_sub_cancel_right _ _
  · rfl

theorem sumAmounts_pushTransfer (w : Wallet2) (k o : Nat) (out : TxOut)
    (globalIndex amount : UInt64) (index : SubaddressIndex) (info : TxScanInfo) :
    sumAmounts (w.pushTransfer a c k o out globalIndex amount index info) =
      sumAmounts w + amount := by
  rw [Wallet2.pushTransfer, sumAmounts_multisigRescan]
  unfold sumAmounts
  rw [map_append, sum_append]
  exact congrArg _ (add_zero amount)

variable {w : Wallet2}

theorem sumAmounts_replaceTransfer {place : Nat} {td : TransferDetails}
    (h : w.transfers[place]? = some td) (k o : Nat) (out : TxOut) (globalIndex amount : UInt64)
    (index : SubaddressIndex) (info : TxScanInfo) :
    sumAmounts (w.replaceTransfer a c place k o out globalIndex amount index info) =
      sumAmounts w + (amount - td.amount) := by
  rw [Wallet2.replaceTransfer, sumAmounts_multisigRescan]
  unfold sumAmounts
  rw [sum_map_modify _ _ h]
  exact add_sub_assoc _ _ _

/-- The totals of the addresses are ahead of `total_received_1` by the amounts of the outputs still
to be credited, and the transfers have gained what was received. -/
structure Ahead (c : TxContext) (base : UInt64) (outs : List Nat) (st : Receiving) : Prop where
  total : st.moneyGot.total = st.totalReceived + (outs.map (amountAt st.records)).sum
  stored : c.pool = false → sumAmounts st.wallet = base + st.totalReceived

variable {base : UInt64} {st st' : Receiving}

theorem receiveOutput_ahead {o : Nat} {outs : List Nat}
    (hcredit : Creditable c.tx.vout st.records o) (h : Ahead c base (o :: outs) st)
    (hst : receiveOutput a c k o st = .ok st') : Ahead c base outs st' := by
  obtain ⟨out, r, received, hout, hr, hreceived, _, hamount⟩ := hcredit
  have hat : amountAt st.records o = r.info.amount := by rw [amountAt, hr]; rfl
  have htotal := h.total
  rw [map_cons, sum_cons, hat] at htotal
  unfold receiveOutput at hst
  rw [hout, hr] at hst
  dsimp only at hst
  rw [hreceived] at hst
  dsimp only at hst
  split at hst
  · cases hst
    refine ⟨?_, ?_⟩
    · change st.moneyGot.total = st.totalReceived + creditedAmount out r.info + _
      rw [htotal, hamount, add_assoc]
      rfl
    · intro hpool
      change sumAmounts (if c.pool then _ else _) = _
      rw [if_neg (by rw [hpool]; exact Bool.false_ne_true), sumAmounts_pushTransfer,
        h.stored hpool, add_assoc]
      rfl
  · split at hst
    · cases hst
    rename_i td htd
    split at hst
    · unfold receiveIgnored at hst
      dsimp only at hst
      split at hst
      · cases hst
      split at hst
      · cases hst
      cases hst
      refine ⟨?_, h.stored⟩
      rw [Tally.total_set, htotal]
      abel
    · unfold receiveReplacing at hst
      dsimp only at hst
      split at hst
      · cases hst
      split at hst
      · cases hst
      split at hst
      · cases hst
      split at hst
      · cases hst
      cases hst
      refine ⟨?_, ?_⟩
      · change (st.moneyGot.set _ _).total =
          st.totalReceived + (creditedAmount out r.info - td.amount) + _
        rw [Tally.total_set, htotal, hamount]
        abel
      · intro hpool
        rw [if_neg (by rw [hpool]; exact Bool.false_ne_true),
          sumAmounts_replaceTransfer htd, h.stored hpool, add_assoc]

theorem receiveOuts_ahead {outs : List Nat}
    (hcredit : ∀ o ∈ outs, Creditable c.tx.vout st.records o) (h : Ahead c base outs st)
    (hst : receiveOuts a c k outs st = .ok st') : Ahead c base [] st' := by
  induction outs generalizing st with
  | nil =>
    cases hst
    exact h
  | cons o outs ih =>
    rw [receiveOuts] at hst
    split at hst
    · cases hst
    rename_i st1 hone
    obtain ⟨hfirst, hrest⟩ := forall_mem_cons.mp hcredit
    refine ih ?_ (receiveOutput_ahead hfirst h hone) hst
    rwa [receiveOutput_records hone]

/-! ## All keys -/

theorem receiveKey_ahead {pubKey : PublicKey} (h : Ahead c base [] st)
    (hst : receiveKey a c k pubKey st = .ok st') : Ahead c base [] st' := by
  have htotal : st.moneyGot.total = st.totalReceived := h.total.trans (add_zero _)
  unfold receiveKey at hst
  split at hst
  · cases hst
  split at hst
  · cases hst
  rename_i records s hscan
  obtain ⟨found, hfound⟩ := scanKey_found hscan
  have houts : s.outs = found := by
    rw [hfound.outs]
    exact (nil_append _).trans (map_congr_left fun j _ => Nat.zero_add j) |>.trans
      (map_id _)
  have hmoney : s.moneyGot.total =
      st.totalReceived + (found.map (amountAt records)).sum := by
    rw [hfound.total, ← htotal]
  have hnone : s.outs = [] ∨ s.numVoutsReceived = 0 → found = [] := by
    rintro (hnil | hzero)
    · exact houts.symm.trans hnil
    · rw [hfound.count] at hzero
      exact eq_nil_of_length_eq_zero (Nat.eq_zero_of_add_eq_zero_left hzero)
  unfold receiveScanned at hst
  split at hst
  · rename_i hempty
    cases hst
    rw [hnone hempty] at hmoney
    exact ⟨hmoney, h.stored⟩
  · split at hst
    · cases hst
    · rw [houts] at hst
      refine receiveOuts_ahead hfound.creditable ?_ hst
      exact ⟨hmoney, h.stored⟩

theorem receiveKeys_ahead {keys : List PublicKey} (h : Ahead c base [] st)
    (hst : receiveKeys a c k keys st = .ok st') : Ahead c base [] st' := by
  induction keys generalizing k st with
  | nil =>
    cases hst
    exact h
  | cons key keys ih =>
    rw [receiveKeys] at hst
    split at hst
    · cases hst
    rename_i st1 hone
    exact ih (receiveKey_ahead h hone) hst

theorem sumAmounts_beforeOutputs (w : Wallet2) :
    sumAmounts (w.beforeOutputs a c) = sumAmounts w := by
  unfold Wallet2.beforeOutputs
  split
  · unfold Wallet2.processUnconfirmed
    split <;> rfl
  · rfl

theorem receiveOutputs_ahead {r : Receiving}
    (h : receiveOutputs a c (w.beforeOutputs a c) = .ok r) : Ahead c (sumAmounts w) [] r := by
  refine receiveKeys_ahead ⟨(add_zero 0).symm, fun _ => ?_⟩ h
  exact (sumAmounts_beforeOutputs w).trans (add_zero _).symm

/-- `total_received_1` is what the change and the other totals add up to. -/
theorem total_received {r : Receiving} (h : Ahead c base [] r) (st : Spending) :
    r.totalReceived = subChange st r.moneyGot + (withoutChange st r.moneyGot).total := by
  rw [subChange, withoutChange, Tally.total_filter, h.total]
  exact (add_zero _).symm

/-! ## The result -/

theorem processNewTransaction_ne_exit {f : Fault}
    (h : processNewTransaction a c w = .error f) : f.error ≠ .exit := by
  unfold processNewTransaction at h
  split at h
  · rename_i hreceive
    cases h
    exact receiveKeys_ne_exit hreceive
  rename_i r hreceive
  split at h
  · cases h
    exact WalletError.noConfusion
  split at h
  · rename_i hspend
    cases h
    exact (spendInputs_internal hspend).ne_exit
  rename_i st _
  unfold finishTransaction at h
  dsimp only at h
  rw [if_neg (not_not.mpr (total_received (receiveOutputs_ahead hreceive) st))] at h
  split at h <;> cases h

/-- **The amounts agree.** `process_new_transaction` never exits: when it compares the amounts,
`total_received_1` is the change and the totals of the other addresses together. For a transaction
in a block it is also what the loop over the outputs has added to the amounts of the transfers. -/
theorem received_amounts_agree (a : Account) (c : TxContext) (w : Wallet2) :
    (∀ f, processNewTransaction a c w = .error f → f.error ≠ .exit) ∧
      ∀ r st, receiveOutputs a c (w.beforeOutputs a c) = .ok r →
        spendInputs c c.tx.vin { wallet := r.wallet } = .ok st →
        r.totalReceived = subChange st r.moneyGot + (withoutChange st r.moneyGot).total ∧
          (c.pool = false → sumAmounts r.wallet = sumAmounts w + r.totalReceived) := by
  refine ⟨fun f h => processNewTransaction_ne_exit h, fun r st hreceive _ => ?_⟩
  have hahead := receiveOutputs_ahead hreceive
  exact ⟨total_received hahead st, hahead.stored⟩

/-- Two outputs with one key, worth 3 and 5: the second replaces the first. -/
theorem received_amounts_agree_replaced : ∃ r st,
    receiveOutputs sampleAccount (sampleContext [1] [(7, 3), (7, 5)] 2) {} = .ok r ∧
      r.wallet.transfers.map TransferDetails.amount = [5] ∧
      r.totalReceived = subChange st r.moneyGot + (withoutChange st r.moneyGot).total ∧
      sumAmounts r.wallet = sumAmounts {} + r.totalReceived := by
  have hrun : (receiveOutputs sampleAccount (sampleContext [1] [(7, 3), (7, 5)] 2) {}).toOption.map
      (fun r => r.wallet.transfers.map TransferDetails.amount) = some [5] := by decide
  cases hreceive : receiveOutputs sampleAccount (sampleContext [1] [(7, 3), (7, 5)] 2) {} with
  | error f =>
    rw [hreceive] at hrun
    cases hrun
  | ok r =>
    rw [hreceive] at hrun
    have hagree := (received_amounts_agree sampleAccount (sampleContext [1] [(7, 3), (7, 5)] 2)
      {}).2 r { wallet := r.wallet } hreceive rfl
    exact ⟨r, _, rfl, Option.some.inj hrun, hagree.1, hagree.2 rfl⟩

end Hashmonkey.Wallet
