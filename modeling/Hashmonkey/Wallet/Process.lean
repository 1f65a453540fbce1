import Mathlib.Data.UInt
import Hashmonkey.Core.BlockReward
import Hashmonkey.Wallet.Receive

/-!
# A transaction for the wallet (`wallet/wallet2.cpp`)

The second half of `process_new_transaction`: the inputs that spend outputs of the wallet, the own
transactions, the check of the amounts, and the payments.

* `processUnconfirmed`: an own transaction that is in a block now;
* `spendInputs`: the loop over the inputs. The height is that of the block, or zero in the pool, and
  it is set whether or not the output was marked spent before;
* `recordSpending`: `process_outgoing` and `add_unconfirmed_tx`;
* `recordPayments`: the payments, after the change is taken out and the amounts are compared;
* `processNewTransaction`: all of it, in the order of the source. It returns the wallet, or what was
  thrown with the wallet as it is then: nothing is rolled back. Amounts that do not add up end the
  program (`exit`).

Callbacks are left out.
-/

open Hashmonkey.Core

namespace Hashmonkey.Wallet

open Basic Crypto Lib Ringct Serialization

/-! ## Own transactions -/

/-- `process_unconfirmed`. -/
def Wallet2.processUnconfirmed (a : Account) (w : Wallet2) (txid : Hash) (height : Nat) :
    Wallet2 :=
  match w.unconfirmedTxs[txid]? with
  | none => w
  | some utd =>
    { w with
      unconfirmedTxs := w.unconfirmedTxs.erase txid
      -- `insert` keeps an entry that is there
      confirmedTxs :=
        if a.storeTxInfo ∧ txid ∉ w.confirmedTxs then
          w.confirmedTxs.insert txid
            { amountIn := utd.amountIn
              amountOut := utd.amountOut
              change := utd.change
              blockHeight := height
              paymentId := utd.paymentId
              timestamp := utd.timestamp
              unlockTime := utd.tx.unlockTime
              subaddrAccount := utd.subaddrAccount
              subaddrIndices := utd.subaddrIndices }
        else w.confirmedTxs }

/-- `get_outgoing_amount`. -/
def getOutgoingAmount (tx : Transaction) (amountSpent : UInt64) : UInt64 :=
  if tx.version = 1 then getOutsMoneyAmount tx.toTransactionPrefix
  else amountSpent - tx.rctSignatures.txnFee

/-- `add_unconfirmed_tx`, given the sum of the destinations and the change. -/
def Wallet2.addUnconfirmedTx (w : Wallet2) (txid : Hash) (tx : Transaction)
    (amountIn amountOut : UInt64) (paymentId : Hash) (change : UInt64) (account : UInt32)
    (indices : List UInt32) (now : Nat) : Wallet2 :=
  { w with
    unconfirmedTxs := w.unconfirmedTxs.insert txid
      { tx := tx.toTransactionPrefix
        amountIn
        amountOut
        change
        sentTime := now
        paymentId
        state := .pending
        timestamp := now
        subaddrAccount := account
        subaddrIndices := indices } }

/-! ## Inputs -/

/-- What the loop over the inputs collects. -/
structure Spending where
  wallet : Wallet2
  /-- `tx_money_spent_in_ins` -/
  moneySpent : UInt64 := 0
  subaddrAccount : Option UInt32 := none
  subaddrIndices : List UInt32 := []

/-- A transfer is spent at a height, with an amount. -/
def Wallet2.spendTransfer (w : Wallet2) (place : Nat) (amount : UInt64) (height : Nat) : Wallet2 :=
  { w with transfers := w.transfers.modify place fun td => { td with amount }.setSpent height }

/-- An input with a key image of the wallet. An amount that differs from the one of the transfer
replaces it. -/
def Spending.spend (c : TxContext) (i : TxinToKey) (place : Nat) (td : TransferDetails)
    (st : Spending) : Spending :=
  let amount := if i.amount > 0 then i.amount else td.amount
  { wallet := st.wallet.spendTransfer place amount c.height
    moneySpent := st.moneySpent + amount
    subaddrAccount := some td.subaddrIndex.major
    subaddrIndices := td.subaddrIndex.minor :: st.subaddrIndices.erase td.subaddrIndex.minor }

/-- One input. -/
def spendInput (c : TxContext) (input : TxinV) (st : Spending) : Except Fault Spending :=
  match input with
  | .key i =>
    match st.wallet.keyImages[i.kImage]? with
    | none => .ok st
    | some place =>
      match st.wallet.transfers[place]? with
      | none => .error ⟨.walletInternalError "Invalid index", st.wallet⟩
      | some td => .ok (st.spend c i place td)
  | _ => .ok st

/-- The loop over the inputs. -/
def spendInputs (c : TxContext) : List TxinV → Spending → Except Fault Spending
  | [], st => .ok st
  | input :: inputs, st =>
    match spendInput c input st with
    | .error f => .error f
    | .ok st => spendInputs c inputs st

theorem spendInputs_internal {c : TxContext} {inputs : List TxinV} {st : Spending} {f : Fault}
    (h : spendInputs c inputs st = .error f) : f.error.IsInternal := by
  induction inputs generalizing st with
  | nil => cases h
  | cons input inputs ih =>
    rw [spendInputs] at h
    split at h
    · rename_i hone
      cases h
      unfold spendInput at hone
      split at hone
      · split at hone
        · cases hone
        · split at hone
          · cases hone
            exact ⟨_, rfl⟩
          · cases hone
      · cases hone
    · exact ih h

/-! ## Accounts and payments -/

/-- The fee. -/
def txFee (c : TxContext) (moneySpent : UInt64) : UInt64 :=
  if c.minerTx then 0
  else if c.tx.version = 1 then moneySpent - getOutsMoneyAmount c.tx.toTransactionPrefix
  else c.tx.rctSignatures.txnFee

/-- `process_outgoing`. -/
def Wallet2.processOutgoing (a : Account) (c : TxContext) (w : Wallet2) (spent received : UInt64)
    (account : UInt32) (indices : List UInt32) : Wallet2 :=
  let details : ConfirmedTransferDetails :=
    (w.confirmedTxs[c.txid]?).getD
      { amountIn := spent
        amountOut := getOutgoingAmount c.tx spent
        change := received
        paymentId := ((extraNonce (a.parseTxExtra c.tx.extra)).bind
          getPaymentIdFromTxExtraNonce).getD nullHash
        subaddrAccount := account
        subaddrIndices := indices }
  { w with
    confirmedTxs := w.confirmedTxs.insert c.txid
      { details with
        blockHeight := c.height
        timestamp := c.ts
        unlockTime := c.tx.unlockTime } }

/-- What is noted if outputs of the wallet are spent. -/
def recordSpending (a : Account) (c : TxContext) (moneyGot : Tally SubaddressIndex UInt64)
    (st : Spending) : Wallet2 :=
  let w := st.wallet
  match st.subaddrAccount with
  | none => w
  | some account =>
    if st.moneySpent = 0 then w
    else
      let selfReceived := Tally.total (moneyGot.filter fun e => e.1.major = account)
      let fee := txFee c st.moneySpent
      if ¬ c.pool then
        let w := w.processOutgoing a c st.moneySpent selfReceived account st.subaddrIndices
        -- a transaction to the own account
        if st.moneySpent = selfReceived + fee then
          { w with confirmedTxs := w.confirmedTxs.modify c.txid fun d =>
            { d with change := selfReceived } }
        else w
      else if c.txid ∈ w.unconfirmedTxs then w
      else
        w.addUnconfirmedTx c.txid c.tx st.moneySpent (getOutgoingAmount c.tx st.moneySpent) nullHash
          selfReceived account st.subaddrIndices c.now

/-- The entries of the spending account are change. -/
def isChange (st : Spending) (e : SubaddressIndex × UInt64) : Bool :=
  st.subaddrAccount = some e.1.major

/-- `sub_change`. -/
def subChange (st : Spending) (moneyGot : Tally SubaddressIndex UInt64) : UInt64 :=
  Tally.total (moneyGot.filter (isChange st))

/-- What is left of `tx_money_got_in_outs` without the change. -/
def withoutChange (st : Spending) (moneyGot : Tally SubaddressIndex UInt64) :
    Tally SubaddressIndex UInt64 :=
  moneyGot.filter fun e => !isChange st e

/-- `emplace_or_replace`. -/
def emplaceOrReplace (payments : List (Hash × PoolPaymentDetails)) (id : Hash)
    (pd : PoolPaymentDetails) : List (Hash × PoolPaymentDetails) :=
  let same := fun p : Hash × PoolPaymentDetails =>
    decide (p.1 = id ∧ p.2.pd.txHash = pd.pd.txHash ∧ p.2.pd.subaddrIndex = pd.pd.subaddrIndex)
  match payments.findIdx? same with
  | some i => payments.set i (id, pd)
  | none => payments ++ [(id, pd)]

/-- A payment for each address that received something. -/
def recordPayments (c : TxContext) (r : Receiving) (fee : UInt64) (w : Wallet2) :
    Tally SubaddressIndex UInt64 → Wallet2
  | [] => w
  | (index, amount) :: rest =>
    let payment : PaymentDetails :=
      { txHash := c.txid
        fee
        amount
        amounts := r.individual.getD index []
        blockHeight := c.height
        unlockTime := c.tx.unlockTime
        timestamp := c.ts
        coinbase := c.minerTx
        subaddrIndex := index }
    let w :=
      if c.pool then
        { w with unconfirmedPayments :=
          emplaceOrReplace w.unconfirmedPayments r.paymentId ⟨payment, c.doubleSpendSeen⟩ }
      else { w with payments := w.payments ++ [(r.paymentId, payment)] }
    recordPayments c r fee w rest

/-- The part after the loops: the amounts are compared and payments recorded. -/
def finishTransaction (a : Account) (c : TxContext) (r : Receiving) (st : Spending) :
    Except Fault Wallet2 :=
  let w := recordSpending a c r.moneyGot st
  let rest := withoutChange st r.moneyGot
  if rest = [] then .ok w
  else if r.totalReceived ≠ subChange st r.moneyGot + rest.total then .error ⟨.exit, w⟩
  else .ok (recordPayments c r (txFee c st.moneySpent) w rest)

/-- The wallet that the loop over the keys starts with. -/
def Wallet2.beforeOutputs (a : Account) (c : TxContext) (w : Wallet2) : Wallet2 :=
  if ¬ c.minerTx ∧ ¬ c.pool then w.processUnconfirmed a c.txid c.height else w

/-- `process_new_transaction`. -/
def processNewTransaction (a : Account) (c : TxContext) (w : Wallet2) : Except Fault Wallet2 :=
  match receiveOutputs a c (w.beforeOutputs a c) with
  | .error f => .error f
  | .ok r =>
    if r.moneyGot.length ≠ r.individual.length then
      .error ⟨.walletInternalError "Inconsistent size of output arrays", r.wallet⟩
    else
      match spendInputs c c.tx.vin { wallet := r.wallet } with
      | .error f => .error f
      | .ok st => finishTransaction a c r st

/-- A transaction for examples. Each pair in `outs` is the byte of an output key and an amount; the
addresses of the wallet have the bytes 7 and 8. -/
def sampleContext (extra : Bytes) (outs : List (UInt8 × UInt8)) (height : Nat) : TxContext where
  txid := nullHash
  tx :=
    { version := 2
      vout := outs.map fun o => ⟨0, .key (Blob.fill o.1)⟩
      extra
      rctSignatures :=
        { type := .bulletproofPlus
          ecdhInfo := outs.map fun o => ⟨zeroKey, Blob.fill o.2⟩ } }
  oIndices := outs.map fun o => o.1.toUInt64
  height
  subaddresses := fun _ key => if key = Blob.fill 7 ∨ key = Blob.fill 8 then some ⟨0, 0⟩ else none

end Hashmonkey.Wallet
