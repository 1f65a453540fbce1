import Hashmonkey.Wallet.Scan

/-!
# Crediting outputs (`wallet/wallet2.cpp`)

The first half of `process_new_transaction`: for each public key of a transaction the outputs are
scanned, and each of those found is compared with what the wallet has under its public key.

* `Receiving`: the local variables that live across the keys, with the wallet. A throw carries the
  wallet as it is then;
* `receiveOutput`: an output is new, or ignored because the wallet has one with the same key that is
  spent or not smaller, or it replaces a smaller one. The replaced transfer keeps its place in the
  vector and gets the height of the new output;
* `findPaymentId`: the payment id of the extra nonce, decrypted if it is a short one. A long one
  counts below block version 12 only;
* `receiveKey`, `receiveOutputs`: the loop over the keys.

In the pool nothing is stored, but the amounts are counted all the same.
-/

namespace Hashmonkey.Wallet

open Basic Crypto Lib Ringct Serialization

/-! ## The state of the loop -/

/-- The local variables of `process_new_transaction` that live across the keys, and the wallet. -/
structure Receiving where
  wallet : Wallet2
  records : List OutRecord
  /-- `tx_money_got_in_outs` -/
  moneyGot : Tally SubaddressIndex UInt64 := []
  /-- `tx_amounts_individual_outs` -/
  individual : Tally SubaddressIndex (List UInt64) := []
  /-- `total_received_1` -/
  totalReceived : UInt64 := 0
  paymentId : Hash := nullHash

/-- An exception, with the wallet as it is. -/
def Receiving.throw (st : Receiving) (message : String) : Except Fault Receiving :=
  .error ⟨.walletInternalError message, st.wallet⟩

/-! ## Payment ids -/

/-- `get_payment_id_from_tx_extra_nonce`. -/
def getPaymentIdFromTxExtraNonce (nonce : Bytes) : Option Hash :=
  match nonce with
  | 0x00 :: id => if h : id.length = 32 then some ⟨id, h⟩ else none
  | _ => none

/-- `get_encrypted_payment_id_from_tx_extra_nonce`. -/
def getEncryptedPaymentIdFromTxExtraNonce (nonce : Bytes) : Option (Blob 8) :=
  match nonce with
  | 0x01 :: id => if h : id.length = 8 then some ⟨id, h⟩ else none
  | _ => none

/-- The short id in the first 8 bytes, and zeros. -/
def padPaymentId (id : Blob 8) : Hash :=
  ⟨id.1 ++ List.replicate 24 0, id.length_pad⟩

/-- The payment id that goes with outputs found under a key, given the one found before. -/
def findPaymentId (a : Account) (c : TxContext) (txPubKey : PublicKey) (before : Hash) : Hash :=
  match extraNonce (txExtraFields a c) with
  | none => before
  | some nonce =>
    match getEncryptedPaymentIdFromTxExtraNonce nonce with
    | some encrypted =>
      if txPubKey = zeroKey then before
      else
        ((a.decryptPaymentId encrypted txPubKey).map padPaymentId).getD before
    | none =>
      match getPaymentIdFromTxExtraNonce nonce with
      | none => before
      -- `IGNORE_LONG_PAYMENT_ID_FROM_BLOCK_VERSION`
      | some id => if c.blockVersion ≥ 12 then nullHash else id

/-! ## One output -/

/-- What a new and a replaced transfer have in common: where the output is and what it is worth. -/
def TransferDetails.describe (td : TransferDetails) (c : TxContext) (k o : Nat) (out : TxOut)
    (globalIndex amount : UInt64) (index : SubaddressIndex) (mask : Key) : TransferDetails :=
  { td with
    blockHeight := c.height
    internalOutputIndex := o
    globalOutputIndex := globalIndex
    tx := c.tx.toTransactionPrefix
    txid := c.txid
    amount
    pkIndex := k
    subaddrIndex := index
    mask := if out.amount = 0 then mask else identity
    rct := out.amount = 0 ∨ c.minerTx ∧ c.tx.version = 2 }

/-- `transfer_details{}`. -/
def TransferDetails.blank : TransferDetails where
  blockHeight := 0
  tx := {}
  txid := nullHash
  internalOutputIndex := 0
  globalOutputIndex := 0
  spent := false
  frozen := false
  spentHeight := 0
  keyImage := zeroKey
  mask := zeroKey
  amount := 0
  rct := false
  keyImageKnown := false
  keyImageRequest := false
  pkIndex := 0
  subaddrIndex := ⟨0, 0⟩
  keyImagePartial := false

/-- The key image of a new transfer, and whether it is known: a wallet that cannot compute it may
have a mapping from signing offline. -/
def newKeyImage (a : Account) (info : TxScanInfo) : KeyImage × Bool :=
  if ¬ a.watchOnly ∧ ¬ a.multisig ∧ ¬ a.backgroundSyncing then (info.ki, true)
  else
    match a.coldKeyImage info.pub with
    | some ki => (ki, true)
    | none => (info.ki, false)

/-- `update_multisig_rescan_info`, if there is data for the last transfer. -/
def Wallet2.multisigRescan (a : Account) (w : Wallet2) : Wallet2 :=
  match (if a.multisig then a.multisigRescan (w.transfers.length - 1) else none),
    w.transfers.getLast? with
  | some ki, some td =>
    { w with
      transfers := w.transfers.modify (w.transfers.length - 1) fun td =>
        { td with
          keyImage := ki
          keyImageKnown := true
          keyImageRequest := false
          keyImagePartial := false }
      keyImages := (w.keyImages.erase td.keyImage).insert ki (w.transfers.length - 1) }
  | _, _ => w

/-- A new transfer at the end of the vector, and its entries in the maps. -/
def Wallet2.pushTransfer (a : Account) (c : TxContext) (w : Wallet2) (k o : Nat) (out : TxOut)
    (globalIndex amount : UInt64) (index : SubaddressIndex) (info : TxScanInfo) : Wallet2 :=
  let key := newKeyImage a info
  let td :=
    { TransferDetails.blank.describe c k o out globalIndex amount index info.mask with
      keyImage := key.1
      keyImageKnown := key.2
      keyImageRequest := a.watchOnly
      keyImagePartial := a.multisig }
  let place := w.transfers.length
  Wallet2.multisigRescan a
    { w with
      transfers := w.transfers ++ [td]
      keyImages := if key.2 then w.keyImages.insert key.1 place else w.keyImages
      pubKeys := w.pubKeys.insert info.pub place }

/-- The transfer at a place is replaced by a larger output with the same key. -/
def Wallet2.replaceTransfer (a : Account) (c : TxContext) (w : Wallet2) (place k o : Nat)
    (out : TxOut) (globalIndex amount : UInt64) (index : SubaddressIndex) (info : TxScanInfo) :
    Wallet2 :=
  Wallet2.multisigRescan a
    { w with
      transfers := w.transfers.modify place fun td =>
        td.describe c k o out globalIndex amount index info.mask }

/-- The amount is taken from the output, or what was decoded if that is zero. -/
def creditedAmount (out : TxOut) (info : TxScanInfo) : UInt64 :=
  if out.amount ≠ 0 then out.amount else info.amount

/-- The case of a public key that the wallet does not have. -/
def receiveNew (a : Account) (c : TxContext) (k o : Nat) (out : TxOut) (info : TxScanInfo)
    (index : SubaddressIndex) (st : Receiving) : Receiving :=
  let amount := creditedAmount out info
  { st with
    wallet :=
      if c.pool then st.wallet
      else st.wallet.pushTransfer a c k o out (c.oIndices[o]?.getD 0) amount index info
    totalReceived := st.totalReceived + amount }

/-- The case of an output that is not worth more than the transfer that has its public key. -/
def receiveIgnored (info : TxScanInfo) (index : SubaddressIndex) (st : Receiving) :
    Except Fault Receiving :=
  if st.moneyGot.getD index 0 < info.amount then
    st.throw "Unexpected values of new and old outputs"
  else
    let amounts := st.individual.getD index []
    if info.amount ∉ amounts then st.throw "Unexpected values of new and old outputs"
    else
      .ok
        { st with
          moneyGot := st.moneyGot.set index (st.moneyGot.getD index 0 - info.amount)
          individual := st.individual.set index (amounts.erase info.amount) }

/-- The case of an output that replaces a smaller one. -/
def receiveReplacing (a : Account) (c : TxContext) (k o : Nat) (out : TxOut) (info : TxScanInfo)
    (index : SubaddressIndex) (place : Nat) (td : TransferDetails) (st : Receiving) :
    Except Fault Receiving :=
  if st.moneyGot.getD index 0 < info.amount then
    st.throw "Unexpected values of new and old outputs"
  else if td.amount > info.amount then st.throw "Unexpected values of new and old outputs"
  else
    let amount := creditedAmount out info
    let burnt := td.amount
    let wallet :=
      if c.pool then st.wallet
      else st.wallet.replaceTransfer a c place k o out (c.oIndices[o]?.getD 0) amount index info
    let st :=
      { st with
        wallet
        moneyGot := st.moneyGot.set index (st.moneyGot.getD index 0 - burnt) }
    if ¬ c.pool ∧
        (td.describe c k o out (c.oIndices[o]?.getD 0) amount index info.mask).getPublicKey ≠
          some info.pub then st.throw "Inconsistent public keys"
    else if ¬ c.pool ∧ td.spent then st.throw "Inconsistent spent status"
    else .ok { st with totalReceived := st.totalReceived + (amount - burnt) }

/-- One output that was found and has an amount. -/
def receiveOutput (a : Account) (c : TxContext) (k o : Nat) (st : Receiving) :
    Except Fault Receiving :=
  match c.tx.vout[o]?, st.records[o]? with
  | some out, some r =>
    match r.info.received with
    -- not reached: the output was scanned
    | none => .ok st
    | some received =>
      match st.wallet.pubKeys[r.info.pub]? with
      | none => .ok (receiveNew a c k o out r.info received.index st)
      | some place =>
        match st.wallet.transfers[place]? with
        | none => st.throw "Unexpected transfer index from public key"
        | some td =>
          if td.spent ∨ td.amount ≥ r.info.amount then receiveIgnored r.info received.index st
          else receiveReplacing a c k o out r.info received.index place td st
  | _, _ => st.throw "wrong out in transaction"

/-- The loop over the outputs found under a key. -/
def receiveOuts (a : Account) (c : TxContext) (k : Nat) : List Nat → Receiving →
    Except Fault Receiving
  | [], st => .ok st
  | o :: outs, st =>
    match receiveOutput a c k o st with
    | .error f => .error f
    | .ok st => receiveOuts a c k outs st

/-! ## The keys -/

/-- What is done with the outputs found under a key. -/
def receiveScanned (a : Account) (c : TxContext) (k : Nat) (pubKey : PublicKey)
    (records : List OutRecord) (s : Scanned) (st : Receiving) : Except Fault Receiving :=
  let st := { st with records, moneyGot := s.moneyGot, individual := s.individual }
  if s.outs = [] ∨ s.numVoutsReceived = 0 then .ok st
  else if ¬ c.pool ∧ c.tx.vout.length ≠ c.oIndices.length then
    st.throw "transactions outputs size does not match with daemon response size"
  else receiveOuts a c k s.outs { st with paymentId := findPaymentId a c pubKey st.paymentId }

/-- One turn of the loop over the keys. -/
def receiveKey (a : Account) (c : TxContext) (k : Nat) (pubKey : PublicKey) (st : Receiving) :
    Except Fault Receiving :=
  match keyView a c k pubKey with
  | .error e => .error ⟨e, st.wallet⟩
  | .ok v =>
    match scanKey a c k v st.records
        { moneyGot := st.moneyGot, individual := st.individual } with
    | .error e => .error ⟨e, st.wallet⟩
    | .ok (records, s) => receiveScanned a c k pubKey records s st

/-- The loop over the keys from number `k` on. -/
def receiveKeys (a : Account) (c : TxContext) : Nat → List PublicKey → Receiving →
    Except Fault Receiving
  | _, [], st => .ok st
  | k, pubKey :: keys, st =>
    match receiveKey a c k pubKey st with
    | .error f => .error f
    | .ok st => receiveKeys a c (k + 1) keys st

/-- The keys that the loop goes through: none if there are no outputs. -/
def loopKeys (a : Account) (c : TxContext) : List PublicKey :=
  if c.tx.vout = [] then [] else txPubKeys (txExtraFields a c)

/-- What the loop starts with. -/
def Receiving.start (c : TxContext) (w : Wallet2) : Receiving where
  wallet := w
  records := List.replicate c.tx.vout.length {}

/-- The first half of `process_new_transaction`. -/
def receiveOutputs (a : Account) (c : TxContext) (w : Wallet2) : Except Fault Receiving :=
  receiveKeys a c 0 (loopKeys a c) (.start c w)

/-! ## Exceptions and records -/

section

variable {a : Account} {c : TxContext}

variable {st : Receiving} {f : Fault}

/-- An internal error, or a state with the same records. -/
def KeepsRecords (st : Receiving) : Except Fault Receiving → Prop
  | .error f => f.error.IsInternal
  | .ok st' => st'.records = st.records

theorem receiveOutput_keepsRecords (a : Account) (c : TxContext) (k o : Nat) (st : Receiving) :
    KeepsRecords st (receiveOutput a c k o st) := by
  have hthrow : ∀ st' message, KeepsRecords st (Receiving.throw st' message) := fun _ _ => ⟨_, rfl⟩
  unfold receiveOutput receiveIgnored receiveReplacing
  dsimp only
  split
  swap
  · exact hthrow _ _
  split
  · rfl
  split
  · rfl
  split
  · exact hthrow _ _
  split
  · split
    · exact hthrow _ _
    split
    · exact hthrow _ _
    · rfl
  split
  · exact hthrow _ _
  split
  · exact hthrow _ _
  split
  · exact hthrow _ _
  split
  · exact hthrow _ _
  · rfl

variable {k : Nat}

theorem receiveOutput_records {o : Nat} {st' : Receiving}
    (h : receiveOutput a c k o st = .ok st') : st'.records = st.records := by
  have hkeeps := receiveOutput_keepsRecords a c k o st
  rwa [h] at hkeeps

theorem receiveOuts_internal {outs : List Nat}
    (h : receiveOuts a c k outs st = .error f) : f.error.IsInternal := by
  induction outs generalizing st with
  | nil => cases h
  | cons o outs ih =>
    rw [receiveOuts] at h
    split at h
    · rename_i hone
      cases h
      have hkeeps := receiveOutput_keepsRecords a c k o st
      rwa [hone] at hkeeps
    · exact ih h

theorem receiveScanned_internal {pubKey : PublicKey} {records : List OutRecord} {s : Scanned}
    (h : receiveScanned a c k pubKey records s st = .error f) : f.error.IsInternal := by
  unfold receiveScanned at h
  split at h
  · cases h
  split at h
  · cases h
    exact ⟨_, rfl⟩
  · exact receiveOuts_internal h

theorem receiveKeys_ne_exit {keys : List PublicKey}
    (h : receiveKeys a c k keys st = .error f) : f.error ≠ .exit := by
  induction keys generalizing k st with
  | nil => cases h
  | cons key keys ih =>
    rw [receiveKeys] at h
    split at h
    · rename_i hone
      cases h
      unfold receiveKey at hone
      split at hone
      · rename_i hview
        cases hone
        exact (keyView_internal hview).ne_exit
      split at hone
      · rename_i hscan
        cases hone
        exact scanKey_ne_exit hscan
      · exact (receiveScanned_internal hone).ne_exit
    · exact ih h

end

end Hashmonkey.Wallet
