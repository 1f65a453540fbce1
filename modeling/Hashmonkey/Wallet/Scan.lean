import Hashmonkey.Wallet.State

/-!
# Looking for outputs (`wallet/wallet2.cpp`)

For each public key in the extra field of a transaction, `process_new_transaction` checks every
output for whether it belongs to the wallet, and decodes the amount of those that do. A record for
each output is kept across the keys.

* `isOutToAccPrecomp`: is an output to one of the addresses of the wallet;
* `checkAccOutPrecompOnce`: the same for an output of the transaction, with the record kept for it.
  An output that was found under one key is not looked for under the next;
* `scanOutput`: the key image and the amount of an output that was found;
* `scanKey`: the loops over the outputs for one key, in the three modes of a refresh;
* `OutputScanned`: the three things that a loop can do with an output, if nothing is thrown;
* `scanOutputs_error`: what else can happen.

`TxContext` has the arguments of `process_new_transaction`. The table `m_subaddresses` is one of
them, as it is when a key is looked at: crediting outputs found under one key can extend it.
-/

namespace Hashmonkey.Wallet

open Basic Crypto Lib Ringct Serialization

/-! ## Arguments -/

/-- `is_out_data`. -/
structure IsOutData where
  pkey : PublicKey
  derivation : KeyDerivation
  received : List (Option SubaddressReceiveInfo)

/-- `tx_cache_data`. -/
structure TxCacheData where
  txExtraFields : List TxExtraField := []
  primary : List IsOutData := []
  additional : List IsOutData := []

/-- The arguments of `process_new_transaction`. -/
structure TxContext where
  txid : Hash
  tx : Transaction
  oIndices : List UInt64 := []
  height : Nat := 0
  blockVersion : UInt8 := 0
  ts : Nat := 0
  minerTx : Bool := false
  pool : Bool := false
  doubleSpendSeen : Bool := false
  cache : TxCacheData := {}
  /-- `m_subaddresses` when the key with this number is looked at -/
  subaddresses : Nat → PublicKey → Option SubaddressIndex
  /-- the time, when a transaction becomes one of the own pending ones -/
  now : Nat := 0

/-- `tx_scan_info_t`. -/
structure TxScanInfo where
  /-- `in_ephemeral.pub` -/
  pub : PublicKey := zeroKey
  ki : KeyImage := zeroKey
  mask : Key := zeroKey
  amount : UInt64 := 0
  moneyTransfered : UInt64 := 0
  error : Bool := true
  received : Option SubaddressReceiveInfo := none
  deriving DecidableEq

/-- What is kept for an output across the keys: `tx_scan_info[i]` and `output_found[i]`. -/
structure OutRecord where
  info : TxScanInfo := {}
  found : Bool := false
  deriving DecidableEq

/-! ## Keys -/

/-- The fields of the extra field that are used. -/
def txExtraFields (a : Account) (c : TxContext) : List TxExtraField :=
  if c.cache.txExtraFields = [] then a.parseTxExtra c.tx.extra else c.cache.txExtraFields

/-- The public keys in the order in which `find_tx_extra_field_by_type` finds them. -/
def txPubKeys (fields : List TxExtraField) : List PublicKey :=
  fields.filterMap fun | .pubKey key => some key | _ => none

/-- The first field with additional keys. -/
def additionalTxPubKeys (fields : List TxExtraField) : List PublicKey :=
  ((fields.filterMap fun | .additionalPubKeys keys => some keys | _ => none).head?).getD []

/-- The first nonce. -/
def extraNonce (fields : List TxExtraField) : Option Bytes :=
  (fields.filterMap fun | .nonce bytes => some bytes | _ => none).head?

/-- What the outputs are checked against for one key. -/
structure KeyView where
  pubKey : PublicKey
  derivation : KeyDerivation
  /-- only for the first key -/
  additionalDerivations : List KeyDerivation
  isOutData : Option IsOutData

/-- The derivations for the key with a number, computed or from the cache. -/
def keyView (a : Account) (c : TxContext) (k : Nat) (pubKey : PublicKey) :
    Except WalletError KeyView :=
  -- if a derivation fails, the identity takes its place
  let derive := fun key => (a.generateKeyDerivation key).getD identity
  if c.cache.primary = [] then
    .ok
      { pubKey
        derivation := derive pubKey
        additionalDerivations :=
          if k = 0 then (additionalTxPubKeys (txExtraFields a c)).map derive else []
        isOutData := none }
  else
    match c.cache.primary[k]? with
    | none => .error (.walletInternalError "tx_cache_data is out of sync")
    | some cached =>
      if pubKey ≠ cached.pkey then .error (.walletInternalError "tx_cache_data is out of sync")
      else
        .ok
          { pubKey
            derivation := cached.derivation
            additionalDerivations :=
              if k = 0 then c.cache.additional.map IsOutData.derivation else []
            isOutData := some cached }

/-! ## Is an output ours -/

/-- `get_output_view_tag`. -/
def getOutputViewTag (o : TxOut) : Option (Blob 1) :=
  match o.target with
  | .taggedKey _ tag => some tag
  | _ => none

/-- `out_can_be_to_acc`. -/
def outCanBeToAcc (a : Account) (viewTag : Option (Blob 1)) (derivation : KeyDerivation) (i : Nat) :
    Bool :=
  match viewTag with
  | none => true
  | some tag =>
    match a.deriveViewTag derivation i with
    | none => false
    | some derived => tag = derived

/-- One of the two attempts of `is_out_to_acc_precomp`: an answer, or `none` to go on. -/
def derivationFinds (a : Account) (subaddresses : PublicKey → Option SubaddressIndex)
    (outKey : PublicKey) (i : Nat) (viewTag : Option (Blob 1)) (derivation : KeyDerivation) :
    Option (Option SubaddressReceiveInfo) :=
  if ¬ outCanBeToAcc a viewTag derivation i then none
  else
    match a.deriveSubaddressPublicKey outKey derivation i with
    | none => some none
    | some spendkey => (subaddresses spendkey).map fun index => some ⟨index, derivation⟩

/-- `is_out_to_acc_precomp`. -/
def isOutToAccPrecomp (a : Account) (subaddresses : PublicKey → Option SubaddressIndex)
    (outKey : PublicKey) (derivation : KeyDerivation) (additionalDerivations : List KeyDerivation)
    (i : Nat) (viewTag : Option (Blob 1)) : Option SubaddressReceiveInfo :=
  match derivationFinds a subaddresses outKey i viewTag derivation with
  | some answer => answer
  | none =>
    match additionalDerivations[i]? with
    | none => none
    | some additional =>
      (derivationFinds a subaddresses outKey i viewTag additional).getD none

/-- What `check_acc_out_precomp` finds out about an output: nothing if it has no key. The answers in
the cache are taken where there are any. -/
def receivedAs (a : Account) (c : TxContext) (k : Nat) (v : KeyView) (i : Nat) (o : TxOut) :
    Option (Option SubaddressReceiveInfo) :=
  match v.isOutData.bind fun cached => cached.received[i]? with
  | some received => some received
  | none =>
    (getOutputPublicKey o).map fun key =>
      isOutToAccPrecomp a (c.subaddresses k) key v.derivation v.additionalDerivations i
        (getOutputViewTag o)

/-- `check_acc_out_precomp`. -/
def checkAccOutPrecomp (a : Account) (c : TxContext) (k : Nat) (v : KeyView) (i : Nat) (o : TxOut)
    (info : TxScanInfo) : TxScanInfo :=
  match receivedAs a c k v i o with
  | none => { info with error := true }
  | some received =>
    { info with
      received
      -- may be zero for ringct outputs
      moneyTransfered := if received.isSome then o.amount else 0
      error := false }

/-- `check_acc_out_precomp_once`. -/
def checkAccOutPrecompOnce (a : Account) (c : TxContext) (k : Nat) (v : KeyView) (i : Nat)
    (o : TxOut) (r : OutRecord) : OutRecord :=
  let info := { r.info with received := none }
  if r.found then { r with info }
  else
    let info := checkAccOutPrecomp a c k v i o info
    { info, found := info.received.isSome }

/-! ## Amounts -/

/-- `tools::decodeRct`: zero if the type is not supported or the decoding throws. -/
def decodeRct (a : Account) (rv : RctSig) (derivation : KeyDerivation) (i : Nat) (mask : Key) :
    UInt64 × Key :=
  match rv.type with
  | .null => (0, mask)
  | .full => (a.decodeRctFull rv derivation i).getD (0, mask)
  | _ => (a.decodeRctSimple rv derivation i).getD (0, mask)

/-- What the loops over the outputs collect. -/
structure Scanned where
  /-- `tx_money_got_in_outs` -/
  moneyGot : Tally SubaddressIndex UInt64 := []
  /-- `tx_amounts_individual_outs` -/
  individual : Tally SubaddressIndex (List UInt64) := []
  outs : List Nat := []
  numVoutsReceived : Nat := 0
  deriving DecidableEq

/-- The keys of an output that was found: `in_ephemeral.pub` and the key image. -/
def outputKeys (a : Account) (i : Nat) (key : PublicKey) (received : SubaddressReceiveInfo) :
    Except WalletError (PublicKey × KeyImage) :=
  if a.multisig ∨ a.backgroundSyncing then .ok (key, zeroKey)
  else
    match a.generateKeyImage key received.derivation i received.index with
    | none => .error (.walletInternalError "Failed to generate key image")
    | some (pub, ki) =>
      if pub ≠ key then
        .error (.walletInternalError
          "key_image generated ephemeral public key not matched with output_key")
      else .ok (pub, ki)

/-- The amount of an output that was found, and its mask. -/
def outputAmount (a : Account) (c : TxContext) (i : Nat) (received : SubaddressReceiveInfo)
    (info : TxScanInfo) : UInt64 × Key :=
  if info.moneyTransfered = 0 ∧ ¬ c.minerTx then
    decodeRct a c.tx.rctSignatures received.derivation i info.mask
  else (info.moneyTransfered, info.mask)

/-- `scan_output`. -/
def scanOutput (a : Account) (c : TxContext) (i : Nat) (o : TxOut)
    (received : SubaddressReceiveInfo) (info : TxScanInfo) (s : Scanned) :
    Except WalletError (TxScanInfo × Scanned) :=
  match getOutputPublicKey o with
  | none => .error (.walletInternalError "Failed to get output public key")
  | some key =>
    match outputKeys a i key received with
    | .error e => .error e
    | .ok (pub, ki) =>
      if i ∈ s.outs then .error (.walletInternalError "Same output cannot be added twice")
      else
        let (money, mask) := outputAmount a c i received info
        let info := { info with pub, ki, mask, moneyTransfered := money }
        -- "Invalid output amount, skipping"
        if money = 0 then .ok ({ info with error := true }, s)
        else if s.moneyGot.getD received.index 0 ≥ -1 - money then
          .error (.walletInternalError "Overflow in received amounts")
        else
          .ok ({ info with amount := money },
            { s with
              outs := s.outs ++ [i]
              moneyGot := s.moneyGot.set received.index (s.moneyGot.getD received.index 0 + money)
              numVoutsReceived := s.numVoutsReceived + 1 })

/-! ## Loops -/

/-- What is done with an output once it was checked. -/
def scanChecked (a : Account) (c : TxContext) (i : Nat) (o : TxOut) (r : OutRecord) (s : Scanned) :
    Except WalletError (OutRecord × Scanned) :=
  if r.info.error then .error .accOutsLookupError
  else
    match r.info.received with
    | none => .ok (r, s)
    | some received =>
      match scanOutput a c i o received r.info s with
      | .error e => .error e
      | .ok (info, s) =>
        .ok ({ r with info },
          if info.error then s
          else
            { s with
              individual := s.individual.set received.index
                (s.individual.getD received.index [] ++ [info.moneyTransfered]) })

/-- The loop over the outputs from index `i` on. Each is checked right before, or was before. -/
def scanOutputs (a : Account) (c : TxContext) (check : Nat → TxOut → OutRecord → OutRecord) :
    Nat → List TxOut → List OutRecord → Scanned → Except WalletError (List OutRecord × Scanned)
  | i, o :: vout, r :: records, s =>
    match scanChecked a c i o (check i o r) s with
    | .error e => .error e
    | .ok (r, s) =>
      match scanOutputs a c check (i + 1) vout records s with
      | .error e => .error e
      | .ok (records, s) => .ok (r :: records, s)
  | _, _, _, s => .ok ([], s)

/-- The loop that only checks. -/
def checkOutputs (check : Nat → TxOut → OutRecord → OutRecord) :
    Nat → List TxOut → List OutRecord → List OutRecord
  | i, o :: vout, r :: records => check i o r :: checkOutputs check (i + 1) vout records
  | _, _, _ => []

/-- The mode in which a transaction is scanned: `none` if no output is looked at. -/
inductive ScanMode
  | none
  /-- the other outputs only if the first is ours -/
  | firstOnly
  | all
  deriving DecidableEq

/-- Which outputs are looked at. -/
def scanMode (a : Account) (c : TxContext) : ScanMode :=
  if c.minerTx ∧ a.refreshType = .noCoinbase then .none
  else if c.minerTx ∧ a.refreshType = .optimizeCoinbase ∧ c.tx.version < 2 then .firstOnly
  else .all

/-- The outputs are checked and scanned for one key. -/
def scanKey (a : Account) (c : TxContext) (k : Nat) (v : KeyView) (records : List OutRecord)
    (s : Scanned) : Except WalletError (List OutRecord × Scanned) :=
  let check := checkAccOutPrecompOnce a c k v
  match scanMode a c with
  | .none => .ok (records, s)
  | .all => scanOutputs a c check 0 c.tx.vout records s
  | .firstOnly =>
    match c.tx.vout, records with
    | o :: vout, r :: records =>
      let r := check 0 o r
      if r.info.error then .error .accOutsLookupError
      else if r.info.received.isSome then
        scanOutputs a c (fun _ _ r => r) 0 (o :: vout) (r :: checkOutputs check 1 vout records) s
      else .ok (r :: records, s)
    | _, _ => .ok (records, s)

/-! ## What a scan does -/

/-- The record of an output whose amount cannot be decoded. -/
def OutRecord.skip (r : OutRecord) (pub : PublicKey) (ki : KeyImage) (mask : Key) : OutRecord :=
  { r with info := { r.info with pub, ki, mask, moneyTransfered := 0, error := true } }

/-- The record of an output that is credited. -/
def OutRecord.credit (r : OutRecord) (pub : PublicKey) (ki : KeyImage) (mask : Key)
    (money : UInt64) : OutRecord :=
  { r with info := { r.info with pub, ki, mask, moneyTransfered := money, amount := money } }

/-- What is collected when an output is credited. -/
def Scanned.credit (s : Scanned) (i : Nat) (index : SubaddressIndex) (money : UInt64) :
    Scanned where
  outs := s.outs ++ [i]
  moneyGot := s.moneyGot.set index (s.moneyGot.getD index 0 + money)
  individual := s.individual.set index (s.individual.getD index [] ++ [money])
  numVoutsReceived := s.numVoutsReceived + 1

/-- What is done with an output that was checked: it is not ours, its amount cannot be decoded, or
it is credited. -/
inductive OutputScanned (a : Account) (c : TxContext) (i : Nat) (o : TxOut) (r : OutRecord)
    (s : Scanned) : OutRecord → Scanned → Prop
  | notOurs (hr : r.info.received = none) : OutputScanned a c i o r s r s
  | skipped {received : SubaddressReceiveInfo} {key pub : PublicKey} {ki : KeyImage} {mask : Key}
      (hr : r.info.received = some received) (hkey : getOutputPublicKey o = some key)
      (hkeys : outputKeys a i key received = .ok (pub, ki))
      (hamount : outputAmount a c i received r.info = (0, mask)) :
      OutputScanned a c i o r s (r.skip pub ki mask) s
  | credited {received : SubaddressReceiveInfo} {key pub : PublicKey} {ki : KeyImage} {mask : Key}
      {money : UInt64} (hr : r.info.received = some received)
      (hkey : getOutputPublicKey o = some key) (hkeys : outputKeys a i key received = .ok (pub, ki))
      (hamount : outputAmount a c i received r.info = (money, mask)) (hmoney : money ≠ 0) :
      OutputScanned a c i o r s (r.credit pub ki mask money) (s.credit i received.index money)

variable {a : Account} {c : TxContext} {i : Nat} {s : Scanned}

theorem scanChecked_ok {o : TxOut} {r r' : OutRecord}
    {s' : Scanned} (h : scanChecked a c i o r s = .ok (r', s')) :
    r.info.error = false ∧ OutputScanned a c i o r s r' s' := by
  unfold scanChecked at h
  split at h
  · cases h
  rename_i herror
  rw [Bool.not_eq_true] at herror
  refine ⟨herror, ?_⟩
  split at h
  · rename_i hr
    cases h
    exact .notOurs hr
  rename_i received hr
  split at h
  · cases h
  rename_i info s1 hscan
  cases h
  unfold scanOutput at hscan
  split at hscan
  · cases hscan
  rename_i key hkey
  split at hscan
  · cases hscan
  rename_i pub ki hkeys
  split at hscan
  · cases hscan
  cases hamount : outputAmount a c i received r.info with
  | mk money mask =>
    rw [hamount] at hscan
    dsimp only at hscan
    split at hscan
    · rename_i hmoney
      subst hmoney
      cases hscan
      exact .skipped hr hkey hkeys hamount
    rename_i hmoney
    split at hscan
    · cases hscan
    cases hscan
    rw [if_neg (by rw [herror]; exact Bool.false_ne_true)]
    exact .credited hr hkey hkeys hamount hmoney

variable {received : SubaddressReceiveInfo}

theorem outputKeys_pub {key pub : PublicKey} {ki : KeyImage}
    (h : outputKeys a i key received = .ok (pub, ki)) : key = pub := by
  unfold outputKeys at h
  split at h
  · cases h
    rfl
  split at h
  · cases h
  split at h
  · cases h
  rename_i hpub
  cases h
  exact (not_not.mp hpub).symm

variable {records : List OutRecord}

theorem checkOutputs_at {check : Nat → TxOut → OutRecord → OutRecord} {j : Nat}
    {vout : List TxOut} {r' : OutRecord} (h : (checkOutputs check i vout records)[j]? = some r') :
    ∃ o r, vout[j]? = some o ∧ records[j]? = some r ∧ r' = check (i + j) o r := by
  induction vout generalizing i j records with
  | nil => cases h
  | cons o vout ih =>
    cases records with
    | nil => cases h
    | cons r records =>
      cases j with
      | zero =>
        cases h
        exact ⟨o, r, rfl, rfl, rfl⟩
      | succ j =>
        rw [← Nat.add_assoc, Nat.add_right_comm]
        exact ih h

/-! ## What a scan throws -/

variable {e : WalletError}

theorem keyView_internal {k : Nat} {pubKey : PublicKey}
    (h : keyView a c k pubKey = .error e) : e.IsInternal := by
  unfold keyView at h
  split at h
  · cases h
  split at h
  · cases h
    exact ⟨_, rfl⟩
  split at h
  · cases h
    exact ⟨_, rfl⟩
  · cases h

theorem outputKeys_internal {key : PublicKey}
    (h : outputKeys a i key received = .error e) : e.IsInternal := by
  unfold outputKeys at h
  split at h
  · cases h
  split at h
  · cases h
    exact ⟨_, rfl⟩
  split at h
  · cases h
    exact ⟨_, rfl⟩
  · cases h

theorem scanOutput_internal {o : TxOut} {info : TxScanInfo}
    (h : scanOutput a c i o received info s = .error e) : e.IsInternal := by
  unfold scanOutput at h
  split at h
  · cases h
    exact ⟨_, rfl⟩
  split at h
  · rename_i hkeys
    cases h
    exact outputKeys_internal hkeys
  dsimp only at h
  split at h
  · cases h
    exact ⟨_, rfl⟩
  split at h
  · cases h
  split at h
  · cases h
    exact ⟨_, rfl⟩
  · cases h

/-- Apart from internal errors, a loop throws for an output whose record has the error flag. -/
theorem scanOutputs_error {check : Nat → TxOut → OutRecord → OutRecord} {vout : List TxOut}
    (h : scanOutputs a c check i vout records s = .error e) :
    e.IsInternal ∨ e = .accOutsLookupError ∧ ∃ j o r, vout[j]? = some o ∧ records[j]? = some r ∧
      (check (i + j) o r).info.error = true := by
  induction vout generalizing i records s with
  | nil => cases h
  | cons o vout ih =>
    cases records with
    | nil => cases h
    | cons r records =>
      rw [scanOutputs] at h
      split at h
      · rename_i hone
        cases h
        unfold scanChecked at hone
        split at hone
        · rename_i herror
          cases hone
          exact .inr ⟨rfl, 0, o, r, rfl, rfl, herror⟩
        split at hone
        · cases hone
        split at hone
        · rename_i hscan
          cases hone
          exact .inl (scanOutput_internal hscan)
        · cases hone
      · split at h
        · rename_i hrest
          cases h
          refine (ih hrest).imp_right ?_
          rintro ⟨rfl, j, o', r', ho, hr, herror⟩
          refine ⟨rfl, j + 1, o', r', ho, hr, ?_⟩
          rwa [← Nat.add_assoc, Nat.add_right_comm]
        · cases h

theorem scanKey_ne_exit {k : Nat} {v : KeyView}
    (h : scanKey a c k v records s = .error e) : e ≠ .exit := by
  have hscan : ∀ {check vout records}, scanOutputs a c check 0 vout records s = .error e →
      e ≠ .exit := by
    intro check vout records h
    rcases scanOutputs_error h with hinternal | ⟨rfl, _⟩
    · exact hinternal.ne_exit
    · exact WalletError.noConfusion
  unfold scanKey at h
  dsimp only at h
  split at h
  · cases h
  · exact hscan h
  split at h
  · split at h
    · cases h
      exact WalletError.noConfusion
    · split at h
      · exact hscan h
      · cases h
  · cases h

end Hashmonkey.Wallet
