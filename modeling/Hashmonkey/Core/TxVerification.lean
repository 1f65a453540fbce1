import Hashmonkey.Basic.Hashes
import Hashmonkey.Basic.Weight
import Hashmonkey.Core.BlockReward
import Hashmonkey.Core.RingMembers

/-!
# The consensus rules besides the inputs (`cryptonote_core/tx_verification_utils.cpp`)

* `checkTxSemantic`: `core::check_tx_semantic`; `checkTxOutputs`: `Blockchain::check_tx_outputs`.
* `verMixedRctSemantics`: `ver_mixed_rct_semantics`. The signatures with bulletproofs are moved to
  the front of the vector, in place, and verified together after the loop.
* `verNonInputConsensusTemplated`: the rules 1 to 6 for each transaction, rule 7 for all of them at
  once; `verNonInputConsensus` and `verNonInputConsensusPool` are its two overloads. The second
  remembers in the pool supplement the version that it verified.

A check reads and sets the flags of a `tx_verification_context` and may throw, so it is a `Check`.
A chain of `if (...) { tvc... = true; return false; }` is a chain of `refuseIf`. The check of a
curve point, the multiplication of a key and the verification of range proofs are parameters
(`NicCrypto`).

Result: **`verNonInputConsensusPool_iff`**: a supplement passes iff each of its transactions passes
alone.
-/

namespace Hashmonkey.Core

open Basic Lib Serialization Ringct List

/-! ## Checks -/

/-- The flags of `tx_verification_context` that the checks set. -/
structure TxVerificationContext where
  verifivationFailed : Bool := false
  invalidInput : Bool := false
  invalidOutput : Bool := false
  tooBig : Bool := false
  overspend : Bool := false
  deriving DecidableEq

namespace TxVerificationContext

/-- `m_verifivation_failed` alone. -/
def fail (tvc : TxVerificationContext) : TxVerificationContext :=
  { tvc with verifivationFailed := true }

/-- `m_invalid_output` alone, as `check_tx_outputs` sets it. -/
def badOutput (tvc : TxVerificationContext) : TxVerificationContext :=
  { tvc with invalidOutput := true }

/-- `m_verifivation_failed` and `m_invalid_input`. -/
def failInput (tvc : TxVerificationContext) : TxVerificationContext :=
  { tvc with verifivationFailed := true, invalidInput := true }

/-- `m_verifivation_failed` and `m_invalid_output`. -/
def failOutput (tvc : TxVerificationContext) : TxVerificationContext :=
  { tvc with verifivationFailed := true, invalidOutput := true }

/-- `m_verifivation_failed` and `m_too_big`. -/
def failTooBig (tvc : TxVerificationContext) : TxVerificationContext :=
  { tvc with verifivationFailed := true, tooBig := true }

/-- `m_verifivation_failed` and `m_overspend`. -/
def failOverspend (tvc : TxVerificationContext) : TxVerificationContext :=
  { tvc with verifivationFailed := true, overspend := true }

end TxVerificationContext

/-- A function that takes a context by reference and returns a `bool`, or throws. -/
abbrev Check := TxVerificationContext → Except String (Bool × TxVerificationContext)

/-- `return true`. -/
def Check.accept : Check := fun tvc => .ok (true, tvc)

/-- `if (bad) { set flags; return false; }`, and what follows it. -/
def refuseIf (bad : Bool) (flags : TxVerificationContext → TxVerificationContext) (next : Check) :
    Check := fun tvc => if bad then .ok (false, flags tvc) else next tvc

/-- `refuseIf` for a condition that may throw. -/
def refuseIfM (bad : Except String Bool) (flags : TxVerificationContext → TxVerificationContext)
    (next : Check) : Check := fun tvc =>
  match bad with
  | .error e => .error e
  | .ok bad => refuseIf bad flags next tvc

/-- `if (!first(tvc)) return false;`, and what follows it. -/
def Check.andThen (first next : Check) : Check := fun tvc =>
  match first tvc with
  | .error e => .error e
  | .ok (false, tvc) => .ok (false, tvc)
  | .ok (true, tvc) => next tvc

/-- With no failure flagged, the check succeeds iff `p`, and then it leaves the context alone. -/
def Check.Decides (c : Check) (p : Prop) : Prop := ∀ tvc tvc', tvc.verifivationFailed = false →
  (c tvc = .ok (true, tvc') ↔ p ∧ tvc' = tvc)

theorem Check.Decides.accept : Check.accept.Decides True := by
  intro tvc tvc' _
  simp [Check.accept, eq_comm]

theorem Check.Decides.refuseIf {bad : Bool} {flags : TxVerificationContext → TxVerificationContext}
    {next : Check} {p : Prop} (h : next.Decides p) :
    (refuseIf bad flags next).Decides (bad = false ∧ p) := by
  intro tvc tvc' hf
  cases bad with
  | true => simp [Core.refuseIf]
  | false => simpa [Core.refuseIf] using h tvc tvc' hf

theorem Check.Decides.refuseIfM {bad : Except String Bool}
    {flags : TxVerificationContext → TxVerificationContext} {next : Check} {p : Prop}
    (h : next.Decides p) : (refuseIfM bad flags next).Decides (bad = .ok false ∧ p) := by
  intro tvc tvc' hf
  cases bad with
  | error e => simp [Core.refuseIfM]
  | ok bad =>
    have hb : (Core.refuseIf bad flags next).Decides (bad = false ∧ p) := .refuseIf h
    simpa [Core.refuseIfM] using hb tvc tvc' hf

theorem Check.Decides.andThen {first next : Check} {p q : Prop} (h1 : first.Decides p)
    (h2 : next.Decides q) : (first.andThen next).Decides (p ∧ q) := by
  intro tvc tvc' hf
  unfold Check.andThen
  by_cases hp : p
  · rw [(h1 tvc tvc hf).mpr ⟨hp, rfl⟩]
    simpa [hp] using h2 tvc tvc' hf
  have hno : ∀ t, first tvc ≠ .ok (true, t) := fun t ht => hp ((h1 tvc t hf).mp ht).1
  simp only [hp, false_and, iff_false]
  split
  · simp
  · simp
  rename_i t ht
  exact absurd ht (hno t)

/-! ## Parameters -/

/-- What the rules call of the cryptography: `check_key`, `rct::scalarmultKey` (which throws on
bytes that are no curve point), `verRctSemanticsSimple`, `verRct` with `semantics = true`, and
`cn_fast_hash`. -/
structure NicCrypto where
  checkKey : PublicKey → Bool
  scalarmultKey : Key → Key → Option Key
  verRctSemanticsSimple : List RctSig → Bool
  verRct : RctSig → Bool
  cnFastHash : Bytes → Hash

/-- `rct::identity()`. -/
def identityKey : Key := ⟨1 :: List.replicate 31 0, rfl⟩

/-- `rct::curveOrder()`. -/
def curveOrderKey : Key :=
  ⟨[0xed, 0xd3, 0xf5, 0x5c, 0x1a, 0x63, 0x12, 0x58, 0xd6, 0x9c, 0xf7, 0xa2, 0xde, 0xf9, 0xde, 0x14,
    0x00, 0x00, 0x00, 0x00, 0x00, 0x00, 0x00, 0x00, 0x00, 0x00, 0x00, 0x00, 0x00, 0x00, 0x00,
    0x10], rfl⟩

/-! ## `check_tx_semantic` -/

/-- `check_inputs_types_supported`. -/
def checkInputsTypesSupported (vin : List TxinV) : Bool :=
  vin.all fun
    | .key _ => true
    | _ => false

/-- `get_inputs_money_amount`; an input of another kind ends the sum. -/
def getInputsMoneyAmountFrom : UInt64 → List TxinV → UInt64
  | money, .key i :: vin => getInputsMoneyAmountFrom (money + i.amount) vin
  | money, _ => money

/-- The loop of `check_inputs_overflow`. -/
def checkInputsOverflowFrom : UInt64 → List TxinV → Bool
  | _, [] => true
  | money, .key i :: vin =>
    if money > i.amount + money then false else checkInputsOverflowFrom (money + i.amount) vin
  | _, _ => false

/-- `check_tx_inputs_keyimages_diff`, with the set of key images so far. -/
def checkTxInputsKeyimagesDiff : List KeyImage → List TxinV → Bool
  | _, [] => true
  | ki, .key i :: vin =>
    if i.kImage ∈ ki then false else checkTxInputsKeyimagesDiff (i.kImage :: ki) vin
  | _, _ => false

section Rules

variable (P : NicCrypto)

/-- `check_outs_valid`. -/
def checkOutsValid (p : TransactionPrefix) : Bool :=
  p.vout.all fun o =>
    match getOutputPublicKey o with
    | none => false
    | some k => !(p.version = 1 && !(0 < o.amount)) && P.checkKey k

/-- `check_tx_inputs_keyimages_domain`. -/
def checkTxInputsKeyimagesDomain : List TxinV → Except String Bool
  | [] => .ok true
  | .key i :: vin =>
    if i.kImage = identityKey then .ok false
    else
      match P.scalarmultKey i.kImage curveOrderKey with
      | none => .error "ge_frombytes_vartime failed"
      | some k => if k ≠ identityKey then .ok false else checkTxInputsKeyimagesDomain vin
  | _ => .ok false

/-- `core::check_tx_semantic`. -/
def checkTxSemantic (tx : Transaction) (hfVersion : UInt8) : Check :=
  let p := tx.toTransactionPrefix
  refuseIf tx.vin.isEmpty .failInput <|
  refuseIf (!checkInputsTypesSupported tx.vin) .failInput <|
  refuseIf (!checkOutsValid P p) .failOutput <|
  refuseIf (tx.version > 1 && tx.rctSignatures.outPk.length ≠ tx.vout.length) .failOutput <|
  refuseIf (!(checkInputsOverflowFrom 0 tx.vin && checkOutsOverflow p)) .failOverspend <|
  refuseIf (tx.version = 1 && getInputsMoneyAmountFrom 0 tx.vin ≤ getOutsMoneyAmount p)
    .failOverspend <|
  refuseIf (!checkTxInputsKeyimagesDiff [] tx.vin) .failInput <|
  refuseIf (!checkTxInputsRingMembersDiff tx hfVersion) .failInput <|
  refuseIfM ((checkTxInputsKeyimagesDomain P tx.vin).map not) .failInput <|
  refuseIf (!checkOutputTypes p hfVersion) .failOutput
  Check.accept

/-! ## `check_tx_outputs` -/

/-- The two transactions with MLSAGs that `check_tx_outputs` lets in after version 13. -/
def grandfathered : List Hash :=
  [⟨[0xc5, 0x15, 0x19, 0x44, 0xf0, 0x58, 0x30, 0x97, 0xba, 0x0c, 0x88, 0xcd, 0x0f, 0x43, 0xe7, 0xfa,
      0xbb, 0x38, 0x81, 0x27, 0x8a, 0xa2, 0xf7, 0x3b, 0x3b, 0x0a, 0x00, 0x7c, 0x5d, 0x34, 0xe9,
      0x10], rfl⟩,
    ⟨[0x6f, 0x2f, 0x11, 0x7c, 0xde, 0x6f, 0xbc, 0xf8, 0xd4, 0xa6, 0xef, 0x89, 0x74, 0xfc, 0xac,
      0x74, 0x47, 0x26, 0x57, 0x4a, 0xc3, 0x8c, 0xf2, 0x5d, 0x33, 0x22, 0xc9, 0x96, 0xb2, 0x1e,
      0xdd, 0x4c], rfl⟩]

/-- Whether `check_tx_outputs` refuses a type up to `RCTTypeBulletproof2` after version 13. -/
def refusedMlsag (tx : Transaction) (hfVersion : UInt8) : Except String Bool :=
  if hfVersion > 13 && tx.version ≥ 2 && tx.rctSignatures.type.toByte ≤ 4 then
    match getTransactionHash P.cnFastHash tx with
    | none => .error "Failed to calculate transaction hash"
    | some h => .ok (!(h ∈ grandfathered))
  else .ok false

/-- `Blockchain::check_tx_outputs`. It flags the output and not the failure. -/
def checkTxOutputs (tx : Transaction) (hfVersion : UInt8) : Check :=
  let rv := tx.rctSignatures
  let rct : Bool := tx.version ≥ 2
  refuseIf (hfVersion ≥ 2 && tx.version = 1 &&
    !(tx.vout.all fun o => isValidDecomposedAmount o.amount)) .badOutput <|
  refuseIf (hfVersion ≥ 3 && rct && !(tx.vout.all fun o => o.amount = 0)) .badOutput <|
  refuseIf (hfVersion < 8 && rct && (rv.type.isBulletproof || !rv.p.bulletproofs.isEmpty))
    .badOutput <|
  refuseIf (hfVersion > 8 && rct && rv.type.isBorromean) .badOutput <|
  refuseIf (hfVersion < 10 && rct && rv.type = .bulletproof2) .badOutput <|
  refuseIf (hfVersion > 10 && rct && rv.type = .bulletproof) .badOutput <|
  refuseIf (hfVersion < 13 && rct && rv.type = .clsag) .badOutput <|
  refuseIfM (refusedMlsag P tx hfVersion) .badOutput <|
  refuseIf (hfVersion < 15 && rct && (rv.type.isBulletproofPlus || !rv.p.bulletproofsPlus.isEmpty))
    .badOutput <|
  refuseIf (hfVersion > 15 && rct && rv.type.isBulletproof) .badOutput <|
  refuseIf (!checkOutputTypes tx.toTransactionPrefix hfVersion) .badOutput
  Check.accept

/-! ## `ver_mixed_rct_semantics` -/

/-- `is_canonical_bulletproof_layout` and `is_canonical_bulletproof_plus_layout`, of the number of
commitments of each proof. -/
def isCanonicalLayout : List Nat → Bool
  | [sz] => !(sz = 0 || bulletproofMaxOutputs < sz)
  | _ => false

/-- One turn of the loop: `none` is `return false`, otherwise whether the signature can be
batched. -/
def mixedTurn (rv : RctSig) : Option Bool :=
  match rv.type with
  | .null => none
  | .simple => if P.verRctSemanticsSimple [rv] then some false else none
  | .full => if P.verRct rv then some false else none
  | .bulletproof | .bulletproof2 | .clsag =>
    if isCanonicalLayout (rv.p.bulletproofs.map fun p => p.V.length) then some true else none
  | .bulletproofPlus =>
    if isCanonicalLayout (rv.p.bulletproofsPlus.map fun p => p.V.length) then some true else none

/-- The loop of `ver_mixed_rct_semantics` for `n` more turns, at the index `i`. The signatures to
batch are written over the first `batchRvSize` places. -/
def mixedLoop : Nat → List RctSig → Nat → Nat → Option (List RctSig)
  | 0, rvv, _, batchRvSize => some (rvv.take batchRvSize)
  | n + 1, rvv, i, batchRvSize =>
    match rvv[i]? with
    | none => some (rvv.take batchRvSize)
    | some rv =>
      match mixedTurn P rv with
      | none => none
      | some true => mixedLoop n (rvv.set batchRvSize rv) (i + 1) (batchRvSize + 1)
      | some false => mixedLoop n rvv (i + 1) batchRvSize

/-- `ver_mixed_rct_semantics`. -/
def verMixedRctSemantics (rvv : List RctSig) : Bool :=
  match mixedLoop P rvv.length rvv 0 0 with
  | none => false
  | some batch => batch.isEmpty || P.verRctSemanticsSimple batch

/-! ## `ver_non_input_consensus` -/

/-- `get_transaction_weight_limit`, with `CRYPTONOTE_COINBASE_BLOB_RESERVED_SIZE`. -/
def getTransactionWeightLimit (hfVersion : UInt8) : UInt64 :=
  if hfVersion ≥ 8 then getMinBlockWeight hfVersion / 2 - 600
  else getMinBlockWeight hfVersion - 600

/-- `get_max_tx_size`. -/
def getMaxTxSize : Nat := 1000000

/-- `get_transaction_blob_size`. -/
def getTransactionBlobSize (tx : Transaction) : Nat := tx.blobSize.getD (serializedSize tx)

/-- Whether rule 4 refuses a transaction. The weight is computed before the version is compared. -/
def overweight (tx : Transaction) (hfVersion : UInt8) : Except String Bool :=
  match getTransactionWeight tx (getTransactionBlobSize tx) with
  | .error e => .error e
  | .ok txWeight =>
    .ok (hfVersion ≥ 8 && (getTransactionWeightLimit hfVersion).toNat < txWeight)

/-- The rules 1 to 6 for one transaction. -/
def nicRules (tx : Transaction) (hfVersion : UInt8) : Check :=
  let maxTxVersion := if hfVersion < 4 then 1 else 2
  refuseIf (getMaxTxSize < getTransactionBlobSize tx) .failTooBig <|
  refuseIf (tx.version = 0 || tx.version > maxTxVersion) .fail <|
  refuseIfM (overweight tx hfVersion) .failTooBig <|
  (checkTxSemantic P tx hfVersion).andThen <|
  (checkTxOutputs P tx hfVersion).andThen fun tvc => .ok (!tvc.verifivationFailed, tvc)

/-- The loop of `ver_non_input_consensus_templated` with the signatures to verify so far; `none`
is `return false`. -/
def nicLoop (hfVersion : UInt8) : List Transaction → List RctSig → TxVerificationContext →
    Except String (Option (List RctSig) × TxVerificationContext)
  | [], rvv, tvc => .ok (some rvv, tvc)
  | tx :: txs, rvv, tvc =>
    match nicRules P tx hfVersion tvc with
    | .error e => .error e
    | .ok (false, tvc) => .ok (none, tvc)
    | .ok (true, tvc) =>
      nicLoop hfVersion txs (if tx.version ≥ 2 then rvv ++ [tx.rctSignatures] else rvv) tvc

/-- `ver_non_input_consensus_templated`. -/
def verNonInputConsensusTemplated (txs : List Transaction) (hfVersion : UInt8) : Check := fun tvc =>
  match nicLoop P hfVersion txs [] tvc with
  | .error e => .error e
  | .ok (none, tvc) => .ok (false, tvc)
  | .ok (some rvv, tvc) => refuseIf (!verMixedRctSemantics P rvv) .failInput Check.accept tvc

/-- `ver_non_input_consensus` of one transaction. -/
def verNonInputConsensus (tx : Transaction) (hfVersion : UInt8) : Check :=
  verNonInputConsensusTemplated P [tx] hfVersion

/-- `pool_supplement`, in the order in which its map is walked. -/
structure PoolSupplement where
  txsByTxid : List (Hash × Transaction × Bytes) := []
  nicVerifiedHfVersion : UInt8 := 0

/-- The transactions of a supplement. -/
def PoolSupplement.txs (ps : PoolSupplement) : List Transaction := ps.txsByTxid.map fun e => e.2.1

/-- `ver_non_input_consensus` of a pool supplement: the result and the supplement after it. -/
def verNonInputConsensusPool (ps : PoolSupplement) (hfVersion : UInt8)
    (tvc : TxVerificationContext) :
    Except String (Bool × TxVerificationContext) × PoolSupplement :=
  if ps.nicVerifiedHfVersion = hfVersion then (.ok (true, tvc), ps)
  else
    match verNonInputConsensusTemplated P ps.txs hfVersion tvc with
    | .ok (true, tvc) => (.ok (true, tvc), { ps with nicVerifiedHfVersion := hfVersion })
    | r => (r, ps)

/-! ## One transaction -/

/-- What `check_tx_semantic` asks of inputs alone: there are some, all of the usual type, with
different key images. -/
structure SemanticInputs (vin : List TxinV) : Prop where
  nonempty : vin ≠ []
  keys : checkInputsTypesSupported vin
  diff : checkTxInputsKeyimagesDiff [] vin

theorem checkTxSemantic_decides (tx : Transaction) (hfVersion : UInt8) :
    ∃ p, (checkTxSemantic P tx hfVersion).Decides p ∧ (p → SemanticInputs tx.vin) := by
  refine ⟨_, .refuseIf <| .refuseIf <| .refuseIf <| .refuseIf <| .refuseIf <| .refuseIf <|
    .refuseIf <| .refuseIf <| .refuseIfM <| .refuseIf .accept, ?_⟩
  rintro ⟨hnil, hkeys, -, -, -, -, hdiff, -⟩
  exact ⟨by simpa using hnil, by simpa using hkeys, by simpa using hdiff⟩

theorem checkTxOutputs_decides (tx : Transaction) (hfVersion : UInt8) :
    ∃ p, (checkTxOutputs P tx hfVersion).Decides p :=
  ⟨_, .refuseIf <| .refuseIf <| .refuseIf <| .refuseIf <| .refuseIf <| .refuseIf <| .refuseIf <|
    .refuseIfM <| .refuseIf <| .refuseIf <| .refuseIf .accept⟩

/-- Whether a transaction passes the rules 1 to 6 does not depend on the context, as long as no
failure is flagged, and a pass leaves no flag. -/
theorem nicRules_decides (tx : Transaction) (hfVersion : UInt8) :
    ∃ p, (nicRules P tx hfVersion).Decides p ∧ (p → SemanticInputs tx.vin) := by
  obtain ⟨p, hp, hinputs⟩ := checkTxSemantic_decides P tx hfVersion
  obtain ⟨q, hq⟩ := checkTxOutputs_decides P tx hfVersion
  have hflag : Check.Decides (fun tvc => .ok (!tvc.verifivationFailed, tvc)) True := by
    intro tvc tvc' hf
    simp [hf, eq_comm]
  exact ⟨_, .refuseIf <| .refuseIf <| .refuseIfM <| hp.andThen <| hq.andThen hflag,
    fun h => hinputs h.2.2.2.1⟩

/-- A transaction that passes has inputs with different key images. -/
theorem verNonInputConsensus_inputs {tx : Transaction} {hfVersion : UInt8}
    {tvc : TxVerificationContext} (h : verNonInputConsensus P tx hfVersion {} = .ok (true, tvc)) :
    SemanticInputs tx.vin := by
  obtain ⟨p, hp, hinputs⟩ := nicRules_decides P tx hfVersion
  rw [verNonInputConsensus, verNonInputConsensusTemplated, nicLoop] at h
  cases hrules : nicRules P tx hfVersion {} with
  | error e => simp [hrules] at h
  | ok r =>
    obtain ⟨passed, t⟩ := r
    cases passed with
    | false => simp [hrules] at h
    | true => exact hinputs ((hp {} t rfl).mp hrules).1

/-! ## The semantics of mixed signatures -/

/-- The loop fails iff a turn does, and otherwise it gathers the signatures to batch in their
order. -/
theorem mixedLoop_spec : ∀ (n : Nat) (rvv : List RctSig) (i batchRvSize : Nat),
    rvv.length = i + n → batchRvSize ≤ i →
    mixedLoop P n rvv i batchRvSize =
      if (rvv.drop i).all fun rv => (mixedTurn P rv).isSome then
        some (rvv.take batchRvSize ++ (rvv.drop i).filter fun rv => mixedTurn P rv = some true)
      else none
  | 0, rvv, i, batchRvSize, hlen, _ => by
    rw [mixedLoop, drop_of_length_le (by omega)]
    simp
  | n + 1, rvv, i, batchRvSize, hlen, hle => by
    have hi : i < rvv.length := by omega
    rw [mixedLoop, getElem?_eq_getElem hi, drop_eq_getElem_cons hi]
    generalize hrv : rvv[i] = rv
    cases hturn : mixedTurn P rv with
    | none => simp [hturn]
    | some batchable =>
      cases batchable with
      | false =>
        have ih := mixedLoop_spec n rvv (i + 1) batchRvSize (by omega) (by omega)
        simp [hturn, ih]
      | true =>
        -- the place written to is at or below `i`, so the rest of the vector is still there
        have hdrop : (rvv.set batchRvSize rv).drop (i + 1) = rvv.drop (i + 1) := by
          rw [drop_set_of_lt (by omega)]
        have htake : (rvv.set batchRvSize rv).take (batchRvSize + 1) =
            rvv.take batchRvSize ++ [rv] := by
          rw [take_add_one, getElem?_set_self (by omega), take_set_of_le le_rfl]
          rfl
        have ih := mixedLoop_spec n (rvv.set batchRvSize rv) (i + 1) (batchRvSize + 1)
          (by rw [length_set]; omega) (by omega)
        rw [hdrop, htake] at ih
        simp [hturn, ih]

/-- What the batched verification is assumed to do: it accepts a batch iff it accepts each
signature of it alone. -/
def BatchExact : Prop := ∀ rvv, rvv ≠ [] →
  (P.verRctSemanticsSimple rvv = true ↔ ∀ rv ∈ rvv, P.verRctSemanticsSimple [rv] = true)

/-- A signature passes its turn and, when it is batched, the verification of it alone. -/
def SemanticsOk (rv : RctSig) : Prop :=
  (mixedTurn P rv).isSome ∧ (mixedTurn P rv = some true → P.verRctSemanticsSimple [rv] = true)

variable {P}

theorem verMixedRctSemantics_iff (hbatch : BatchExact P) (rvv : List RctSig) :
    verMixedRctSemantics P rvv = true ↔ ∀ rv ∈ rvv, SemanticsOk P rv := by
  unfold verMixedRctSemantics SemanticsOk
  rw [mixedLoop_spec P _ _ _ _ (Nat.zero_add _).symm le_rfl, drop_zero, take_zero, nil_append]
  by_cases hall : (rvv.all fun rv => (mixedTurn P rv).isSome) = true
  · rw [if_pos hall]
    rw [all_eq_true] at hall
    rcases hb : rvv.filter fun rv => mixedTurn P rv = some true with _ | ⟨a, l⟩
    · -- nothing to batch
      have hnone : ∀ rv ∈ rvv, ¬ mixedTurn P rv = some true := by
        simpa [filter_eq_nil_iff] using hb
      simp only [isEmpty_nil, Bool.true_or, true_iff]
      exact fun rv hrv => ⟨hall rv hrv, fun hc => absurd hc (hnone rv hrv)⟩
    rw [← hb]
    have hne : (rvv.filter fun rv => mixedTurn P rv = some true) ≠ [] := by simp [hb]
    simp only [Bool.or_eq_true, List.isEmpty_iff, hne, false_or]
    rw [hbatch _ hne]
    constructor
    · intro h rv hrv
      exact ⟨hall rv hrv, fun hc => h rv (mem_filter.mpr ⟨hrv, by simpa using hc⟩)⟩
    · intro h rv hrv
      obtain ⟨hmem, hc⟩ := mem_filter.mp hrv
      exact (h rv hmem).2 (by simpa using hc)
  · rw [if_neg hall]
    simp only [Bool.false_eq_true, false_iff]
    intro h
    exact hall (all_eq_true.mpr fun rv hrv => (h rv hrv).1)

/-! ## Batches -/

/-- The transaction passes all rules alone, from a fresh context. -/
def Passes (P : NicCrypto) (hfVersion : UInt8) (tx : Transaction) : Prop :=
  ∃ tvc, verNonInputConsensus P tx hfVersion {} = .ok (true, tvc)

theorem nicLoop_iff {hfVersion : UInt8} {ok : Transaction → Prop}
    (hok : ∀ tx, (nicRules P tx hfVersion).Decides (ok tx)) :
    ∀ {txs : List Transaction} {rvv rvv' : List RctSig} {tvc tvc' : TxVerificationContext},
    tvc.verifivationFailed = false →
    (nicLoop P hfVersion txs rvv tvc = .ok (some rvv', tvc') ↔
      (∀ tx ∈ txs, ok tx) ∧ tvc' = tvc ∧
        rvv' = rvv ++ (txs.filter fun tx => tx.version ≥ 2).map (·.rctSignatures))
  | [], rvv, rvv', tvc, tvc', _ => by
    simp [nicLoop, eq_comm, and_comm]
  | tx :: txs, rvv, rvv', tvc, tvc', hf => by
    by_cases htx : ok tx
    · have hrules := (hok tx tvc tvc hf).mpr ⟨htx, rfl⟩
      simp only [nicLoop, hrules]
      rw [nicLoop_iff hok hf]
      by_cases hv : tx.version ≥ 2
      · simp [htx, hv]
      · simp [htx, hv]
    · have hno : ∀ t, nicRules P tx hfVersion tvc ≠ .ok (true, t) := fun t ht =>
        htx ((hok tx tvc t hf).mp ht).1
      simp only [nicLoop, forall_mem_cons, htx, false_and, iff_false]
      split
      · simp
      · simp
      rename_i t ht
      exact absurd ht (hno t)

/-- A batch passes iff each transaction passes the rules 1 to 6 and the semantics of each signature
hold. -/
theorem verNonInputConsensusTemplated_decides (hbatch : BatchExact P) {hfVersion : UInt8}
    {ok : Transaction → Prop} (hok : ∀ tx, (nicRules P tx hfVersion).Decides (ok tx))
    (txs : List Transaction) :
    (verNonInputConsensusTemplated P txs hfVersion).Decides
      (∀ tx ∈ txs, ok tx ∧ (tx.version ≥ 2 → SemanticsOk P tx.rctSignatures)) := by
  intro tvc tvc' hf
  unfold verNonInputConsensusTemplated
  have hsem : (∀ rv ∈ (txs.filter fun tx => tx.version ≥ 2).map (·.rctSignatures),
      SemanticsOk P rv) ↔ ∀ tx ∈ txs, tx.version ≥ 2 → SemanticsOk P tx.rctSignatures := by
    rw [forall_mem_map]
    simp
  by_cases hall : ∀ tx ∈ txs, ok tx
  · rw [(nicLoop_iff hok hf).mpr ⟨hall, rfl, rfl⟩]
    rw [Check.Decides.refuseIf Check.Decides.accept tvc tvc' hf, Bool.not_eq_false',
      nil_append, verMixedRctSemantics_iff hbatch, hsem]
    constructor
    · rintro ⟨⟨h, -⟩, rfl⟩
      exact ⟨fun tx htx => ⟨hall tx htx, h tx htx⟩, rfl⟩
    · rintro ⟨h, rfl⟩
      exact ⟨⟨fun tx htx => (h tx htx).2, trivial⟩, rfl⟩
  · have hno : ∀ rvv t, nicLoop P hfVersion txs [] tvc ≠ .ok (some rvv, t) := fun rvv t ht =>
      hall ((nicLoop_iff hok hf).mp ht).1
    have hfalse : ¬ ∀ tx ∈ txs, ok tx ∧ (tx.version ≥ 2 → SemanticsOk P tx.rctSignatures) :=
      fun h => hall fun tx htx => (h tx htx).1
    simp only [hfalse, false_and, iff_false]
    split
    · simp
    · simp
    rename_i rvv t ht
    exact absurd ht (hno rvv t)

/-- **A batch passes iff every transaction of it passes alone.** -/
theorem verNonInputConsensusTemplated_iff (hbatch : BatchExact P) (hfVersion : UInt8)
    (txs : List Transaction) :
    (verNonInputConsensusTemplated P txs hfVersion).Decides
      (∀ tx ∈ txs, Passes P hfVersion tx) := by
  choose ok hok _ using fun tx => nicRules_decides P tx hfVersion
  have hpass : ∀ tx, Passes P hfVersion tx ↔
      ok tx ∧ (tx.version ≥ 2 → SemanticsOk P tx.rctSignatures) := by
    intro tx
    have hone := verNonInputConsensusTemplated_decides hbatch hok [tx] {}
    simp only [forall_mem_singleton] at hone
    exact ⟨fun ⟨tvc, h⟩ => ((hone tvc trivial).mp h).1,
      fun h => ⟨{}, (hone {} trivial).mpr ⟨h, rfl⟩⟩⟩
  simp only [hpass]
  exact verNonInputConsensusTemplated_decides hbatch hok txs

/-! ## Pool supplements -/

/-- What the header asks of whoever changes a supplement: a non-zero `nic_verified_hf_version` is a
version at which every transaction of it passes. -/
def PoolSupplement.Honest (P : NicCrypto) (ps : PoolSupplement) : Prop :=
  ps.nicVerifiedHfVersion ≠ 0 → ∀ tx ∈ ps.txs, Passes P ps.nicVerifiedHfVersion tx

theorem verNonInputConsensusPool_honest (hbatch : BatchExact P) {ps : PoolSupplement}
    (hps : ps.Honest P) (hfVersion : UInt8) {tvc : TxVerificationContext}
    (htvc : tvc.verifivationFailed = false) :
    (verNonInputConsensusPool P ps hfVersion tvc).2.Honest P := by
  unfold verNonInputConsensusPool
  by_cases hc : ps.nicVerifiedHfVersion = hfVersion
  · rw [if_pos hc]
    exact hps
  rw [if_neg hc]
  split
  · rename_i t ht
    intro _
    exact ((verNonInputConsensusTemplated_iff hbatch hfVersion ps.txs tvc t htvc).mp ht).1
  · exact hps

/-- A supplement stays honest over any number of calls, each with a fresh context. -/
theorem honest_calls (hbatch : BatchExact P) {ps : PoolSupplement} (hps : ps.Honest P)
    (versions : List UInt8) :
    (versions.foldl (fun ps v => (verNonInputConsensusPool P ps v {}).2) ps).Honest P :=
  List.foldlRecOn versions _ hps fun _ hps v _ =>
    verNonInputConsensusPool_honest hbatch hps v rfl

/-- **A pool supplement passes iff each of its transactions passes alone**, at any hard fork version
(there is no version 0), in whatever order they are walked, when the batched verification of range
proofs accepts what it accepts one by one. -/
theorem verNonInputConsensusPool_iff (hbatch : BatchExact P) {ps : PoolSupplement}
    (hps : ps.Honest P) {hfVersion : UInt8} (hhf : hfVersion ≠ 0) {tvc : TxVerificationContext}
    (htvc : tvc.verifivationFailed = false) :
    (∃ tvc', (verNonInputConsensusPool P ps hfVersion tvc).1 = .ok (true, tvc')) ↔
      ∀ tx ∈ ps.txs, ∃ tvc', verNonInputConsensus P tx hfVersion {} = .ok (true, tvc') := by
  have hdecides := verNonInputConsensusTemplated_iff hbatch hfVersion ps.txs tvc
  unfold verNonInputConsensusPool
  by_cases hc : ps.nicVerifiedHfVersion = hfVersion
  · rw [if_pos hc]
    subst hc
    exact ⟨fun _ => hps hhf, fun _ => ⟨tvc, rfl⟩⟩
  rw [if_neg hc]
  constructor
  · rintro ⟨tvc', h⟩
    split at h
    · rename_i t ht
      exact ((hdecides t htvc).mp ht).1
    rename_i hno
    exact absurd h (hno tvc')
  · intro h
    rw [(hdecides tvc htvc).mpr ⟨h, rfl⟩]
    exact ⟨tvc, rfl⟩

end Rules

/-- A verification of range proofs that looks at the fee of each signature. -/
def sampleNicCrypto : NicCrypto where
  checkKey _ := true
  scalarmultKey _ _ := some identityKey
  verRctSemanticsSimple rvv := rvv.all fun rv => rv.txnFee ≠ 0
  verRct _ := false
  cnFastHash := sumHash

theorem sampleNicCrypto_batchExact : BatchExact sampleNicCrypto := by
  intro rvv _
  simp [sampleNicCrypto]

/-- A supplement of two transactions that nothing has verified yet. -/
def sampleSupplement : PoolSupplement where
  txsByTxid := [(Blob.fill 1, sampleRctTx 1, []), (Blob.fill 2, sampleRctTx 2, [])]

/-- Each transaction of the sample passes alone, so the supplement passes. -/
theorem verNonInputConsensusPool_sample :
    ∃ tvc, (verNonInputConsensusPool sampleNicCrypto sampleSupplement 16 {}).1 =
      .ok (true, tvc) := by
  refine (verNonInputConsensusPool_iff sampleNicCrypto_batchExact (fun h => absurd rfl h)
    (by decide) rfl).mpr ?_
  intro tx htx
  simp only [sampleSupplement, PoolSupplement.txs, map_cons, map_nil, mem_cons,
    not_mem_nil, or_false] at htx
  rcases htx with rfl | rfl
  · exact ⟨{}, by decide +kernel⟩
  · exact ⟨{}, by decide +kernel⟩

/-- Two calls for the sample, at different versions. -/
theorem honest_calls_sample :
    ([16, 15].foldl (fun ps v => (verNonInputConsensusPool sampleNicCrypto ps v {}).2)
      sampleSupplement).Honest sampleNicCrypto :=
  honest_calls sampleNicCrypto_batchExact (fun h => absurd rfl h) [16, 15]

end Hashmonkey.Core
