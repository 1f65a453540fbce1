import Hashmonkey.Basic.RoundTrip
import Mathlib.Data.Nat.Log
import Mathlib.Tactic.Ring

/-!
# The weight of a transaction (`cryptonote_basic/cryptonote_format_utils.cpp`)

* `getTransactionWeightClawback`: `get_transaction_weight_clawback`, what an aggregated range proof
  is charged on top of its bytes.
* `getTransactionWeight`, `getTransactionWeightOf`: the two overloads of `get_transaction_weight`,
  from a blob size and from the object.
* `getPrunedTransactionWeight`: `get_pruned_transaction_weight`, which predicts the size of what
  was pruned from the shape of the rest.

An object with the wrong `pruned` flag, version or type gets the weight `2^64 - 1`
(`CHECK_AND_ASSERT_MES`); the other checks throw, which is an `Except.error` with the text.

Result: `getPrunedTransactionWeight_eq`, that the prediction is right. It follows the serialiser
field by field through `Codec.Size`.
-/

namespace Hashmonkey.Basic

open Lib Serialization Ringct Codec List

/-! ## The functions -/

/-- `std::numeric_limits<uint64_t>::max()`, the weight of an object the function does not
support. -/
def unsupportedWeight : Nat := 2 ^ 64 - 1

/-- `while ((1u << nlr) < n) ++nlr`, for at most `fuel` more turns. -/
def paddedLogLoop (n : Nat) : Nat → Nat → Nat
  | 0, nlr => nlr
  | fuel + 1, nlr => if 1 <<< nlr < n then paddedLogLoop n fuel (nlr + 1) else nlr

/-- The loop from 0; it has ended after `n` turns. -/
def paddedLog (n : Nat) : Nat := paddedLogLoop n n 0

/-- The notional number of keys of a range proof besides `L` and `R`. -/
def proofKeys (type : RctType) : Nat := if type = .bulletproofPlus then 6 else 9

/-- `get_transaction_weight_clawback`. -/
def getTransactionWeightClawback (tx : Transaction) (nPaddedOutputs : Nat) : Except String Nat :=
  let keys := proofKeys tx.rctSignatures.type
  -- the notional size of a two-output proof, normalised to one output
  let bpBase := 32 * (keys + 7 * 2) / 2
  if nPaddedOutputs ≤ 2 then .ok 0
  else
    let bpSize := 32 * (keys + 2 * (paddedLog nPaddedOutputs + 6))
    if ¬ tx.vout.length ≤ bulletproofMaxOutputs then
      .error ("maximum number of outputs is " ++ toString bulletproofMaxOutputs ++
        " per transaction")
    else if ¬ bpSize ≤ bpBase * nPaddedOutputs then
      .error ("Invalid bulletproof clawback: bp_base " ++ toString bpBase ++
        ", n_padded_outputs " ++ toString nPaddedOutputs ++ ", bp_size " ++ toString bpSize)
    else .ok ((bpBase * nPaddedOutputs - bpSize) * 4 / 5)

/-- The clawback on top of a size, with the check of both overloads of the sum. -/
def addClawback (tx : Transaction) (nPaddedOutputs size : Nat) : Except String Nat :=
  match getTransactionWeightClawback tx nPaddedOutputs with
  | .error e => .error e
  | .ok bpClawback =>
    if ¬ bpClawback ≤ 2 ^ 64 - 1 - size then .error "Weight overflow"
    else .ok (size + bpClawback)

/-- The number of outputs the proofs of a full transaction are padded to. -/
def nPaddedOutputs (type : RctType) (q : RctSigPrunable) : Nat :=
  if type.isBulletproofPlus then maxAmountsLoop BulletproofPlus.maxAmounts 0 q.bulletproofsPlus
  else maxAmountsLoop Bulletproof.maxAmounts 0 q.bulletproofs

/-- `get_transaction_weight(tx, blob_size)`. -/
def getTransactionWeight (tx : Transaction) (blobSize : Nat) : Except String Nat :=
  let rv := tx.rctSignatures
  if tx.pruned then .ok unsupportedWeight
  else if tx.version < 2 then .ok blobSize
  else if !rv.type.isBulletproof && !rv.type.isBulletproofPlus then .ok blobSize
  else addClawback tx (nPaddedOutputs rv.type rv.p) blobSize

/-- The size of what `serialization::serialize` leaves in the stream. -/
def serializedSize (tx : Transaction) : Nat := ((transaction tx.pruned).write tx).1.length

/-- `get_transaction_weight(tx)`. -/
def getTransactionWeightOf (tx : Transaction) : Except String Nat :=
  getTransactionWeight tx (tx.blobSize.getD (serializedSize tx))

/-- The types whose pruned weight is predicted. -/
def predictedType : RctType → Bool
  | .bulletproof2 | .clsag | .bulletproofPlus => true
  | _ => false

/-- `get_pruned_transaction_weight`. -/
def getPrunedTransactionWeight (tx : Transaction) : Except String Nat :=
  let type := tx.rctSignatures.type
  if !tx.pruned then .ok unsupportedWeight
  else if tx.version < 2 then .ok unsupportedWeight
  else if !predictedType type then .ok unsupportedWeight
  else
    match tx.vin with
    | .key i :: _ =>
      let nrl := paddedLog tx.vout.length
      let nPaddedOutputs := 1 <<< nrl
      let ringSize := i.keyOffsets.length
      let proofsSize := 32 * ((if type.isBulletproofPlus then 6 else 9) + 2 * (nrl + 6)) + 2
      let ringSigs :=
        if type.isClsag then tx.vin.length * (ringSize + 2) * 32
        else tx.vin.length * (ringSize * (1 + 1) * 32 + 32)
      addClawback tx nPaddedOutputs
        (serializedSize tx + 1 + proofsSize + ringSigs + 32 * tx.vin.length)
    | _ => .ok unsupportedWeight

/-! ## The padded number of outputs -/

theorem paddedLogLoop_eq {n : Nat} : ∀ {fuel nlr : Nat}, nlr ≤ Nat.clog 2 n →
    Nat.clog 2 n ≤ nlr + fuel → paddedLogLoop n fuel nlr = Nat.clog 2 n
  | 0, nlr, hle, hfuel => by
    rw [paddedLogLoop]
    omega
  | fuel + 1, nlr, hle, hfuel => by
    rw [paddedLogLoop, Nat.one_shiftLeft]
    by_cases hlt : 2 ^ nlr < n
    · rw [if_pos hlt]
      have hnext : nlr < Nat.clog 2 n := (Nat.lt_clog_iff_pow_lt (by decide)).mpr hlt
      exact paddedLogLoop_eq hnext (by omega)
    · rw [if_neg hlt]
      have hge : Nat.clog 2 n ≤ nlr := Nat.clog_le_of_le_pow (by omega)
      omega

/-- The loop finds the least exponent whose power covers `n`. -/
theorem paddedLog_eq (n : Nat) : paddedLog n = Nat.clog 2 n := by
  refine paddedLogLoop_eq (Nat.zero_le _) ?_
  rw [Nat.zero_add]
  exact Nat.clog_le_of_le_pow (Nat.lt_two_pow_self).le

/-! ## Sizes of the prunable data -/

theorem key_size : key.Size fun _ => 32 := blob_size 32

theorem keyV_size : keyV.Size fun l => (writeVarint l.length).length + 32 * l.length := by
  intro l bs h
  have hsize := container_size key_size l bs h
  dsimp only at hsize ⊢
  rw [hsize, map_const', sum_replicate_nat, Nat.mul_comm]

/-- A bulletproof: nine keys and the two vectors behind their lengths. -/
theorem bulletproof_size : bulletproof.Size fun p =>
    32 * 9 + ((writeVarint p.L.length).length + 32 * p.L.length) +
      ((writeVarint p.R.length).length + 32 * p.R.length) := by
  refine Codec.Size.check (Codec.Size.map
    (key_size.seq <| key_size.seq <| key_size.seq <| key_size.seq <| key_size.seq <|
      key_size.seq <| keyV_size.seq <| keyV_size.seq <| key_size.seq <| key_size.seq key_size) ?_)
  rintro p _ ⟨⟩
  dsimp only
  omega

/-- A bulletproof+: six keys and the two vectors behind their lengths. -/
theorem bulletproofPlus_size : bulletproofPlus.Size fun p =>
    32 * 6 + ((writeVarint p.L.length).length + 32 * p.L.length) +
      ((writeVarint p.R.length).length + 32 * p.R.length) := by
  refine Codec.Size.check (Codec.Size.map
    (key_size.seq <| key_size.seq <| key_size.seq <| key_size.seq <| key_size.seq <|
      key_size.seq <| keyV_size.seq keyV_size) ?_)
  rintro p _ ⟨⟩
  dsimp only
  omega

theorem clsag_size (mixin : Nat) : (clsag mixin).Size fun _ => (mixin + 1 + 2) * 32 := by
  refine Codec.Size.map ((key_size.vector_const (mixin + 1)).seq (key_size.seq key_size)) ?_
  rintro c _ ⟨⟩
  ring

variable {type : RctType}

/-- An MLSAG of a type with one an input. -/
theorem mgSig_size (ht : type.mgPerInput = true) (inputs mixin : Nat) :
    (mgSig type inputs mixin).Size fun _ => (mixin + 1) * (1 + 1) * 32 + 32 := by
  refine Codec.Size.map (((key_size.vector_const _).vector_const (mixin + 1)).seq key_size) ?_
  rintro m _ ⟨⟩
  rw [if_pos ht]
  ring

variable {outputs : Nat} {bs : Bytes}

/-- A proof that covers any output has vectors of one length, at most 10. -/
theorem nBulletproofMaxAmountsBase_ne_zero {l r : Nat}
    (h : nBulletproofMaxAmountsBase l r bulletproofMaxOutputs ≠ 0) :
    l = r ∧ l ≤ 10 ∧
      nBulletproofMaxAmountsBase l r bulletproofMaxOutputs = 1 <<< (l - 6) := by
  unfold nBulletproofMaxAmountsBase at h ⊢
  simp only [ne_eq, ite_eq_left_iff, Classical.not_imp] at h
  obtain ⟨h1, h2, h3, h4, -⟩ := h
  rw [if_neg h1, if_neg h2, if_neg h3, if_neg h4]
  exact ⟨not_not.mp h2, not_lt.mp h4, rfl⟩

variable {inputs : Nat} {q : RctSigPrunable}

theorem predictedType_cases (ht : predictedType type = true) :
    type = .bulletproof2 ∨ type = .clsag ∨ type = .bulletproofPlus := by
  cases type <;> simp_all [predictedType]

/-- The ring signatures of a predicted type. -/
theorem ringSigs_size {mixin : Nat} {bClsag bMg : Bytes} (ht : predictedType type = true)
    (hClsag : (if type.isClsag then vector inputs (clsag mixin)
        else skip []).write q.CLSAGs = (bClsag, true))
    (hMg : (if type.isClsag then skip []
        else vector (if type.mgPerInput then inputs else 1)
          (mgSig type inputs mixin)).write q.MGs = (bMg, true)) :
    bClsag.length + bMg.length =
      if type.isClsag then inputs * (mixin + 1 + 2) * 32
      else inputs * ((mixin + 1) * (1 + 1) * 32 + 32) := by
  rcases predictedType_cases ht with rfl | rfl | rfl
  · have hsize := (mgSig_size rfl inputs mixin).vector_const inputs _ _ hMg
    rw [Codec.Size.skip [] _ _ hClsag, hsize, Nat.zero_add]
    rfl
  all_goals
    have hsize := (clsag_size mixin).vector_const inputs _ _ hClsag
    rw [Codec.Size.skip [] _ _ hMg, hsize, Nat.add_zero, ← Nat.mul_assoc]
    rfl

theorem rangeSigs_size (ht : predictedType type = true)
    (h : (if type.isBorromean then vector outputs rangeSig
        else skip []).write q.rangeSigs = (bs, true)) : bs.length = 0 := by
  rcases predictedType_cases ht with rfl | rfl | rfl <;> exact Codec.Size.skip [] _ _ h

theorem pseudoOuts_size (ht : predictedType type = true)
    (h : (if type.isBulletproof || type.isBulletproofPlus then vector inputs key
        else skip []).write q.pseudoOuts = (bs, true)) : bs.length = inputs * 32 := by
  rcases predictedType_cases ht with rfl | rfl | rfl <;> exact key_size.vector_const inputs _ _ h

/-! ## The prediction -/

/-- The RingCT type that a transaction has on the wire (`rctBase_norm_type`). -/
def Transaction.wireType (tx : Transaction) : RctType :=
  if tx.version = 1 ∨ tx.vin.isEmpty then .null else tx.rctSignatures.type

/-- `ptx` is `tx` without its prunable data: a pruned object with the prefix of `tx` and RingCT
base data that is written like that of `tx`. -/
structure PrunedFrom (tx ptx : Transaction) : Prop where
  pruned : ptx.pruned = true
  same_prefix : ptx.toTransactionPrefix = tx.toTransactionPrefix
  type_eq : ptx.rctSignatures.type = tx.rctSignatures.type
  base : (rctBase tx.toTransactionPrefix).write ptx.rctSignatures.toRctSigBase =
    (rctBase tx.toTransactionPrefix).write tx.rctSignatures.toRctSigBase

variable {tx : Transaction}

theorem wireType_eq (h : tx.wireType ≠ .null) :
    tx.wireType = tx.rctSignatures.type ∧ tx.version ≠ 1 ∧ tx.vin ≠ [] := by
  unfold Transaction.wireType at h ⊢
  by_cases hc : tx.version = 1 ∨ tx.vin.isEmpty = true
  · rw [if_pos hc] at h
    exact absurd rfl h
  rw [not_or, List.isEmpty_iff] at hc
  exact ⟨if_neg (by simpa using hc), hc⟩

/-- Every input has a ring, all of one size. -/
def EqualRings (vin : List TxinV) : Prop :=
  ∃ ringSize, ∀ i ∈ vin, ∃ k, i = .key k ∧ k.keyOffsets.length = ringSize

theorem EqualRings.head {vin : List TxinV} (h : EqualRings vin) (hne : vin ≠ []) :
    ∃ i l, vin = .key i :: l := by
  obtain ⟨_, hk⟩ := h
  obtain ⟨x, l, rfl⟩ := exists_cons_of_ne_nil hne
  obtain ⟨i, rfl, -⟩ := hk x mem_cons_self
  exact ⟨i, l, rfl⟩

/-- A single range proof, of the least size that covers the outputs. -/
def SingleMinimalProof (type : RctType) (outputs : Nat) (q : RctSigPrunable) : Prop :=
  if type.isBulletproofPlus then
    ∃ p, q.bulletproofsPlus = [p] ∧ p.L.length = 6 + Nat.clog 2 outputs
  else ∃ p, q.bulletproofs = [p] ∧ p.L.length = 6 + Nat.clog 2 outputs

variable {α : Type} {proof : Codec UInt8 α} {maxAmounts : α → Nat}
  {hm : ∀ p, maxAmounts (proof.norm p) = maxAmounts p}

/-- A proof vector with a varint count. -/
theorem proofs_varint_size {n : α → Nat} (hn : proof.Size n) :
    (proofs varint32 varint32_exact proof maxAmounts hm outputs).Size fun ps =>
      (writeVarint (UInt32.ofNat ps.length).toNat).length +
        ((ps.take (UInt32.ofNat ps.length).toNat).map n).sum := by
  refine Codec.Size.check (Codec.Size.map
    (Codec.Size.dep (Codec.Size.check varint32_size) fun nbp => hn.vector nbp.toNat) ?_)
  rintro l _ ⟨⟩
  rfl

/-- The size of a vector with one minimal proof, and the padded number of outputs it stands for. -/
theorem minimal_proof_size {l r : α → Nat} {keys : Nat} {p : α}
    (hn : proof.Size fun p => 32 * keys + ((writeVarint (l p)).length + 32 * l p) +
      ((writeVarint (r p)).length + 32 * r p))
    (hmax : ∀ p, maxAmounts p = nBulletproofMaxAmountsBase (l p) (r p) bulletproofMaxOutputs)
    (hlen : l p = 6 + Nat.clog 2 outputs)
    (h : (proofs varint32 varint32_exact proof maxAmounts hm outputs).write [p] = (bs, true)) :
    bs.length = 1 + (32 * (keys + 2 * (Nat.clog 2 outputs + 6)) + 2) ∧
      maxAmountsLoop maxAmounts 0 [p] = 1 <<< Nat.clog 2 outputs := by
  have hone : (writeVarint 1).length = 1 := rfl
  have hsize := proofs_varint_size hn [p] bs h
  -- at most one proof an output, so there is an output and the sum is not the error value
  simp only [proofs, check, Prod.mk.injEq, Bool.and_eq_true, decide_eq_true_eq] at h
  obtain ⟨-, hmap, hcover⟩ := h
  have hcount : 1 ≤ outputs := by
    obtain ⟨_, _, hc, -, -⟩ := Written.andThen_ok.mp (Prod.ext rfl hmap)
    have hcheck := congrArg Prod.snd hc
    simp only [Bool.and_eq_true, decide_eq_true_eq] at hcheck
    exact hcheck.2
  have hloop : maxAmountsLoop maxAmounts 0 [p] ≠ 0 := by omega
  simp only [maxAmountsLoop, ne_eq, ite_eq_left_iff, Classical.not_imp] at hloop
  obtain ⟨hbig, h0, -⟩ := hloop
  obtain ⟨hlr, hle, hbase⟩ := nBulletproofMaxAmountsBase_ne_zero (hmax p ▸ h0)
  have hsmall : (writeVarint (l p)).length = 1 := by
    rw [writeVarint_last (by omega)]
    rfl
  simp [hone, ← hlr, hsmall] at hsize
  rw [maxAmountsLoop, if_neg hbig, if_neg h0, maxAmountsLoop, Nat.zero_add, hmax, hbase, hlen,
    Nat.add_sub_cancel_left]
  exact ⟨by omega, rfl⟩

/-- The proof vectors of a predicted type. -/
theorem proofs_size {bPlus bProofs : Bytes}
    (ht : predictedType type = true) (hq : SingleMinimalProof type outputs q)
    (hPlus : (if type.isBulletproofPlus then bulletproofsPlus outputs
        else skip []).write q.bulletproofsPlus = (bPlus, true))
    (hProofs : (if type.isBulletproof then bulletproofs type outputs
        else skip []).write q.bulletproofs = (bProofs, true)) :
    bPlus.length + bProofs.length =
        1 + (32 * ((if type.isBulletproofPlus then 6 else 9) +
          2 * (Nat.clog 2 outputs + 6)) + 2) ∧
      nPaddedOutputs type q = 1 <<< Nat.clog 2 outputs := by
  rcases predictedType_cases ht with rfl | rfl | rfl
  case inr.inr =>
    obtain ⟨p, hp, hlen⟩ := hq
    rw [if_pos (by decide), hp] at hPlus
    rw [Codec.Size.skip [] _ _ hProofs, nPaddedOutputs, hp]
    exact minimal_proof_size bulletproofPlus_size (fun _ => rfl) hlen hPlus
  all_goals
    obtain ⟨p, hp, hlen⟩ := hq
    rw [if_pos (by decide), bulletproofs, if_neg (by decide), hp] at hProofs
    rw [Codec.Size.skip [] _ _ hPlus, Nat.zero_add, nPaddedOutputs, hp]
    exact minimal_proof_size bulletproof_size (fun _ => rfl) hlen hProofs

/-- The size that is predicted for the prunable data. -/
def predictedCut (type : RctType) (inputs outputs ringSize : Nat) : Nat :=
  1 + (32 * ((if type.isBulletproofPlus then 6 else 9) + 2 * (paddedLog outputs + 6)) + 2) +
    (if type.isClsag then inputs * (ringSize + 2) * 32
      else inputs * (ringSize * (1 + 1) * 32 + 32)) + 32 * inputs

/-- The prunable data is its six parts, and together they have the size that is predicted. -/
theorem rctsigPrunable_size {mixin : Nat} (ht : predictedType type = true)
    (hq : SingleMinimalProof type outputs q)
    (h : (rctsigPrunable type inputs outputs mixin).write q = (bs, true)) :
    mixin < 0xffffffff ∧ bs.length = predictedCut type inputs outputs (mixin + 1) ∧
      nPaddedOutputs type q = 1 <<< paddedLog outputs := by
  have hnull : type ≠ .null := by
    rintro rfl
    cases ht
  unfold rctsigPrunable at h
  by_cases hbig : 0xffffffff ≤ inputs ∨ 0xffffffff ≤ outputs ∨ 0xffffffff ≤ mixin
  · rw [if_pos hbig] at h
    simp [fail] at h
  rw [if_neg hbig, if_neg hnull] at h
  obtain ⟨bPlus, b1, hPlus, h1, rfl⟩ := seq_write_ok.mp h
  obtain ⟨bProofs, b2, hProofs, h2, rfl⟩ := seq_write_ok.mp h1
  obtain ⟨bRange, b3, hRange, h3, rfl⟩ := seq_write_ok.mp h2
  obtain ⟨bClsag, b4, hClsag, h4, rfl⟩ := seq_write_ok.mp h3
  obtain ⟨bMg, bPseudo, hMg, hPseudo, rfl⟩ := seq_write_ok.mp h4
  obtain ⟨hproofs, hpadded⟩ := proofs_size ht hq hPlus hProofs
  have hsigs := ringSigs_size ht hClsag hMg
  have hrange := rangeSigs_size ht hRange
  have hpseudo := pseudoOuts_size ht hPseudo
  rw [predictedCut, paddedLog_eq, ← hsigs]
  simp only [length_append]
  exact ⟨by omega, by omega, hpadded⟩

/-- Only the versions 1 and 2 are written. -/
theorem version_of_write {p : TransactionPrefix}
    (h : transactionPrefix.write p = (bs, true)) : p.version = 1 ∨ p.version = 2 := by
  obtain ⟨_, _, hv, -, -⟩ := seq_write_ok.mp (h : (seq _ _).write _ = _)
  have hcheck := congrArg Prod.snd hv
  simp only [check, Bool.and_eq_true, Bool.not_eq_true', Bool.or_eq_false_iff,
    beq_eq_false_iff_ne, ne_eq, currentTransactionVersion] at hcheck
  obtain ⟨-, h0, h2⟩ := hcheck
  have hle : p.version.toNat ≤ 2 := by simpa [UInt64.lt_iff_toNat_lt] using h2
  have hne : p.version.toNat ≠ 0 := fun hc => h0 (UInt64.toNat_inj.mp hc)
  rcases (by omega : p.version.toNat = 1 ∨ p.version.toNat = 2) with hc | hc
  · exact .inl (UInt64.toNat_inj.mp hc)
  · exact .inr (UInt64.toNat_inj.mp hc)

/-- A full transaction with RingCT data is the part that survives pruning and the prunable data. -/
theorem rct_write_ok {blob : Bytes}
    (hw : (transaction false).write tx = (blob, true)) (hnull : tx.wireType ≠ .null) :
    ∃ kept cut, unprunable.write ((tx.toTransactionPrefix, 0), tx.rctSignatures.toRctSigBase) =
        (kept, true) ∧
      (rctsigPrunable tx.rctSignatures.type tx.vin.length tx.vout.length
        (mixin tx.vin)).write tx.rctSignatures.p = (cut, true) ∧
      blob = kept ++ cut := by
  obtain ⟨pre, base, sigs, cut, -, -, hsigs, hcut, hkept, rfl⟩ := transaction_write_ok hw
  obtain ⟨hwire, hv1, hvin⟩ := wireType_eq hnull
  rw [signaturesOf, if_neg hv1] at hsigs
  rw [rctPrunable, if_neg hv1, if_neg (by simpa using hvin),
    if_neg (by simpa using hwire ▸ hnull)] at hcut
  have hnone : sigs = [] := length_eq_zero_iff.mp (Codec.Size.skip [] _ _ hsigs)
  exact ⟨pre ++ base, cut, hkept, hcut, by rw [hnone, nil_append]⟩

variable {ptx : Transaction}

/-- What the pruned object is written as. -/
theorem PrunedFrom.write_eq {kept : Bytes} (h : PrunedFrom tx ptx) (hnull : tx.wireType ≠ .null)
    (hkept : unprunable.write ((tx.toTransactionPrefix, 0), tx.rctSignatures.toRctSigBase) =
      (kept, true)) : (transaction true).write ptx = (kept, true) := by
  have hbase : unprunable.write ((ptx.toTransactionPrefix, 0), ptx.rctSignatures.toRctSigBase) =
      (kept, true) := by
    rw [← hkept, h.same_prefix]
    show Written.andThen _ _ = Written.andThen _ _
    exact congrArg _ h.base
  obtain ⟨-, hv1, hvin⟩ := wireType_eq hnull
  refine Written.andThen_ok.mpr ⟨kept, [], hbase, ?_, (append_nil kept).symm⟩
  dsimp only
  rw [h.same_prefix, signaturesOf, if_neg hv1, rctPrunable, if_neg hv1,
    if_neg (by simpa using hvin), if_pos (by simp)]
  rfl

/-- The ring size of the first input, from the `mixin` that the serialiser computes. -/
theorem ringSize_eq {p : TransactionPrefix} {i : TxinToKey} {l : List TxinV}
    (h : transactionPrefix.write p = (bs, true)) (hv : p.vin = .key i :: l)
    (hm : mixin p.vin < 0xffffffff) : mixin p.vin + 1 = i.keyOffsets.length := by
  obtain ⟨_, hoff, -⟩ := firstRing_of_write h hv
  have hlt := length_lt_size_t hoff
  rw [hv] at hm ⊢
  simp only [mixin] at hm ⊢
  omega

theorem addClawback_congr (hvout : ptx.vout = tx.vout)
    (htype : ptx.rctSignatures.type = tx.rctSignatures.type) (nPaddedOutputs size : Nat) :
    addClawback ptx nPaddedOutputs size = addClawback tx nPaddedOutputs size := by
  simp only [addClawback, getTransactionWeightClawback, hvout, htype]

/-- The weight of a full transaction of a predicted type. -/
theorem getTransactionWeightOf_eq (hfull : tx.pruned = false)
    (hv : tx.version = 2) (ht : predictedType tx.rctSignatures.type = true) :
    getTransactionWeightOf tx =
      addClawback tx (nPaddedOutputs tx.rctSignatures.type tx.rctSignatures.p)
        (tx.blobSize.getD (serializedSize tx)) := by
  unfold getTransactionWeightOf getTransactionWeight
  rw [if_neg (by simp [hfull]), if_neg (by rw [hv]; decide)]
  rcases predictedType_cases ht with h | h | h <;> rw [h] <;> rfl

/-- The weight of a pruned transaction of a predicted type. -/
theorem PrunedFrom.weight_eq {kept : Bytes} {i : TxinToKey} {l : List TxinV}
    (hp : PrunedFrom tx ptx) (hv : tx.version = 2)
    (ht : predictedType tx.rctSignatures.type = true) (hvin : tx.vin = .key i :: l)
    (hkept : (transaction true).write ptx = (kept, true)) :
    getPrunedTransactionWeight ptx = addClawback tx (1 <<< paddedLog tx.vout.length)
      (kept.length + predictedCut tx.rctSignatures.type tx.vin.length tx.vout.length
        i.keyOffsets.length) := by
  have hvout : ptx.vout = tx.vout := congrArg (·.vout) hp.same_prefix
  have hversion : ptx.version = 2 := (congrArg (·.version) hp.same_prefix).trans hv
  have hpvin : ptx.vin = tx.vin := congrArg (·.vin) hp.same_prefix
  have hsize : serializedSize ptx = kept.length := by rw [serializedSize, hp.pruned, hkept]
  unfold getPrunedTransactionWeight
  rw [if_neg (by simp [hp.pruned]), if_neg (by rw [hversion]; decide), hp.type_eq,
    if_neg (by simp [ht]), hpvin]
  simp only [hvin, hvout, hsize, addClawback_congr hvout hp.type_eq, predictedCut, Nat.add_assoc]

/-- The size that a full transaction is weighed with is the size of its blob. -/
theorem cached_size {blob : Bytes} (hw : (transaction false).write tx = (blob, true))
    (hfull : tx.pruned = false) (hcache : ∀ n, tx.blobSize = some n → n = blob.length) :
    tx.blobSize.getD (serializedSize tx) = blob.length := by
  cases hb : tx.blobSize with
  | none => rw [Option.getD_none, serializedSize, hfull, hw]
  | some n => rw [Option.getD_some, hcache n hb]

/-- **The pruned weight is the weight.** For a transaction of one of the predicted types, with
rings of one size and a single minimal range proof, the weight predicted from the pruned object is
the weight of the full one. A cached blob size is the size of the blob. -/
theorem getPrunedTransactionWeight_eq {tx ptx : Transaction} {blob : Bytes}
    (hw : (transaction false).write tx = (blob, true)) (hfull : tx.pruned = false)
    (hcache : ∀ n, tx.blobSize = some n → n = blob.length)
    (htype : predictedType tx.wireType = true) (hrings : EqualRings tx.vin)
    (hproof : SingleMinimalProof tx.wireType tx.vout.length tx.rctSignatures.p)
    (hp : PrunedFrom tx ptx) :
    getPrunedTransactionWeight ptx = getTransactionWeightOf tx := by
  have hnull : tx.wireType ≠ .null := fun hc => by simp [hc, predictedType] at htype
  obtain ⟨kept, cut, hkept, hcut, rfl⟩ := rct_write_ok hw hnull
  obtain ⟨bPrefix, _, hpre, -, -⟩ := Written.andThen_ok.mp hkept
  obtain ⟨hwire, hv1, hvin⟩ := wireType_eq hnull
  rw [hwire] at htype hproof
  obtain ⟨i, l, hvin⟩ := hrings.head hvin
  obtain ⟨hmixin, hsize, hpadded⟩ := rctsigPrunable_size htype hproof hcut
  have hv : tx.version = 2 := (version_of_write hpre).resolve_left hv1
  rw [hp.weight_eq hv htype hvin (hp.write_eq hnull hkept), ← ringSize_eq hpre hvin hmixin,
    ← hsize, ← hpadded, getTransactionWeightOf_eq hfull hv htype, cached_size hw hfull hcache,
    length_append]

/-- A transaction with two inputs and four outputs under one bulletproof+. -/
def sampleWeighed : Transaction := sampleRct 0 [Blob.fill 1, Blob.fill 2] 4 8

/-- The pruned object of `sampleWeighed`. -/
def samplePruned : Transaction :=
  { sampleWeighed with
    rctSignatures := { sampleWeighed.rctSignatures with p := {} }
    pruned := true }

theorem getPrunedTransactionWeight_sample :
    getPrunedTransactionWeight samplePruned = getTransactionWeightOf sampleWeighed := by
  have hw : (transaction false).write sampleWeighed =
      (((transaction false).write sampleWeighed).1, true) :=
    Prod.ext rfl (by decide)
  refine getPrunedTransactionWeight_eq hw rfl ?_ rfl ⟨2, ?_⟩ ⟨_, rfl, ?_⟩ ⟨rfl, rfl, rfl, rfl⟩
  · rintro n ⟨⟩
  · exact forall_mem_map.mpr fun k _ => ⟨_, rfl, rfl⟩
  · rfl

end Hashmonkey.Basic
