import Hashmonkey.Basic.FormatUtils

/-!
# From a transaction to its blob and back (`cryptonote_format_utils.cpp`)

`tx_to_blob` writes a transaction and `parse_and_validate_tx_from_blob` reads it into a fresh
object. Not every field is serialised, and some are written shorter than they are kept in memory:
`Transaction.wire` is what the object holds after it read the blob, the serialised fields as they
were and the others at their defaults, `Transaction.wireBase` the same for the base blob.

Result: **`tx_round_trip`**. The parser gives what `expand_transaction_1` makes of it, the base blob
is a prefix of the full one, and its length is the recorded `unprunable_size` for a transaction of
version 1 or with an input. `tx_round_trip_limits` shows what a stronger statement would run into:
transactions without inputs, signatures or range proofs.
-/

namespace Hashmonkey.Basic

open Lib Serialization Ringct Codec UInt32

/-! ## What survives the wire -/

/-- An entry of `ecdhInfo` after the wire. -/
def wireEcdh (type : RctType) (e : EcdhTuple) : EcdhTuple :=
  if type.truncatesAmount then ⟨Blob.fill 0, padAmount (truncAmount e.amount)⟩ else e

/-- Base RingCT data after the wire. -/
def wireBaseRct (b : RctSigBase) : RctSigBase :=
  if b.type = .null then {}
  else
    { type := b.type
      txnFee := b.txnFee
      pseudoOuts := if b.type = .simple then b.pseudoOuts else []
      ecdhInfo := b.ecdhInfo.map (wireEcdh b.type)
      outPk := b.outPk.map fun c => { c with dest := Blob.fill 0 } }

/-- A proof vector after the wire, for the part of it that a 32-bit count covers. -/
def wireProofs {α : Type} (f : α → α) (l : List α) : List α :=
  (l.take (ofNat l.length).toNat).map f

/-- Prunable RingCT data after the wire. -/
def wirePrunable (type : RctType) (q : RctSigPrunable) : RctSigPrunable :=
  if type = .null then {}
  else
    { rangeSigs := if type.isBorromean then q.rangeSigs else []
      bulletproofs :=
        if type.isBulletproof then wireProofs (fun p => { p with V := [] }) q.bulletproofs else []
      bulletproofsPlus :=
        if type.isBulletproofPlus then wireProofs (fun p => { p with V := [] }) q.bulletproofsPlus
        else []
      MGs := if type.isClsag then [] else q.MGs.map fun m => { m with II := [] }
      CLSAGs := if type.isClsag then q.CLSAGs.map fun c => { c with I := Blob.fill 0 } else []
      pseudoOuts := if type.isBulletproof || type.isBulletproofPlus then q.pseudoOuts else [] }

/-- The base RingCT data that a fresh object holds after it read a transaction. -/
def Transaction.wireRct (t : Transaction) : RctSigBase :=
  if t.version = 1 ∨ t.vin.isEmpty then {} else wireBaseRct t.rctSignatures.toRctSigBase

/-- What a fresh object holds after it read the blob of a transaction that is not pruned. -/
def Transaction.wire (t : Transaction) : Transaction :=
  { toTransactionPrefix := t.toTransactionPrefix
    signatures :=
      if t.version = 1 then
        if t.signatures.isEmpty then List.replicate t.vin.length [] else t.signatures
      else []
    rctSignatures :=
      { toRctSigBase := t.wireRct
        p := if t.version = 1 ∨ t.vin.isEmpty then {}
          else wirePrunable t.rctSignatures.type t.rctSignatures.p }
    prefixSize := t.recordSizes.prefixSize
    unprunableSize := if t.version ≠ 1 ∧ t.vin.isEmpty then 0 else t.recordSizes.unprunableSize }

/-- What a fresh object holds after it read the base blob of a transaction. -/
def Transaction.wireBase (t : Transaction) : Transaction :=
  { toTransactionPrefix := t.toTransactionPrefix
    rctSignatures := { toRctSigBase := t.wireRct }
    pruned := true }

/-! ## The codecs agree with it -/

theorem key_exact : key.Exact := blob_exact 32

theorem ecdhTuple_norm (type : RctType) (e : EcdhTuple) :
    (ecdhTuple type).norm e = wireEcdh type e := by
  unfold ecdhTuple wireEcdh
  split <;> rfl

variable {type : RctType} {inputs outputs : Nat} {bs : Bytes}

theorem rctsigBaseBody_norm {fee : UInt64}
    {pseudoOuts : List Key} {ecdhInfo : List EcdhTuple} {outPk : List CtKey} (hnull : type ≠ .null)
    (h : (rctsigBaseBody type inputs outputs).write (fee, pseudoOuts, ecdhInfo, outPk) =
      (bs, true)) :
    (rctsigBaseBody type inputs outputs).norm (fee, pseudoOuts, ecdhInfo, outPk) =
      (fee, if type = .simple then pseudoOuts else [], ecdhInfo.map (wireEcdh type),
        outPk.map fun c => { c with dest := Blob.fill 0 }) := by
  rw [rctsigBaseBody, if_neg hnull] at h ⊢
  obtain ⟨_, _, -, h, -⟩ := seq_write_ok.mp h
  obtain ⟨_, _, hps, h, -⟩ := seq_write_ok.mp h
  obtain ⟨_, _, hecdh, hout, -⟩ := seq_write_ok.mp h
  have hps' : (if type = .simple then vector inputs key else skip []).norm
      pseudoOuts = if type = .simple then pseudoOuts else [] :=
    ite_norm hps (vector_norm_exact key_exact) fun _ => rfl
  have hecdh' := vector_norm_of_write (fun e _ _ => ecdhTuple_norm type e) hecdh
  have hout' : (vector outputs outPkMask).norm outPk =
      outPk.map fun c => { c with dest := Blob.fill 0 } :=
    vector_norm_of_write (fun _ _ _ => rfl) hout
  rw [seq_norm, seq_norm, seq_norm, varint64_exact, hps', hecdh', hout']

theorem rctsigBase_norm {b : RctSigBase} (h : (rctsigBase inputs outputs).write b = (bs, true)) :
    (rctsigBase inputs outputs).norm b = wireBaseRct b := by
  obtain ⟨type, message, mixRing, pseudoOuts, ecdhInfo, outPk, fee⟩ := b
  obtain ⟨_, _, -, hbody, -⟩ := Written.andThen_ok.mp h
  by_cases hnull : type = .null
  · subst hnull
    rfl
  have hn := rctsigBaseBody_norm hnull hbody
  have ht := rctType_exact type
  simp only [rctsigBase, map, dep, hn, ht, wireBaseRct, if_neg hnull]

variable {t : Transaction}

theorem rctBase_norm
    (h : (rctBase t.toTransactionPrefix).write t.rctSignatures.toRctSigBase = (bs, true)) :
    (rctBase t.toTransactionPrefix).norm t.rctSignatures.toRctSigBase = t.wireRct := by
  unfold rctBase at h ⊢
  rw [← ite_or] at h ⊢
  unfold Transaction.wireRct
  exact ite_norm h (fun _ => rfl) rctsigBase_norm

/-! ### The prunable part -/

theorem proofs_norm {α : Type} {count : Codec UInt8 UInt32} {hcount : count.Exact}
    {proof : Codec UInt8 α} {maxAmounts : α → Nat}
    {hm : ∀ p, maxAmounts (proof.norm p) = maxAmounts p} {f : α → α}
    (hf : ∀ p, proof.norm p = f p) (l : List α) :
    (proofs count hcount proof maxAmounts hm outputs).norm l = wireProofs f l := by
  have hle : (ofNat l.length).toNat ≤ l.length := by
    exact Nat.mod_le _ _
  show (vector (ofNat l.length).toNat proof).norm _ = _
  rw [vector_norm (by rw [List.length_take, Nat.min_eq_left hle]), wireProofs,
    show proof.norm = f from funext hf]

theorem bulletproofs_norm (type : RctType) (outputs : Nat) (l : List Bulletproof) :
    (bulletproofs type outputs).norm l = wireProofs (fun p => { p with V := [] }) l := by
  unfold bulletproofs
  split <;> exact proofs_norm bulletproof_norm l

theorem bulletproofsPlus_norm (outputs : Nat) (l : List BulletproofPlus) :
    (bulletproofsPlus outputs).norm l = wireProofs (fun p => { p with V := [] }) l :=
  proofs_norm bulletproofPlus_norm l

theorem rangeSig_exact : rangeSig.Exact :=
  Codec.Exact.map (Codec.Exact.seq (blob_exact _) (blob_exact _)) fun r =>
    ⟨(r.asig, r.Ci), rfl, rfl⟩

variable {mixin : Nat}

theorem clsag_norm {c : Clsag} (h : (clsag mixin).write c = (bs, true)) :
    (clsag mixin).norm c = { c with I := Blob.fill 0 } := by
  obtain ⟨s, c1, I, D⟩ := c
  obtain ⟨_, _, hs, -, -⟩ := seq_write_ok.mp h
  have hn := vector_norm_exact key_exact hs
  simp only [clsag, map, seq_norm, hn, key_exact c1, key_exact D]

theorem mgSig_norm {m : MgSig} (h : (mgSig type inputs mixin).write m = (bs, true)) :
    (mgSig type inputs mixin).norm m = { m with II := [] } := by
  obtain ⟨ss, cc, II⟩ := m
  obtain ⟨_, _, hs, -, -⟩ := seq_write_ok.mp h
  have hn := vector_norm_of_write (f := id)
    (fun r _ hr => vector_norm_exact key_exact hr) hs
  simp only [mgSig, map, seq_norm, hn, List.map_id, key_exact cc]

theorem rctsigPrunable_norm {q : RctSigPrunable}
    (h : (rctsigPrunable type inputs outputs mixin).write q = (bs, true)) :
    (rctsigPrunable type inputs outputs mixin).norm q = wirePrunable type q := by
  unfold rctsigPrunable wirePrunable at *
  split at h
  · simp [fail] at h
  rename_i hbound
  rw [if_neg hbound]
  split at h
  · rename_i hnull
    rw [if_pos hnull, if_pos hnull]
    rfl
  rename_i hnull
  rw [if_neg hnull, if_neg hnull]
  obtain ⟨_, _, h1, h, -⟩ := seq_write_ok.mp h
  obtain ⟨_, _, h2, h, -⟩ := seq_write_ok.mp h
  obtain ⟨_, _, h3, h, -⟩ := seq_write_ok.mp h
  obtain ⟨_, _, h4, h, -⟩ := seq_write_ok.mp h
  obtain ⟨_, _, h5, h6, -⟩ := seq_write_ok.mp h
  have n1 := ite_norm (y := []) h1 (fun _ => bulletproofsPlus_norm outputs _) fun _ => rfl
  have n2 := ite_norm (y := []) h2 (fun _ => bulletproofs_norm type outputs _) fun _ => rfl
  have n3 := ite_norm (y := []) h3 (vector_norm_exact rangeSig_exact) fun _ => rfl
  have n4 := ite_norm (y := []) h4 (vector_norm_of_write fun _ _ => clsag_norm)
    fun _ => rfl
  have n5 := ite_norm (x := []) h5 (fun _ => rfl)
    (vector_norm_of_write fun _ _ => mgSig_norm)
  have n6 := ite_norm (y := []) h6 (vector_norm_exact key_exact) fun _ => rfl
  simp only [map, seq_norm, n1, n2, n3, n4, n5, n6]

theorem rctPrunable_norm
    (h : (rctPrunable false t.toTransactionPrefix t.rctSignatures.type).write t.rctSignatures.p =
      (bs, true)) :
    (rctPrunable false t.toTransactionPrefix t.rctSignatures.type).norm t.rctSignatures.p =
      if t.version = 1 ∨ t.vin.isEmpty then {}
      else wirePrunable t.rctSignatures.type t.rctSignatures.p := by
  unfold rctPrunable at h ⊢
  rw [← ite_or] at h ⊢
  refine ite_norm h (fun _ => rfl) fun h => ?_
  by_cases hnull : t.rctSignatures.type = .null
  · rw [if_pos (by simp [hnull]), wirePrunable, if_pos hnull]
    rfl
  rw [if_neg (by simp [hnull])] at h ⊢
  exact rctsigPrunable_norm h

/-! ### The signatures of version 1 -/

theorem signatures_norm {vin : List TxinV} {s : List (List Signature)}
    (h : (signatures false vin).write s = (bs, true)) :
    (signatures false vin).norm s = if s.isEmpty then List.replicate vin.length [] else s := by
  have hn := each_norm_of_write (f := id) (fun c hc a bs' ha => by
    obtain ⟨i, -, rfl⟩ := List.mem_map.mp hc
    exact vector_norm_exact (blob_exact 64) ha) h
  rw [List.map_id] at hn
  exact hn

theorem signaturesOf_norm {p : TransactionPrefix} {s : List (List Signature)}
    (h : (signaturesOf false p).write s = (bs, true)) :
    (signaturesOf false p).norm s =
      if p.version = 1 then if s.isEmpty then List.replicate p.vin.length [] else s else [] :=
  ite_norm h signatures_norm fun _ => rfl

/-! ### The transaction -/

variable {blob : Bytes}

/-- The parts of what is written for a transaction that is not pruned. -/
theorem transaction_write_ok (h : (transaction false).write t = (blob, true)) :
    ∃ pre base sigs prunable,
      transactionPrefix.write t.toTransactionPrefix = (pre, true) ∧
      (rctBase t.toTransactionPrefix).write t.rctSignatures.toRctSigBase = (base, true) ∧
      (signaturesOf false t.toTransactionPrefix).write t.signatures = (sigs, true) ∧
      (rctPrunable false t.toTransactionPrefix t.rctSignatures.type).write t.rctSignatures.p =
        (prunable, true) ∧
      serializeBase.write t = (pre ++ base, true) ∧
      blob = pre ++ base ++ (sigs ++ prunable) := by
  obtain ⟨u, r, hu, hr, rfl⟩ := Written.andThen_ok.mp h
  have hbase : serializeBase.write t = (u, true) := hu
  obtain ⟨pre, base, hpre, hb, rfl⟩ := Written.andThen_ok.mp hu
  obtain ⟨sigs, prunable, hs, hq, rfl⟩ := Written.andThen_ok.mp hr
  exact ⟨pre, base, sigs, prunable, hpre, hb, hs, hq, hbase, rfl⟩

/-- The sizes that writing records. -/
theorem recordSizes_of_write {pre base : Bytes}
    (hp : transactionPrefix.write t.toTransactionPrefix = (pre, true))
    (hb : serializeBase.write t = (base, true)) :
    t.recordSizes.prefixSize = ofNat pre.length ∧
      (t.version = 1 ∨ t.vin.isEmpty = false →
        t.recordSizes.unprunableSize = ofNat base.length) := by
  unfold Transaction.recordSizes
  rw [hp, hb]
  refine ⟨rfl, fun h => ?_⟩
  rcases h with h | h <;> simp [h]

theorem serializeBase_norm {base : Bytes}
    (h : serializeBase.write t = (base, true)) : serializeBase.norm t = t.wireBase := by
  obtain ⟨_, _, -, hb, -⟩ := Written.andThen_ok.mp h
  have hb' := rctBase_norm hb
  have hp := transactionPrefix_exact t.toTransactionPrefix
  simp only [serializeBase, unprunable, map, dep, sized, hp, hb',
    Transaction.wireBase]

theorem transaction_norm
    (h : (transaction false).write t = (blob, true)) : (transaction false).norm t = t.wire := by
  obtain ⟨pre, base, sigs, prunable, hpre, hb, hs, hq, hbase, -⟩ := transaction_write_ok h
  have hp := transactionPrefix_exact t.toTransactionPrefix
  have hb' := rctBase_norm hb
  have hs' := signaturesOf_norm hs
  have hq' := rctPrunable_norm hq
  have hu : unprunable.write ((t.toTransactionPrefix, 0), t.rctSignatures.toRctSigBase) =
      (pre ++ base, true) := hbase
  have hn : unprunable.norm ((t.toTransactionPrefix, 0), t.rctSignatures.toRctSigBase) =
      ((t.toTransactionPrefix, pre.length), t.wireRct) := by
    simp only [unprunable, dep, sized, hp, hpre, hb']
  obtain ⟨hps, hus⟩ := recordSizes_of_write hpre hbase
  have hsize : (if t.version ≠ 1 ∧ t.vin.isEmpty then 0 else ofNat (pre ++ base).length) =
      if t.version ≠ 1 ∧ t.vin.isEmpty then 0 else t.recordSizes.unprunableSize := by
    split
    · rfl
    rename_i hne
    rw [hus]
    by_cases h1 : t.version = 1
    · exact Or.inl h1
    · exact Or.inr (Bool.eq_false_iff.mpr fun hv => hne ⟨h1, hv⟩)
  simp only [transaction, map, dep, sized, hu, hn, seq_norm, hs', hq',
    hsize, hps, Transaction.wire]

/-! ## The round trip -/

theorem parseBase_of_write (s : Key → Key → Option Key) {base : Bytes}
    (h : serializeBase.write t = (base, true)) :
    parseAndValidateTxBaseFromBlob s base =
      (expandTransaction1 s t.wireBase true).map Transaction.invalidateHashes := by
  have hread := serializeBase.read_write h false []
  rw [List.append_nil, serializeBase_norm h] at hread
  rw [parseAndValidateTxBaseFromBlob, hread]

/-- The base of a written transaction: it is read back as `expand_transaction_1` makes it, and it is
a prefix of the blob whose length is recorded. -/
theorem base_of_written (s : Key → Key → Option Key)
    (h : (transaction false).write t = (blob, true)) :
    ∃ base, serializeBase.write t = (base, true) ∧
      parseAndValidateTxBaseFromBlob s base =
        (expandTransaction1 s t.wireBase true).map Transaction.invalidateHashes ∧
      base <+: blob ∧
      (t.version = 1 ∨ t.vin ≠ [] →
        (txToBlob t).2.unprunableSize = ofNat base.length) := by
  obtain ⟨pre, base, sigs, prunable, hpre, -, -, -, hbase, hblob⟩ := transaction_write_ok h
  refine ⟨pre ++ base, hbase, parseBase_of_write s hbase, ?_, fun h => ?_⟩
  · rw [hblob]
    exact List.prefix_append _ _
  · refine (recordSizes_of_write hpre hbase).2 (h.imp_right fun hv => ?_)
    rwa [← Bool.not_eq_true, List.isEmpty_iff]

/-- **Round trip of a transaction**: when a transaction that is not pruned is written without
failure, parsing the blob gives what `expand_transaction_1` makes of the serialised fields, parsing
the base blob gives the same for the base part, and the base blob is a prefix of the full blob. Its
length is the recorded `unprunable_size` (an `unsigned int`) for a transaction of version 1 or with
an input. -/
theorem tx_round_trip (s : Key → Key → Option Key) {t : Transaction} {blob : Bytes}
    (hp : t.pruned = false) (hw : (txToBlob t).1 = (blob, true)) :
    parseAndValidateTxFromBlob s blob =
        (expandTransaction1 s t.wire false).map (fun t' =>
          { t'.invalidateHashes with blobSize := some blob.length }) ∧
      ∃ base, serializeBase.write t = (base, true) ∧
        parseAndValidateTxBaseFromBlob s base =
          (expandTransaction1 s t.wireBase true).map Transaction.invalidateHashes ∧
        base <+: blob ∧
        (t.version = 1 ∨ t.vin ≠ [] →
          (txToBlob t).2.unprunableSize = ofNat base.length) := by
  have hw' : (transaction false).write t = (blob, true) := by
    rw [← hp]
    exact hw
  refine ⟨?_, base_of_written s hw'⟩
  have hread := (transaction false).read_write hw' false []
  rw [List.append_nil, transaction_norm hw'] at hread
  rw [parseAndValidateTxFromBlob, hread]

/-- A transaction with rings of two members and one bulletproof+. -/
def sampleRct (fee : UInt64) (images : List KeyImage) (outputs rounds : Nat) : Transaction where
  version := 2
  vin := images.map fun k => .key ⟨0, [1, 2], k⟩
  vout := List.replicate outputs ⟨0, .taggedKey (Blob.fill 3) (Blob.fill 0)⟩
  rctSignatures :=
    { type := .bulletproofPlus
      txnFee := fee
      ecdhInfo := List.replicate outputs ⟨Blob.fill 0, Blob.fill 0⟩
      outPk := List.replicate outputs ⟨Blob.fill 3, Blob.fill 4⟩
      p :=
        { bulletproofsPlus :=
            [{ V := List.replicate outputs (Blob.fill 4), A := Blob.fill 5, A1 := Blob.fill 5
               B := Blob.fill 5, r1 := Blob.fill 6, s1 := Blob.fill 6, d1 := Blob.fill 6
               L := List.replicate rounds (Blob.fill 7), R := List.replicate rounds (Blob.fill 8) }]
          CLSAGs := images.map fun _ =>
            ⟨List.replicate 2 (Blob.fill 9), Blob.fill 10, Blob.fill 0, Blob.fill 11⟩
          pseudoOuts := images.map fun _ => Blob.fill 12 } }

/-- One with one input and one output. -/
def sampleRctTx (fee : UInt64) : Transaction := sampleRct fee [Blob.fill 2] 1 6

/-- Its blob and base blob. -/
theorem tx_round_trip_rct :
    ∃ blob base, (txToBlob (sampleRctTx 5)).1 = (blob, true) ∧
      parseAndValidateTxFromBlob (fun _ k => some k) blob =
        (expandTransaction1 (fun _ k => some k) (sampleRctTx 5).wire false).map (fun t' =>
          { t'.invalidateHashes with blobSize := some blob.length }) ∧
      (expandTransaction1 (fun _ k => some k) (sampleRctTx 5).wire false).isSome = true ∧
      serializeBase.write (sampleRctTx 5) = (base, true) ∧ base <+: blob ∧
      (txToBlob (sampleRctTx 5)).2.unprunableSize = ofNat base.length := by
  have hw : (txToBlob (sampleRctTx 5)).1 = ((txToBlob (sampleRctTx 5)).1.1, true) :=
    Prod.ext rfl (by decide +kernel)
  obtain ⟨hparse, base, hbase, -, hpre, hsize⟩ :=
    tx_round_trip (fun _ k => some k) (t := sampleRctTx 5) rfl hw
  exact ⟨_, base, hw, hparse, by decide +kernel, hbase, hpre,
    hsize (Or.inr (List.cons_ne_nil _ _))⟩

/-- A version 2 transaction without inputs. -/
def noInputTx : Transaction := { version := 2 }

/-- A version 1 miner transaction, as `set_null` leaves its signatures. -/
def noSignatureTx : Transaction := { version := 1, vin := [.gen 5] }

/-- A version 2 transaction with a CLSAG, no output and no range proof. -/
def noProofTx : Transaction :=
  { version := 2
    vin := [.key ⟨0, [1], Blob.fill 3⟩]
    rctSignatures :=
      { type := .clsag
        p := { CLSAGs := [⟨[Blob.fill 1], Blob.fill 2, Blob.fill 0, Blob.fill 4⟩]
               pseudoOuts := [Blob.fill 5] } } }

/-- **What the round trip does not do.** A version 2 transaction without inputs is written without
its `unprunable_size` being recorded: the base blob has five bytes and the size stays 0. A version
1 miner transaction without signature vectors comes back with an empty one for its input. A
transaction that is written without failure can be rejected by the parser. -/
theorem tx_round_trip_limits :
    ((txToBlob noInputTx).1.2 = true ∧ (serializeBase.write noInputTx).1.length = 5 ∧
      (txToBlob noInputTx).2.unprunableSize = 0) ∧
    ((txToBlob noSignatureTx).1.2 = true ∧
      (parseAndValidateTxFromBlob (fun _ k => some k) (txToBlob noSignatureTx).1.1).map
        Transaction.signatures = some [[]] ∧ noSignatureTx.signatures = []) ∧
    ((txToBlob noProofTx).1.2 = true ∧
      parseAndValidateTxFromBlob (fun _ k => some k) (txToBlob noProofTx).1.1 = none) := by
  decide +kernel

end Hashmonkey.Basic
