import Hashmonkey.Basic.Transaction

/-!
# Parsing and serialising whole objects (`cryptonote_basic/cryptonote_format_utils.cpp`)

* `expandTransaction1`: `expand_transaction_1`, which fills in what is not on the wire from the
  rest of the transaction. The curve multiplication `rct::scalarmultKey` throws on bytes that are
  no curve point; it is a parameter `scalarmultKey : Key → Key → Option Key`.
* `parseAndValidateTxFromBlob`, `parseAndValidateTxBaseFromBlob`, `parseAndValidateBlockFromBlob`:
  the parsers, on a fresh object. `serialization::serialize` wants the whole blob to be read,
  `serialize_base` does not. A parser that returns `false` or throws is `none`.
* `txToBlob`, `blockToBlob`: `t_serializable_object_to_blob`. The overload that most callers use
  returns what was written even when the serialiser fails, so the result is a `Written`; writing a
  transaction also records its sizes in the object (`recordSizes`).
-/

namespace Hashmonkey.Basic

open Lib Serialization Ringct

/-! ## Expansion -/

/-- `is_coinbase`. -/
def isCoinbase (p : TransactionPrefix) : Bool :=
  match p.vin with
  | [.gen _] => true
  | _ => false

/-- `get_output_public_key`. -/
def getOutputPublicKey (o : TxOut) : Option PublicKey :=
  match o.target with
  | .key k => some k
  | .taggedKey k _ => some k
  | _ => none

/-- The loop of `expand_transaction_1` over the outputs: each `outPk[n].dest` is the key of
`vout[n]`. -/
def expandOutPk : List TxOut → List CtKey → Option (List CtKey)
  | o :: vout, c :: outPk =>
    match getOutputPublicKey o with
    | none => none
    | some k =>
      match expandOutPk vout outPk with
      | none => none
      | some l => some ({ c with dest := k } :: l)
  | _, _ => some []

/-- `rct::INV_EIGHT`. -/
def invEight : Key :=
  ⟨[0x79, 0x2f, 0xdc, 0xe2, 0x29, 0xe5, 0x06, 0x61, 0xd0, 0xda, 0x1c, 0x7d, 0xb3, 0x9d, 0xd3, 0x07,
    0x00, 0x00, 0x00, 0x00, 0x00, 0x00, 0x00, 0x00, 0x00, 0x00, 0x00, 0x00, 0x00, 0x00, 0x00,
    0x06], rfl⟩

section Expand

variable (scalarmultKey : Key → Key → Option Key)

/-- The commitments of a range proof, from the masks of `outPk`. -/
def expandV (outPk : List CtKey) : Option (List Key) :=
  outPk.mapM fun c => scalarmultKey c.mask invEight

/-- The `bulletproofs_plus` part of `expand_transaction_1`. -/
def expandBulletproofsPlus (outputs : Nat) (outPk : List CtKey) (q : RctSigPrunable) :
    Option RctSigPrunable :=
  match q.bulletproofsPlus with
  | [p] =>
    if p.L.length < 6 then none
    else if p.maxAmounts < outputs then none
    else (expandV scalarmultKey outPk).map fun V => { q with bulletproofsPlus := [{ p with V }] }
  | _ => none

/-- The `bulletproofs` part of `expand_transaction_1`. -/
def expandBulletproofs (outputs : Nat) (outPk : List CtKey) (q : RctSigPrunable) :
    Option RctSigPrunable :=
  match q.bulletproofs with
  | [p] =>
    if p.L.length < 6 then none
    else if 1 <<< (p.L.length - 6) < outputs then none
    else (expandV scalarmultKey outPk).map fun V => { q with bulletproofs := [{ p with V }] }
  | _ => none

/-- The prunable data that `expand_transaction_1` leaves. -/
def expandPrunable (baseOnly : Bool) (type : RctType) (outputs : Nat) (outPk : List CtKey)
    (q : RctSigPrunable) : Option RctSigPrunable :=
  if baseOnly then some q
  else if type.isBulletproofPlus then expandBulletproofsPlus scalarmultKey outputs outPk q
  else if type.isBulletproof then expandBulletproofs scalarmultKey outputs outPk q
  else some q

/-- `expand_transaction_1`. -/
def expandTransaction1 (t : Transaction) (baseOnly : Bool) : Option Transaction :=
  if t.version < 2 ∨ isCoinbase t.toTransactionPrefix then some t
  else if t.rctSignatures.type = .null then some t
  else if t.rctSignatures.outPk.length ≠ t.vout.length then none
  else
    match expandOutPk t.vout t.rctSignatures.outPk with
    | none => none
    | some outPk =>
      match expandPrunable scalarmultKey baseOnly t.rctSignatures.type t.vout.length outPk
          t.rctSignatures.p with
      | none => none
      | some p => some { t with rctSignatures := { t.rctSignatures with outPk, p } }

/-! ## Parsing -/

/-- `invalidate_hashes`. -/
def Transaction.invalidateHashes (t : Transaction) : Transaction :=
  { t with hash := none, prunableHash := none, blobSize := none }

/-- `parse_and_validate_tx_from_blob`. -/
def parseAndValidateTxFromBlob (txBlob : Bytes) : Option Transaction :=
  match (transaction false).read false txBlob with
  | some (t, []) =>
    (expandTransaction1 scalarmultKey t false).map fun t =>
      { t.invalidateHashes with blobSize := some txBlob.length }
  | _ => none

/-- `parse_and_validate_tx_base_from_blob`: what follows the base part is not looked at. -/
def parseAndValidateTxBaseFromBlob (txBlob : Bytes) : Option Transaction :=
  match serializeBase.read false txBlob with
  | some (t, _) => (expandTransaction1 scalarmultKey t true).map Transaction.invalidateHashes
  | none => none

end Expand

/-- `parse_and_validate_block_from_blob`. -/
def parseAndValidateBlockFromBlob (bBlob : Bytes) : Option Block :=
  match (block false).read false bBlob with
  | some (b, []) => some { b with hash := none, minerTx := b.minerTx.invalidateHashes }
  | _ => none

/-! ## Serialising -/

/-- What `transaction::serialize` records in the object it writes. -/
def Transaction.recordSizes (t : Transaction) : Transaction :=
  let p := transactionPrefix.write t.toTransactionPrefix
  let u := serializeBase.write t
  { t with
    prefixSize := if p.2 then UInt32.ofNat p.1.length else t.prefixSize
    unprunableSize :=
      if u.2 && (t.version == 1 || !t.vin.isEmpty) then UInt32.ofNat u.1.length
      else t.unprunableSize }

/-- `tx_to_blob`: what is written, and the object afterwards. -/
def txToBlob (t : Transaction) : Written UInt8 × Transaction :=
  ((transaction t.pruned).write t, t.recordSizes)

/-- `block_to_blob`. -/
def blockToBlob (b : Block) : Written UInt8 := (block b.minerTx.pruned).write b

/-! ## What is not on the wire is not written -/

theorem expandOutPk_masks : ∀ {vout : List TxOut} {l l' : List CtKey}, l.length = vout.length →
    expandOutPk vout l = some l' → List.Forall₂ (fun a a' => a.mask = a'.mask) l l'
  | [], [], l', _, h => by
    simp only [expandOutPk, Option.some.injEq] at h
    subst h
    exact .nil
  | o :: vout, c :: l, l', hlen, h => by
    cases hk : getOutputPublicKey o with
    | none => simp [expandOutPk, hk] at h
    | some k =>
      cases hr : expandOutPk vout l with
      | none => simp [expandOutPk, hk, hr] at h
      | some r =>
        simp only [expandOutPk, hk, hr, Option.some.injEq] at h
        subst h
        exact .cons rfl (expandOutPk_masks (Nat.succ.inj hlen) hr)

theorem rctsigBase_write_outPk {b : RctSigBase} {outPk : List CtKey}
    (h : List.Forall₂ (fun a a' => a.mask = a'.mask) b.outPk outPk) (inputs outputs : Nat) :
    (rctsigBase inputs outputs).write { b with outPk } = (rctsigBase inputs outputs).write b := by
  have hv := Codec.vector_write_congr outputs (c := outPkMask)
    (h.imp fun a a' (e : a.mask = a'.mask) =>
      show key.write a.mask = key.write a'.mask by rw [e])
  show (rctType.write b.type).andThen ((rctsigBaseBody b.type inputs outputs).write
      (b.txnFee, b.pseudoOuts, b.ecdhInfo, outPk)) =
    (rctType.write b.type).andThen ((rctsigBaseBody b.type inputs outputs).write
      (b.txnFee, b.pseudoOuts, b.ecdhInfo, b.outPk))
  congr 1
  unfold rctsigBaseBody
  split
  · rfl
  show Written.andThen _ (Written.andThen _ (Written.andThen _ _)) =
    Written.andThen _ (Written.andThen _ (Written.andThen _ _))
  rw [hv]

variable {q : RctSigPrunable}

/-- Range proofs that are written alike do not change how the prunable data is written. -/
theorem rctsigPrunable_write_proofs (type : RctType) (inputs outputs mixin : Nat)
    {l : List Bulletproof} {l' : List BulletproofPlus}
    (hl : (bulletproofs type outputs).write l = (bulletproofs type outputs).write q.bulletproofs)
    (hl' : (bulletproofsPlus outputs).write l' =
      (bulletproofsPlus outputs).write q.bulletproofsPlus) :
    (rctsigPrunable type inputs outputs mixin).write
        { q with bulletproofs := l, bulletproofsPlus := l' } =
      (rctsigPrunable type inputs outputs mixin).write q := by
  unfold rctsigPrunable
  split
  · rfl
  split
  · rfl
  simp only [Codec.map, Codec.seq, Codec.dep, Codec.skip, apply_ite Codec.write, ite_apply, hl, hl']

theorem expandPrunable_write {sm : Key → Key → Option Key} {baseOnly : Bool} {type : RctType}
    {outs : Nat} {outPk : List CtKey} {q' : RctSigPrunable}
    (h : expandPrunable sm baseOnly type outs outPk q = some q') (type' : RctType)
    (inputs outputs mixin : Nat) :
    (rctsigPrunable type' inputs outputs mixin).write q' =
      (rctsigPrunable type' inputs outputs mixin).write q := by
  unfold expandPrunable at h
  split at h
  · rw [← Option.some.inj h]
  split at h
  · unfold expandBulletproofsPlus at h
    split at h
    · rename_i p hp
      split at h
      · simp at h
      split at h
      · simp at h
      obtain ⟨V, -, rfl⟩ := Option.map_eq_some_iff.mp h
      refine rctsigPrunable_write_proofs type' inputs outputs mixin rfl ?_
      rw [hp]
      exact proofs_write_congr (.cons ⟨rfl, rfl⟩ .nil)
    · simp at h
  split at h
  · unfold expandBulletproofs at h
    split at h
    · rename_i p hp
      split at h
      · simp at h
      split at h
      · simp at h
      obtain ⟨V, -, rfl⟩ := Option.map_eq_some_iff.mp h
      refine rctsigPrunable_write_proofs type' inputs outputs mixin ?_ rfl
      rw [hp]
      unfold bulletproofs
      split <;> exact proofs_write_congr (.cons ⟨rfl, rfl⟩ .nil)
    · simp at h
  · rw [← Option.some.inj h]

/-- What an expansion can change: the `dest` of `outPk` and prunable data, in a way that is not on
the wire. -/
def Expands (t t' : Transaction) : Prop :=
  ∃ outPk q, t' = { t with rctSignatures := { t.rctSignatures with outPk, p := q } } ∧
    List.Forall₂ (fun a a' => a.mask = a'.mask) t.rctSignatures.outPk outPk ∧
    ∀ type inputs outputs mixin, (rctsigPrunable type inputs outputs mixin).write q =
      (rctsigPrunable type inputs outputs mixin).write t.rctSignatures.p

theorem Expands.refl (t : Transaction) : Expands t t :=
  ⟨t.rctSignatures.outPk, t.rctSignatures.p, rfl, List.forall₂_same.mpr fun _ _ => rfl,
    fun _ _ _ _ => rfl⟩

variable {t t' : Transaction}

theorem expandTransaction1_expands {sm : Key → Key → Option Key}
    {baseOnly : Bool} (h : expandTransaction1 sm t baseOnly = some t') : Expands t t' := by
  unfold expandTransaction1 at h
  split at h
  · rw [← Option.some.inj h]
    exact Expands.refl t
  split at h
  · rw [← Option.some.inj h]
    exact Expands.refl t
  split at h
  · simp at h
  rename_i hlen
  split at h
  · simp at h
  rename_i outPk ho
  split at h
  · simp at h
  rename_i q hq
  exact ⟨outPk, q, (Option.some.inj h).symm, expandOutPk_masks (not_not.mp hlen) ho,
    expandPrunable_write hq⟩

theorem Expands.rctBase_write (h : Expands t t') (p : TransactionPrefix) :
    (rctBase p).write t'.rctSignatures.toRctSigBase =
      (rctBase p).write t.rctSignatures.toRctSigBase := by
  obtain ⟨outPk, q, rfl, hm, -⟩ := h
  unfold rctBase
  split
  · rfl
  split
  · rfl
  exact rctsigBase_write_outPk hm p.vin.length p.vout.length

theorem Expands.rctPrunable_write (h : Expands t t') (pruned : Bool)
    (p : TransactionPrefix) (type : RctType) :
    (rctPrunable pruned p type).write t'.rctSignatures.p =
      (rctPrunable pruned p type).write t.rctSignatures.p := by
  obtain ⟨outPk, q, rfl, -, hq⟩ := h
  unfold rctPrunable
  split
  · rfl
  split
  · rfl
  split
  · rfl
  exact hq type _ _ _

/-- **An expanded transaction is written in the same way.** -/
theorem Expands.write (h : Expands t t') (pruned : Bool) :
    (transaction pruned).write t' = (transaction pruned).write t := by
  have hb := h.rctBase_write t.toTransactionPrefix
  have hq := h.rctPrunable_write pruned t.toTransactionPrefix t.rctSignatures.type
  obtain ⟨outPk, q, rfl, -⟩ := h
  simp only [transaction, unprunable, Codec.map, Codec.sized, Codec.dep, Codec.seq] at hb hq ⊢
  rw [hb, hq]

end Hashmonkey.Basic
