import Hashmonkey.Serialization.BinaryArchive

/-!
# RingCT signatures and their format (`ringct/rctTypes.h`, `rctTypes.cpp`)

The data of a RingCT signature as the source has it, and the two hand-written serialisers of it:

* `rctsigBase`: `rctSigBase::serialize_rctsig_base`;
* `rctsigPrunable`: `rctSigPrunable::serialize_rctsig_prunable`.

Neither writes the length of a vector that the rest of the transaction determines: the reader
resizes (`PREPARE_CUSTOM_VECTOR_SERIALIZATION`) and the writer refuses another length
(`vector`). Fields that are not on the wire (`message`, `mixRing`, `outPk[i].dest`, `II`,
`I`, `V`, the mask and the upper bytes of a truncated amount) come back as a fresh object has
them (`skip`, or a `build` that fills in the default).

The enumeration of signature types is an inductive type, so that an object with a type byte
outside of it does not exist in the model; the reader rejects such a byte.
-/

namespace Hashmonkey.Ringct

open Lib Serialization
open Codec hiding container

/-! ## Data -/

/-- `rct::key`. -/
abbrev Key := Blob 32

/-- `rct::ctkey`. -/
structure CtKey where
  dest : Key
  mask : Key
  deriving DecidableEq

/-- `rct::ecdhTuple`. -/
structure EcdhTuple where
  mask : Key
  amount : Key
  deriving DecidableEq

/-- `rct::mgSig`. -/
structure MgSig where
  ss : List (List Key)
  cc : Key
  II : List Key
  deriving DecidableEq

/-- `rct::clsag`. -/
structure Clsag where
  s : List Key
  c1 : Key
  I : Key
  D : Key
  deriving DecidableEq

/-- `rct::rangeSig`: a `boroSig` (two `key64` and a key) and a `key64`. -/
structure RangeSig where
  asig : Blob 4128
  Ci : Blob 2048
  deriving DecidableEq

/-- `rct::Bulletproof`. -/
structure Bulletproof where
  V : List Key
  A : Key
  S : Key
  T1 : Key
  T2 : Key
  taux : Key
  mu : Key
  L : List Key
  R : List Key
  a : Key
  b : Key
  t : Key
  deriving DecidableEq

/-- `rct::BulletproofPlus`. -/
structure BulletproofPlus where
  V : List Key
  A : Key
  A1 : Key
  B : Key
  r1 : Key
  s1 : Key
  d1 : Key
  L : List Key
  R : List Key
  deriving DecidableEq

/-- The `RCTType` enumeration. -/
inductive RctType
  | null
  | full
  | simple
  | bulletproof
  | bulletproof2
  | clsag
  | bulletproofPlus
  deriving DecidableEq, Repr

/-- `rct::rctSigBase`. -/
structure RctSigBase where
  type : RctType := .null
  message : Key := Blob.fill 0
  mixRing : List (List CtKey) := []
  pseudoOuts : List Key := []
  ecdhInfo : List EcdhTuple := []
  outPk : List CtKey := []
  txnFee : UInt64 := 0
  deriving DecidableEq

/-- `rct::rctSigPrunable`. -/
structure RctSigPrunable where
  rangeSigs : List RangeSig := []
  bulletproofs : List Bulletproof := []
  bulletproofsPlus : List BulletproofPlus := []
  MGs : List MgSig := []
  CLSAGs : List Clsag := []
  pseudoOuts : List Key := []
  deriving DecidableEq

/-- `rct::rctSig`. -/
structure RctSig extends RctSigBase where
  p : RctSigPrunable := {}
  deriving DecidableEq

/-! ## Types -/

namespace RctType

/-- The value of an enumerator. -/
def toByte : RctType → UInt8
  | null => 0
  | full => 1
  | simple => 2
  | bulletproof => 3
  | bulletproof2 => 4
  | clsag => 5
  | bulletproofPlus => 6

/-- The enumerator of a byte up to 6. -/
def ofByte (b : UInt8) : RctType :=
  if b = 0 then null
  else if b = 1 then full
  else if b = 2 then simple
  else if b = 3 then bulletproof
  else if b = 4 then bulletproof2
  else if b = 5 then clsag
  else bulletproofPlus

theorem ofByte_toByte (t : RctType) : ofByte t.toByte = t := by cases t <;> rfl

theorem toByte_ofByte : ∀ b : UInt8, b ≤ 6 → (ofByte b).toByte = b :=
  forall_byte (p := fun b => b ≤ 6 → (ofByte b).toByte = b) (by decide +kernel)

/-- `is_rct_bulletproof`. -/
def isBulletproof : RctType → Bool
  | bulletproof | bulletproof2 | clsag => true
  | _ => false

/-- `is_rct_bulletproof_plus`. -/
def isBulletproofPlus : RctType → Bool
  | bulletproofPlus => true
  | _ => false

/-- `is_rct_borromean`. -/
def isBorromean : RctType → Bool
  | simple | full => true
  | _ => false

/-- `is_rct_clsag`. -/
def isClsag : RctType → Bool
  | clsag | bulletproofPlus => true
  | _ => false

/-- The types that write eight bytes of each encrypted amount and no mask. -/
def truncatesAmount : RctType → Bool
  | bulletproof2 | clsag | bulletproofPlus => true
  | _ => false

/-- The types with one MLSAG an input. -/
def mgPerInput : RctType → Bool
  | simple | bulletproof | bulletproof2 => true
  | _ => false

end RctType

/-- `FIELD(type)` and the check that the type is known. -/
def rctType : Codec UInt8 RctType :=
  (uint8.check (fun b => decide (b ≤ 6)) fun b h => by rwa [uint8_exact b]).map RctType.ofByte
    (fun t => some t.toByte) fun b bs h => by
      have hb : b ≤ 6 := by
        by_contra hc
        simp [check, hc] at h
      exact ⟨b, by rw [RctType.toByte_ofByte b hb], h⟩

theorem rctType_exact : rctType.Exact :=
  Codec.Exact.map (Codec.Exact.check uint8_exact) fun t => ⟨t.toByte, rfl, t.ofByte_toByte⟩

/-! ## The base part -/

/-- A 32-byte key. -/
def key : Codec UInt8 Key := blob 32

/-- A key vector behind its length. -/
def keyV : Codec UInt8 (List Key) := container key hash_nonempty

/-- The key that holds eight bytes and zeros. -/
def padAmount (h : Blob 8) : Key := ⟨h.1 ++ List.replicate 24 0, h.length_pad⟩

/-- The first eight bytes of a key. -/
def truncAmount (k : Key) : Blob 8 := ⟨k.1.take 8, by simp [k.2]⟩

theorem truncAmount_padAmount (h : Blob 8) : truncAmount (padAmount h) = h :=
  Subtype.ext (List.take_left' h.2)

/-- An entry of `ecdhInfo`. -/
def ecdhTuple (type : RctType) : Codec UInt8 EcdhTuple :=
  if type.truncatesAmount then
    (blob 8).map (fun h => ⟨Blob.fill 0, padAmount h⟩) (fun e => some (truncAmount e.amount))
      fun h _ hw => ⟨h, by rw [truncAmount_padAmount], hw⟩
  else
    (key.seq key).map (fun (mask, amount) => ⟨mask, amount⟩) (fun e => some (e.mask, e.amount))
      fun a _ hw => ⟨a, rfl, hw⟩

/-- An entry of `outPk`: only its `mask` is written. -/
def outPkMask : Codec UInt8 CtKey :=
  key.map (fun mask => ⟨Blob.fill 0, mask⟩) (fun k => some k.mask) fun k _ hw => ⟨k, rfl, hw⟩

/-- What follows the type in the base part: `txnFee`, `pseudoOuts`, `ecdhInfo` and `outPk`. -/
def rctsigBaseBody (type : RctType) (inputs outputs : Nat) :
    Codec UInt8 (UInt64 × List Key × List EcdhTuple × List CtKey) :=
  if type = .null then skip (0, [], [], [])
  else
    varint64.seq <|
      (if type = .simple then vector inputs key else skip []).seq <|
        (vector outputs (ecdhTuple type)).seq (vector outputs outPkMask)

/-- `serialize_rctsig_base`. -/
def rctsigBase (inputs outputs : Nat) : Codec UInt8 RctSigBase :=
  (rctType.dep (fun type => rctsigBaseBody type inputs outputs) fun t => by
      rw [rctType_exact t]).map
    (fun (type, txnFee, pseudoOuts, ecdhInfo, outPk) =>
      { type, txnFee, pseudoOuts, ecdhInfo, outPk })
    (fun r => some (r.type, r.txnFee, r.pseudoOuts, r.ecdhInfo, r.outPk))
    fun a _ hw => ⟨a, rfl, hw⟩

/-! ## Bulletproofs -/

/-- The fields of a bulletproof; the commitments `V` are restored from `outPk`. -/
def bulletproof : Codec UInt8 Bulletproof :=
  ((key.seq <| key.seq <| key.seq <| key.seq <| key.seq <| key.seq <| keyV.seq <| keyV.seq <|
      key.seq <| key.seq key).map
    (fun (A, S, T1, T2, taux, mu, L, R, a, b, t) => ⟨[], A, S, T1, T2, taux, mu, L, R, a, b, t⟩)
    (fun p => some (p.A, p.S, p.T1, p.T2, p.taux, p.mu, p.L, p.R, p.a, p.b, p.t))
    fun a _ hw => ⟨a, rfl, hw⟩).check
  (fun p => !(p.L.isEmpty || p.L.length != p.R.length)) fun p h => by
    simpa [map, seq, dep, keyV, container, Codec.container] using h

/-- The fields of a bulletproof+. -/
def bulletproofPlus : Codec UInt8 BulletproofPlus :=
  ((key.seq <| key.seq <| key.seq <| key.seq <| key.seq <| key.seq <| keyV.seq keyV).map
    (fun (A, A1, B, r1, s1, d1, L, R) => ⟨[], A, A1, B, r1, s1, d1, L, R⟩)
    (fun p => some (p.A, p.A1, p.B, p.r1, p.s1, p.d1, p.L, p.R))
    fun a _ hw => ⟨a, rfl, hw⟩).check
  (fun p => !(p.L.isEmpty || p.L.length != p.R.length)) fun p h => by
    simpa [map, seq, dep, keyV, container, Codec.container] using h

/-- `BULLETPROOF_MAX_OUTPUTS` and `BULLETPROOF_PLUS_MAX_OUTPUTS`. -/
def bulletproofMaxOutputs : Nat := 16

/-- `n_bulletproof_max_amounts_base`; 0 is its error value. -/
def nBulletproofMaxAmountsBase (L_size R_size max_outputs : Nat) : Nat :=
  if L_size < 6 then 0
  else if L_size ≠ R_size then 0
  else if 1 <<< 4 ≠ max_outputs then 0
  else if 6 + 4 < L_size then 0
  else 1 <<< (L_size - 6)

/-- `n_bulletproof_max_amounts` of one proof. -/
def Bulletproof.maxAmounts (p : Bulletproof) : Nat :=
  nBulletproofMaxAmountsBase p.L.length p.R.length bulletproofMaxOutputs

/-- `n_bulletproof_plus_max_amounts` of one proof. -/
def BulletproofPlus.maxAmounts (p : BulletproofPlus) : Nat :=
  nBulletproofMaxAmountsBase p.L.length p.R.length bulletproofMaxOutputs

/-- The loop of `n_bulletproof_max_amounts` and of `n_bulletproof_plus_max_amounts` over a vector
of proofs, with the sum `n` so far. -/
def maxAmountsLoop {α : Type} (maxAmounts : α → Nat) : Nat → List α → Nat
  | n, [] => n
  | n, p :: ps =>
    if ¬ maxAmounts p < 0xffffffff - n then 0
    else if maxAmounts p = 0 then 0
    else maxAmountsLoop maxAmounts (n + maxAmounts p) ps

variable {α : Type} {maxAmounts : α → Nat}

theorem maxAmountsLoop_map {g : α → α} (h : ∀ p, maxAmounts (g p) = maxAmounts p) :
    ∀ (n : Nat) (l : List α), maxAmountsLoop maxAmounts n (l.map g) = maxAmountsLoop maxAmounts n l
  | _, [] => rfl
  | n, p :: ps => by
    rw [List.map_cons, maxAmountsLoop, maxAmountsLoop, h, maxAmountsLoop_map h]

/-- A sum that is not the error value bounds the number of proofs. -/
theorem length_le_of_maxAmountsLoop :
    ∀ {n : Nat} {l : List α}, n ≤ 0xffffffff → maxAmountsLoop maxAmounts n l ≠ 0 →
    n + l.length ≤ 0xffffffff
  | _, [], hn, _ => hn
  | n, p :: ps, hn, h => by
    rw [maxAmountsLoop] at h
    split at h
    · exact absurd rfl h
    split at h
    · exact absurd rfl h
    have ih := length_le_of_maxAmountsLoop (n := n + maxAmounts p) (l := ps) (by omega) h
    rw [List.length_cons]
    omega

/-- A proof vector: its count as a `uint32_t`, at most one proof an output, the proofs, and the
check that they cover the outputs. A vector of `2^32` or more proofs would have its count cut. -/
def proofs {α : Type} (count : Codec UInt8 UInt32) (hcount : count.Exact) (proof : Codec UInt8 α)
    (maxAmounts : α → Nat) (hm : ∀ p, maxAmounts (proof.norm p) = maxAmounts p) (outputs : Nat) :
    Codec UInt8 (List α) :=
  (((count.check (fun nbp => decide (nbp.toNat ≤ outputs)) fun n h => by rwa [hcount n]).dep
      (fun nbp => vector nbp.toNat proof) fun n => by
        rw [show (count.check _ _).norm n = n from hcount n]).map
    (fun (_, l) => l)
    (fun l => some (UInt32.ofNat l.length, l.take (UInt32.ofNat l.length).toNat))
    fun (n, l) bs hw => by
      obtain ⟨_, _, -, h₂, -⟩ := Written.andThen_ok.mp hw
      have hlen : l.length = n.toNat := vector_length h₂
      have hn : UInt32.ofNat l.length = n := by rw [hlen, UInt32.ofNat_toNat]
      exact ⟨(n, l), by rw [hn, ← hlen, List.take_length], hw⟩).check
  (fun l => decide (outputs ≤ maxAmountsLoop maxAmounts 0 l)) fun l h => by
    rw [decide_eq_true_eq] at h ⊢
    show outputs ≤ maxAmountsLoop maxAmounts 0
      ((vector (UInt32.ofNat l.length).toNat proof).norm
        (l.take (UInt32.ofNat l.length).toNat))
    have hle : (UInt32.ofNat l.length).toNat ≤ l.length := by
      rw [UInt32.toNat_ofNat']
      exact Nat.mod_le _ _
    rw [vector_norm (by rw [List.length_take, Nat.min_eq_left hle]), maxAmountsLoop_map hm]
    by_cases h0 : maxAmountsLoop maxAmounts 0 l = 0
    · omega
    have hlen := length_le_of_maxAmountsLoop (Nat.zero_le _) h0
    rwa [UInt32.toNat_ofNat', Nat.mod_eq_of_lt (by omega), List.take_length]

theorem maxAmountsLoop_congr : ∀ {l l' : List α},
    List.Forall₂ (fun a a' => maxAmounts a = maxAmounts a') l l' → ∀ n,
    maxAmountsLoop maxAmounts n l = maxAmountsLoop maxAmounts n l'
  | _, _, .nil, _ => rfl
  | _, _, .cons h hs, n => by
    rw [maxAmountsLoop, maxAmountsLoop, h, maxAmountsLoop_congr hs]

/-- A proof vector is written in the same way when its proofs are. -/
theorem proofs_write_congr {count : Codec UInt8 UInt32} {hcount : count.Exact}
    {proof : Codec UInt8 α}
    {hm : ∀ p, maxAmounts (proof.norm p) = maxAmounts p} {outputs : Nat} {l l' : List α}
    (h : List.Forall₂ (fun a a' => proof.write a = proof.write a' ∧ maxAmounts a = maxAmounts a')
      l l') :
    (proofs count hcount proof maxAmounts hm outputs).write l =
      (proofs count hcount proof maxAmounts hm outputs).write l' := by
  have hmax := maxAmountsLoop_congr (h.imp fun _ _ => And.right) 0
  have hv := vector_write_congr (UInt32.ofNat l'.length).toNat
    (List.forall₂_take (UInt32.ofNat l'.length).toNat (h.imp fun _ _ => And.left))
  simp only [proofs, check, map, dep, h.length_eq, hmax, hv]

theorem bulletproof_norm (p : Bulletproof) : bulletproof.norm p = { p with V := [] } := by
  simp [bulletproof, check, map, seq, dep, keyV, container,
    Codec.container, key, blob]

theorem bulletproofPlus_norm (p : BulletproofPlus) :
    bulletproofPlus.norm p = { p with V := [] } := by
  simp [bulletproofPlus, check, map, seq, dep, keyV, container,
    Codec.container, key, blob]

/-- The `bulletproofs` of a signature; the count was a plain integer at first. -/
def bulletproofs (type : RctType) (outputs : Nat) : Codec UInt8 (List Bulletproof) :=
  if type = .bulletproof then
    proofs uint32 uint32_exact bulletproof Bulletproof.maxAmounts
      (fun p => by rw [bulletproof_norm]; rfl) outputs
  else
    proofs varint32 varint32_exact bulletproof Bulletproof.maxAmounts
      (fun p => by rw [bulletproof_norm]; rfl) outputs

/-- The `bulletproofs_plus` of a signature. -/
def bulletproofsPlus (outputs : Nat) : Codec UInt8 (List BulletproofPlus) :=
  proofs varint32 varint32_exact bulletproofPlus BulletproofPlus.maxAmounts
    (fun p => by rw [bulletproofPlus_norm]; rfl) outputs

/-! ## The prunable part -/

/-- A `rangeSig`. -/
def rangeSig : Codec UInt8 RangeSig :=
  ((blob 4128).seq (blob 2048)).map (fun (asig, Ci) => ⟨asig, Ci⟩) (fun r => some (r.asig, r.Ci))
    fun a _ hw => ⟨a, rfl, hw⟩

/-- A CLSAG over a ring of `mixin + 1` members, written without lengths. -/
def clsag (mixin : Nat) : Codec UInt8 Clsag :=
  ((vector (mixin + 1) key).seq (key.seq key)).map
    (fun (s, c1, D) => ⟨s, c1, Blob.fill 0, D⟩) (fun c => some (c.s, c.c1, c.D))
    fun a _ hw => ⟨a, rfl, hw⟩

/-- An MLSAG over a ring of `mixin + 1` members, written without lengths. -/
def mgSig (type : RctType) (inputs mixin : Nat) : Codec UInt8 MgSig :=
  ((vector (mixin + 1)
      (vector ((if type.mgPerInput then 1 else inputs) + 1) key)).seq key).map
    (fun (ss, cc) => ⟨ss, cc, []⟩) (fun m => some (m.ss, m.cc)) fun a _ hw => ⟨a, rfl, hw⟩

/-- `serialize_rctsig_prunable`. -/
def rctsigPrunable (type : RctType) (inputs outputs mixin : Nat) : Codec UInt8 RctSigPrunable :=
  if 0xffffffff ≤ inputs ∨ 0xffffffff ≤ outputs ∨ 0xffffffff ≤ mixin then fail
  else if type = .null then skip {}
  else
    (seq (if type.isBulletproofPlus then bulletproofsPlus outputs else skip []) <|
      seq (if type.isBulletproof then bulletproofs type outputs else skip []) <|
      seq (if type.isBorromean then vector outputs rangeSig else skip []) <|
      seq (if type.isClsag then vector inputs (clsag mixin) else skip []) <|
      seq (if type.isClsag then skip []
        else vector (if type.mgPerInput then inputs else 1) (mgSig type inputs mixin)) <|
      if type.isBulletproof || type.isBulletproofPlus then vector inputs key
      else skip []).map
    (fun (bulletproofsPlus, bulletproofs, rangeSigs, CLSAGs, MGs, pseudoOuts) =>
      { rangeSigs, bulletproofs, bulletproofsPlus, MGs, CLSAGs, pseudoOuts })
    (fun r => some (r.bulletproofsPlus, r.bulletproofs, r.rangeSigs, r.CLSAGs, r.MGs, r.pseudoOuts))
    fun a _ hw => ⟨a, rfl, hw⟩

end Hashmonkey.Ringct
