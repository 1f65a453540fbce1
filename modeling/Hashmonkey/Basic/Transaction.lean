import Hashmonkey.Ringct.Types

/-!
# Transactions and blocks (`cryptonote_basic/cryptonote_basic.h`)

The data types and their serialisers:

* `txinV`, `txoutTargetV`: the tagged unions of inputs and output targets;
* `transactionPrefix`: `transaction_prefix`, with its check of the version;
* `serializeBase`: `transaction::serialize_base`;
* `transaction`: `transaction::serialize`, which also records `prefix_size` and
  `unprunable_size`. Its parameter is the `pruned` flag of the object it runs on, which the reader
  finds cleared in a fresh object;
* `blockHeader`, `block`.

The cached hashes and the cached blob size of an object are options (`none`: the `_valid` flag is
cleared). `version`, `height` and the other `size_t` fields have 64 bits.
-/

namespace Hashmonkey.Basic

open Lib Serialization Ringct Codec

/-! ## Data -/

/-- `crypto::public_key`. -/
abbrev PublicKey := Blob 32

/-- `crypto::key_image`. -/
abbrev KeyImage := Blob 32

/-- `crypto::signature`. -/
abbrev Signature := Blob 64

/-- `txout_to_script`. -/
structure TxoutToScript where
  keys : List PublicKey
  script : Bytes
  deriving DecidableEq

/-- `txout_target_v`. -/
inductive TxoutTargetV
  | script (s : TxoutToScript)
  | scripthash (hash : Hash)
  | key (key : PublicKey)
  | taggedKey (key : PublicKey) (viewTag : Blob 1)
  deriving DecidableEq

/-- `tx_out`. -/
structure TxOut where
  amount : UInt64
  target : TxoutTargetV
  deriving DecidableEq

/-- `txin_to_script`. -/
structure TxinToScript where
  prev : Hash
  prevout : UInt64
  sigset : Bytes
  deriving DecidableEq

/-- `txin_to_scripthash`. -/
structure TxinToScripthash where
  prev : Hash
  prevout : UInt64
  script : TxoutToScript
  sigset : Bytes
  deriving DecidableEq

/-- `txin_to_key`. -/
structure TxinToKey where
  amount : UInt64
  keyOffsets : List UInt64
  kImage : KeyImage
  deriving DecidableEq

/-- `txin_v`. -/
inductive TxinV
  | gen (height : UInt64)
  | script (i : TxinToScript)
  | scripthash (i : TxinToScripthash)
  | key (i : TxinToKey)
  deriving DecidableEq

/-- `transaction_prefix`. -/
structure TransactionPrefix where
  version : UInt64 := 1
  unlockTime : UInt64 := 0
  vin : List TxinV := []
  vout : List TxOut := []
  extra : Bytes := []
  deriving DecidableEq

/-- `transaction`. -/
structure Transaction extends TransactionPrefix where
  signatures : List (List Signature) := []
  rctSignatures : RctSig := {}
  hash : Option Hash := none
  prunableHash : Option Hash := none
  blobSize : Option Nat := none
  pruned : Bool := false
  unprunableSize : UInt32 := 0
  prefixSize : UInt32 := 0
  deriving DecidableEq

/-- `block_header`. -/
structure BlockHeader where
  majorVersion : UInt8
  minorVersion : UInt8
  timestamp : UInt64
  prevId : Hash
  nonce : UInt32
  deriving DecidableEq

/-- `block`. -/
structure Block extends BlockHeader where
  minerTx : Transaction
  txHashes : List Hash
  hash : Option Hash := none
  deriving DecidableEq

/-- `CURRENT_TRANSACTION_VERSION`. -/
def currentTransactionVersion : UInt64 := 2

/-- `CRYPTONOTE_MAX_TX_PER_BLOCK`. -/
def maxTxPerBlock : Nat := 0x10000000

/-! ## Outputs -/

/-- A `std::vector<uint8_t>`. -/
def byteV : Codec UInt8 Bytes := container uint8 uint8_nonempty

theorem byteV_exact : byteV.Exact := container_exact uint8_exact

/-- `txout_to_script`. -/
def txoutToScript : Codec UInt8 TxoutToScript :=
  ((container (blob 32) hash_nonempty).seq byteV).map
    (fun (keys, script) => ⟨keys, script⟩) (fun o => some (o.keys, o.script))
    fun a _ hw => ⟨a, rfl, hw⟩

theorem txoutToScript_exact : txoutToScript.Exact :=
  Codec.Exact.map (Codec.Exact.seq (container_exact (blob_exact 32)) byteV_exact)
    fun o => ⟨(o.keys, o.script), rfl, rfl⟩

/-- The alternatives of `txout_target_v` and their tags. -/
def txoutAlts : List (Codec.Alt UInt8 TxoutTargetV) :=
  [ { tag := 0x0, Arg := TxoutToScript, codec := txoutToScript, inj := .script
      view := fun | .script s => some s | _ => none
      view_inj := fun _ => rfl },
    { tag := 0x1, Arg := Hash, codec := blob 32, inj := .scripthash
      view := fun | .scripthash h => some h | _ => none
      view_inj := fun _ => rfl },
    { tag := 0x2, Arg := PublicKey, codec := blob 32, inj := .key
      view := fun | .key k => some k | _ => none
      view_inj := fun _ => rfl },
    { tag := 0x3, Arg := PublicKey × Blob 1, codec := (blob 32).seq (blob 1)
      inj := fun (k, t) => .taggedKey k t
      view := fun | .taggedKey k t => some (k, t) | _ => none
      view_inj := fun _ => rfl } ]

theorem txoutAlts_disjoint : txoutAlts.Pairwise Codec.Alt.Disjoint := by
  simp [txoutAlts, Codec.Alt.Disjoint]

/-- `txout_target_v`. -/
def txoutTargetV : Codec UInt8 TxoutTargetV := variant txoutAlts txoutAlts_disjoint

theorem txoutTargetV_exact : txoutTargetV.Exact := by
  refine Codec.Exact.variant ?_ ?_
  · intro a ha
    simp only [txoutAlts, List.mem_cons, List.not_mem_nil, or_false] at ha
    rcases ha with rfl | rfl | rfl | rfl
    · exact txoutToScript_exact
    · exact blob_exact 32
    · exact blob_exact 32
    · exact Codec.Exact.seq (blob_exact 32) (blob_exact 1)
  · intro a ha v x hv
    simp only [txoutAlts, List.mem_cons, List.not_mem_nil, or_false] at ha
    rcases ha with rfl | rfl | rfl | rfl <;> cases v <;> cases hv <;> rfl

/-- `tx_out`. -/
def txOut : Codec UInt8 TxOut :=
  (varint64.seq txoutTargetV).map (fun (amount, target) => ⟨amount, target⟩)
    (fun o => some (o.amount, o.target)) fun a _ hw => ⟨a, rfl, hw⟩

theorem txOut_exact : txOut.Exact :=
  Codec.Exact.map (Codec.Exact.seq varint64_exact txoutTargetV_exact)
    fun o => ⟨(o.amount, o.target), rfl, rfl⟩

theorem txOut_nonempty : txOut.Nonempty := Codec.Nonempty.map (Codec.Nonempty.dep varint64_nonempty)

/-! ## Inputs -/

/-- `txin_to_script`. -/
def txinToScript : Codec UInt8 TxinToScript :=
  ((blob 32).seq <| varint64.seq byteV).map (fun (prev, prevout, sigset) => ⟨prev, prevout, sigset⟩)
    (fun i => some (i.prev, i.prevout, i.sigset)) fun a _ hw => ⟨a, rfl, hw⟩

/-- `txin_to_scripthash`. -/
def txinToScripthash : Codec UInt8 TxinToScripthash :=
  ((blob 32).seq <| varint64.seq <| txoutToScript.seq byteV).map
    (fun (prev, prevout, script, sigset) => ⟨prev, prevout, script, sigset⟩)
    (fun i => some (i.prev, i.prevout, i.script, i.sigset)) fun a _ hw => ⟨a, rfl, hw⟩

/-- `txin_to_key`. -/
def txinToKey : Codec UInt8 TxinToKey :=
  (varint64.seq <| (container varint64 varint64_nonempty).seq (blob 32)).map
    (fun (amount, keyOffsets, kImage) => ⟨amount, keyOffsets, kImage⟩)
    (fun i => some (i.amount, i.keyOffsets, i.kImage)) fun a _ hw => ⟨a, rfl, hw⟩

theorem txinToScript_exact : txinToScript.Exact :=
  Codec.Exact.map
    (Codec.Exact.seq (blob_exact 32) (Codec.Exact.seq varint64_exact byteV_exact))
    fun i => ⟨(i.prev, i.prevout, i.sigset), rfl, rfl⟩

theorem txinToScripthash_exact : txinToScripthash.Exact :=
  Codec.Exact.map
    (Codec.Exact.seq (blob_exact 32) (Codec.Exact.seq varint64_exact
      (Codec.Exact.seq txoutToScript_exact byteV_exact)))
    fun i => ⟨(i.prev, i.prevout, i.script, i.sigset), rfl, rfl⟩

theorem txinToKey_exact : txinToKey.Exact :=
  Codec.Exact.map
    (Codec.Exact.seq varint64_exact (Codec.Exact.seq (container_exact varint64_exact)
      (blob_exact 32)))
    fun i => ⟨(i.amount, i.keyOffsets, i.kImage), rfl, rfl⟩

/-- The alternatives of `txin_v` and their tags. -/
def txinAlts : List (Codec.Alt UInt8 TxinV) :=
  [ { tag := 0xff, Arg := UInt64, codec := varint64, inj := .gen
      view := fun | .gen h => some h | _ => none
      view_inj := fun _ => rfl },
    { tag := 0x0, Arg := TxinToScript, codec := txinToScript, inj := .script
      view := fun | .script i => some i | _ => none
      view_inj := fun _ => rfl },
    { tag := 0x1, Arg := TxinToScripthash, codec := txinToScripthash, inj := .scripthash
      view := fun | .scripthash i => some i | _ => none
      view_inj := fun _ => rfl },
    { tag := 0x2, Arg := TxinToKey, codec := txinToKey, inj := .key
      view := fun | .key i => some i | _ => none
      view_inj := fun _ => rfl } ]

theorem txinAlts_disjoint : txinAlts.Pairwise Codec.Alt.Disjoint := by
  simp [txinAlts, Codec.Alt.Disjoint]

/-- `txin_v`. -/
def txinV : Codec UInt8 TxinV := variant txinAlts txinAlts_disjoint

theorem txinV_exact : txinV.Exact := by
  refine Codec.Exact.variant ?_ ?_
  · intro a ha
    simp only [txinAlts, List.mem_cons, List.not_mem_nil, or_false] at ha
    rcases ha with rfl | rfl | rfl | rfl
    · exact varint64_exact
    · exact txinToScript_exact
    · exact txinToScripthash_exact
    · exact txinToKey_exact
  · intro a ha v x hv
    simp only [txinAlts, List.mem_cons, List.not_mem_nil, or_false] at ha
    rcases ha with rfl | rfl | rfl | rfl <;> cases v <;> cases hv <;> rfl

theorem txinV_nonempty : txinV.Nonempty := variant_nonempty txinAlts_disjoint

/-! ## The prefix -/

/-- `transaction_prefix`; the version is checked before anything else is read. -/
def transactionPrefix : Codec UInt8 TransactionPrefix :=
  ((varint64.check (fun v => !(v == 0 || decide (currentTransactionVersion < v))) fun v h => by
      rwa [varint64_exact v]).seq <|
    varint64.seq <| (container txinV txinV_nonempty).seq <|
    (container txOut txOut_nonempty).seq byteV).map
  (fun (version, unlockTime, vin, vout, extra) => ⟨version, unlockTime, vin, vout, extra⟩)
  (fun p => some (p.version, p.unlockTime, p.vin, p.vout, p.extra)) fun a _ hw => ⟨a, rfl, hw⟩

theorem transactionPrefix_exact : transactionPrefix.Exact :=
  Codec.Exact.map
    (Codec.Exact.seq (Codec.Exact.check varint64_exact) (Codec.Exact.seq varint64_exact
      (Codec.Exact.seq (container_exact txinV_exact) (Codec.Exact.seq (container_exact txOut_exact)
        byteV_exact))))
    fun p => ⟨(p.version, p.unlockTime, p.vin, p.vout, p.extra), rfl, rfl⟩

/-- A written prefix holds the ring offsets of its first input behind their number. -/
theorem firstRing_of_write {p : TransactionPrefix} {bs : Bytes} {i : TxinToKey} {l : List TxinV}
    (h : transactionPrefix.write p = (bs, true)) (hv : p.vin = .key i :: l) :
    ∃ bo, (container varint64 varint64_nonempty).write i.keyOffsets = (bo, true) ∧
      bo.length ≤ bs.length := by
  obtain ⟨_, _, -, h1, rfl⟩ := seq_write_ok.mp h
  obtain ⟨_, _, -, h2, rfl⟩ := seq_write_ok.mp h1
  obtain ⟨_, _, hin, -, rfl⟩ := seq_write_ok.mp h2
  rw [hv] at hin
  obtain ⟨ba, ha, hle⟩ := head_of_container hin
  have hk0 : Written.andThen ([0x2], true) (txinToKey.write i) = (ba, true) := ha
  obtain ⟨_, _, -, hk, rfl⟩ := Written.andThen_ok.mp hk0
  obtain ⟨_, _, -, hk', rfl⟩ := seq_write_ok.mp hk
  obtain ⟨bo, _, hoff, -, rfl⟩ := seq_write_ok.mp hk'
  simp only [List.length_append] at hle ⊢
  exact ⟨bo, hoff, by omega⟩

/-! ## Signatures of version 1 -/

/-- `get_signature_size`. -/
def getSignatureSize : TxinV → Nat
  | .key i => i.keyOffsets.length
  | _ => 0

/-- The `signatures` of a version 1 transaction: for each input as many as its ring has members,
without lengths. An object without any signature vector is written like one with an empty vector
for each input. A pruned object only has the number of its vectors checked. -/
def signatures (pruned : Bool) (vin : List TxinV) : Codec UInt8 (List (List Signature)) :=
  if pruned then
    (skip ()).map (fun _ => List.replicate vin.length [])
      (fun s => if !s.isEmpty && vin.length != s.length then none else some ())
      fun _ _ hw => ⟨(), by simp, hw⟩
  else
    (each (vin.map fun i => vector (getSignatureSize i) (blob 64))).map id
      (fun s => some (if s.isEmpty then List.replicate vin.length [] else s))
      fun s bs hw => by
        have hlen : s.length = vin.length := by
          by_contra hc
          simp [each, hc] at hw
        refine ⟨s, ?_, hw⟩
        cases s with
        | nil => rw [← hlen]; rfl
        | cons a s => rfl

/-! ## The whole transaction -/

/-- The ring size less one of the first input, as `size_t`: it wraps for an empty ring. -/
def mixin (vin : List TxinV) : Nat :=
  match vin with
  | .key i :: _ => (i.keyOffsets.length + (2 ^ 64 - 1)) % 2 ^ 64
  | _ => 0

/-- The base RingCT data behind a prefix: version 1 has none, and neither does a transaction
without inputs. -/
def rctBase (p : TransactionPrefix) : Codec UInt8 RctSigBase :=
  if p.version = 1 then skip {}
  else if p.vin.isEmpty then skip {}
  else rctsigBase p.vin.length p.vout.length

/-- The prunable RingCT data behind a prefix and the base data. -/
def rctPrunable (pruned : Bool) (p : TransactionPrefix) (type : RctType) :
    Codec UInt8 RctSigPrunable :=
  if p.version = 1 then skip {}
  else if p.vin.isEmpty then skip {}
  else if pruned || type = .null then skip {}
  else rctsigPrunable type p.vin.length p.vout.length (mixin p.vin)

/-- The signatures of version 1; other versions have none. -/
def signaturesOf (pruned : Bool) (p : TransactionPrefix) : Codec UInt8 (List (List Signature)) :=
  if p.version = 1 then signatures pruned p.vin else skip []

/-- The type survives the wire. -/
theorem rctBase_norm_type (p : TransactionPrefix) (b : RctSigBase) :
    ((rctBase p).norm b).type = if p.version = 1 ∨ p.vin.isEmpty then .null else b.type := by
  unfold rctBase
  by_cases h1 : p.version = 1
  · simp [h1, skip]
  by_cases h2 : p.vin.isEmpty
  · simp [h1, h2, skip]
  rw [if_neg h1, if_neg h2, if_neg (by simp [h1, h2])]
  exact rctType_exact b.type

/-- The part that survives pruning, with the size of the prefix. -/
def unprunable : Codec UInt8 ((TransactionPrefix × Nat) × RctSigBase) :=
  transactionPrefix.sized.dep (fun p => rctBase p.1) fun p => by
    show rctBase (transactionPrefix.norm p.1) = rctBase p.1
    rw [transactionPrefix_exact]

/-- `serialize_base`, which leaves a pruned transaction. -/
def serializeBase : Codec UInt8 Transaction :=
  unprunable.map
    (fun ((p, _), b) =>
      { toTransactionPrefix := p, rctSignatures := { toRctSigBase := b }, pruned := true })
    (fun t => some ((t.toTransactionPrefix, 0), t.rctSignatures.toRctSigBase))
    fun ((p, _), b) _ hw => ⟨((p, 0), b), rfl, hw⟩

/-- The prunable data depends only on what survives the wire. -/
theorem rctPrunable_unprunable_norm (pruned : Bool) (u : (TransactionPrefix × Nat) × RctSigBase) :
    rctPrunable pruned (unprunable.norm u).1.1 (unprunable.norm u).2.type =
      rctPrunable pruned u.1.1 u.2.type := by
  have hp : (unprunable.norm u).1.1 = u.1.1 := transactionPrefix_exact u.1.1
  have ht : (unprunable.norm u).2.type = if u.1.1.version = 1 ∨ u.1.1.vin.isEmpty then .null
      else u.2.type := rctBase_norm_type u.1.1 u.2
  rw [hp, ht]
  unfold rctPrunable
  by_cases h1 : u.1.1.version = 1
  · simp only [h1, if_true]
  by_cases h2 : u.1.1.vin.isEmpty
  · simp only [h1, h2, if_true, if_false]
  · simp only [h1, h2, if_false, or_self, Bool.false_eq_true]

/-- `transaction::serialize` of an object with the given `pruned` flag. -/
def transaction (pruned : Bool) : Codec UInt8 Transaction :=
  (unprunable.sized.dep
      (fun u => (signaturesOf pruned u.1.1.1).seq (rctPrunable pruned u.1.1.1 u.1.2.type))
      fun u => by
        have hp : (unprunable.norm u.1).1.1 = u.1.1.1 := transactionPrefix_exact u.1.1.1
        show (signaturesOf pruned (unprunable.norm u.1).1.1).seq
          (rctPrunable pruned (unprunable.norm u.1).1.1 (unprunable.norm u.1).2.type) = _
        rw [rctPrunable_unprunable_norm, hp]).map
    (fun ((((p, prefixSize), b), unprunableSize), s, q) =>
      { toTransactionPrefix := p
        signatures := s
        rctSignatures := { toRctSigBase := b, p := q }
        prefixSize := UInt32.ofNat prefixSize
        -- a transaction of version 2 without inputs never gets to the line that records it
        unprunableSize := if p.version ≠ 1 ∧ p.vin.isEmpty then 0
          else UInt32.ofNat unprunableSize })
    (fun t => some ((((t.toTransactionPrefix, 0), t.rctSignatures.toRctSigBase), 0),
      t.signatures, t.rctSignatures.p))
    fun ((((p, _), b), _), s, q) _ hw => ⟨((((p, 0), b), 0), s, q), rfl, hw⟩

/-! ## Blocks -/

/-- `block_header`. -/
def blockHeader : Codec UInt8 BlockHeader :=
  (varint8.seq <| varint8.seq <| varint64.seq <| (blob 32).seq uint32).map
    (fun (majorVersion, minorVersion, timestamp, prevId, nonce) =>
      ⟨majorVersion, minorVersion, timestamp, prevId, nonce⟩)
    (fun h => some (h.majorVersion, h.minorVersion, h.timestamp, h.prevId, h.nonce))
    fun a _ hw => ⟨a, rfl, hw⟩

theorem blockHeader_exact : blockHeader.Exact :=
  Codec.Exact.map
    (Codec.Exact.seq varint8_exact (Codec.Exact.seq varint8_exact
      (Codec.Exact.seq varint64_exact (Codec.Exact.seq (blob_exact 32) uint32_exact))))
    fun h => ⟨(h.majorVersion, h.minorVersion, h.timestamp, h.prevId, h.nonce), rfl, rfl⟩

/-- `block`, for a miner transaction with the given `pruned` flag. -/
def block (pruned : Bool) : Codec UInt8 Block :=
  (blockHeader.seq <| (transaction pruned).seq <|
    (container (blob 32) hash_nonempty).check
      (fun l => decide (l.length ≤ maxTxPerBlock)) fun l h => by
        rwa [container_exact (blob_exact 32) l]).map
  (fun (h, minerTx, txHashes) => { toBlockHeader := h, minerTx, txHashes })
  (fun b => some (b.toBlockHeader, b.minerTx, b.txHashes)) fun a _ hw => ⟨a, rfl, hw⟩

end Hashmonkey.Basic
