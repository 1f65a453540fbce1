import Hashmonkey.Basic.RoundTrip
import Hashmonkey.Crypto.TreeHash

/-!
# Transaction and block hashes (`cryptonote_basic/cryptonote_format_utils.cpp`)

* `calculateTransactionHash`: `calculate_transaction_hash`. Version 1 hashes the whole blob; version
  2 hashes the prefix, the base RingCT data and the prunable RingCT data, and then the three
  hashes. The second and the third are taken from slices of the blob at the recorded sizes.
* `calculateTransactionPrunableHash`: `calculate_transaction_prunable_hash`, from a blob and the
  recorded size or by serialising the prunable data again.
* `getPrunedTransactionHash`: `get_pruned_transaction_hash`, from the base data and a prunable hash.
* `getBlockHashingBlob`: `get_block_hashing_blob`.

A function that returns `false` or throws is `none`. `tx_to_blob` returns what was written even on
failure, and so does the prefix serialiser inside `get_transaction_prefix_hash`.

Results: `pruned_hash_eq` (the paths hash the same bytes) and `block_hashing_blob_inj` (a hashing
blob determines header, number and hashes of the transactions, up to a collision).
-/

namespace Hashmonkey.Basic

open Lib Serialization Ringct Crypto List

section Hashes

variable (cnFastHash : Bytes → Hash)

/-! ## Transaction hashes -/

/-- `get_transaction_prefix_hash`. -/
def getTransactionPrefixHash (p : TransactionPrefix) : Hash :=
  cnFastHash (transactionPrefix.write p).1

/-- The prunable data of a transaction, serialised again. -/
def serializePrunable (t : Transaction) : Written UInt8 :=
  (rctsigPrunable t.rctSignatures.type t.vin.length t.vout.length (mixin t.vin)).write
    t.rctSignatures.p

/-- `calculate_transaction_prunable_hash`. -/
def calculateTransactionPrunableHash (t : Transaction) (blob : Option Bytes) : Option Hash :=
  let again :=
    if (serializePrunable t).2 then some (cnFastHash (serializePrunable t).1) else none
  if t.version = 1 then none
  else
    match blob with
    | none => again
    | some b =>
      if t.unprunableSize = 0 then again
      else if t.unprunableSize.toNat ≤ b.length then
        some (cnFastHash (b.drop t.unprunableSize.toNat))
      else none

/-- The hash of three hashes. -/
def hashOfThree (prefixHash baseHash prunableHash : Hash) : Hash :=
  cnFastHash (prefixHash.1 ++ baseHash.1 ++ prunableHash.1)

/-- `get_pruned_transaction_hash`. -/
def getPrunedTransactionHash (t : Transaction) (prunedDataHash : Hash) : Option Hash :=
  let base := (rctsigBase t.vin.length t.vout.length).write t.rctSignatures.toRctSigBase
  if t.version ≤ 1 then none
  else if base.2 then
    some (hashOfThree cnFastHash (getTransactionPrefixHash cnFastHash t.toTransactionPrefix)
      (cnFastHash base.1)
      (if t.rctSignatures.type = .null then nullHash else prunedDataHash))
  else none

/-- `calculate_transaction_hash`. -/
def calculateTransactionHash (t : Transaction) : Option Hash :=
  let blob := (txToBlob t).1.1
  let written := (txToBlob t).2
  if t.pruned then none
  else if t.version = 1 then some (cnFastHash blob)
  else if written.prefixSize ≤ written.unprunableSize ∧
      written.unprunableSize.toNat ≤ blob.length then
    let baseHash := cnFastHash ((blob.drop written.prefixSize.toNat).take
      (written.unprunableSize.toNat - written.prefixSize.toNat))
    let prunableHash :=
      if t.rctSignatures.type = .null then some nullHash
      else calculateTransactionPrunableHash cnFastHash written (some blob)
    prunableHash.map
      (hashOfThree cnFastHash (getTransactionPrefixHash cnFastHash t.toTransactionPrefix) baseHash)
  else none

/-- `get_transaction_hash`, with its cache. -/
def getTransactionHash (t : Transaction) : Option Hash :=
  match t.hash with
  | some h => some h
  | none => calculateTransactionHash cnFastHash t

/-! ## The paths hash the same bytes -/

variable {p : TransactionPrefix} {bs : Bytes}

/-- The lengths that a written prefix bounds. -/
theorem lengths_lt_of_write (h : transactionPrefix.write p = (bs, true)) :
    p.vin.length < bs.length ∧ p.vout.length < bs.length ∧
      ∀ i l, p.vin = .key i :: l → i.keyOffsets.length < bs.length := by
  obtain ⟨b1, _, -, h1, rfl⟩ := Codec.seq_write_ok.mp h
  obtain ⟨b2, _, -, h2, rfl⟩ := Codec.seq_write_ok.mp h1
  obtain ⟨b3, _, hin, h3, rfl⟩ := Codec.seq_write_ok.mp h2
  obtain ⟨b4, b5, hout, -, rfl⟩ := Codec.seq_write_ok.mp h3
  have hvin := length_lt_of_container hin
  have hvout := length_lt_of_container hout
  simp only [length_append]
  refine ⟨by omega, by omega, ?_⟩
  intro i l hv
  obtain ⟨bo, hoff, hle⟩ := firstRing_of_write h hv
  have hlt := length_lt_of_container hoff
  simp only [length_append] at hle
  omega

theorem transactionPrefix_write_ne_nil (h : transactionPrefix.write p = (bs, true)) : bs ≠ [] := by
  have := (lengths_lt_of_write h).1
  rintro rfl
  exact absurd this (Nat.not_lt_zero _)

/-- The first input of a transaction has an empty ring. -/
def emptyRing (vin : List TxinV) : Bool :=
  match vin with
  | .key i :: _ => i.keyOffsets.isEmpty
  | _ => false

theorem mixin_lt (h : transactionPrefix.write p = (bs, true)) (hs : bs.length < 2 ^ 32)
    (hr : emptyRing p.vin = false) : mixin p.vin < 0xffffffff := by
  obtain ⟨-, -, hk⟩ := lengths_lt_of_write h
  have hzero : 0 < 0xffffffff := by decide
  cases hv : p.vin with
  | nil => exact hzero
  | cons x l =>
    cases x with
    | gen _ => exact hzero
    | script _ => exact hzero
    | scripthash _ => exact hzero
    | key i =>
      have hlt := hk i l hv
      have hpos : 0 < i.keyOffsets.length := by
        rw [length_pos_iff]
        intro he
        rw [hv, emptyRing, he] at hr
        exact absurd hr (by decide)
      show (i.keyOffsets.length + (2 ^ 64 - 1)) % 2 ^ 64 < 0xffffffff
      omega

end Hashes

section Pruned

variable (cnFastHash : Bytes → Hash)

variable {t : Transaction}

/-- What a transaction of version 2 with an input writes: the prefix, the base RingCT data and the
prunable RingCT data, and serialising the prunable data again writes the same. -/
theorem v2_write_ok {blob : Bytes} (hv : t.version = 2) (hin : t.vin ≠ [])
    (hp : t.pruned = false) (hw : (txToBlob t).1 = (blob, true)) (hs : blob.length < 2 ^ 32)
    (hr : t.rctSignatures.type = .null → emptyRing t.vin = false) :
    ∃ pre base prunable,
      transactionPrefix.write t.toTransactionPrefix = (pre, true) ∧ pre ≠ [] ∧
      (rctsigBase t.vin.length t.vout.length).write t.rctSignatures.toRctSigBase = (base, true) ∧
      serializePrunable t = (prunable, true) ∧ serializeBase.write t = (pre ++ base, true) ∧
      blob = pre ++ base ++ prunable := by
  have h1 : t.version ≠ 1 := by rw [hv]; decide
  have h2 : ¬ t.vin.isEmpty = true := by rwa [List.isEmpty_iff]
  have hw' : (transaction false).write t = (blob, true) := by
    rw [← hp]
    exact hw
  obtain ⟨pre, base, sigs, prunable, hpre, hb, hsig, hq, hbase, rfl⟩ := transaction_write_ok hw'
  rw [rctBase, if_neg h1, if_neg h2] at hb
  rw [signaturesOf, if_neg h1] at hsig
  obtain rfl : sigs = [] := (congrArg Prod.fst hsig).symm
  rw [rctPrunable, if_neg h1, if_neg h2] at hq
  refine ⟨pre, base, prunable, hpre, transactionPrefix_write_ne_nil hpre, hb, ?_, hbase, rfl⟩
  by_cases hnull : t.rctSignatures.type = .null
  · rw [if_pos (by simp [hnull])] at hq
    obtain rfl : prunable = [] := (congrArg Prod.fst hq).symm
    have hlen : pre.length < 2 ^ 32 := by
      simp only [length_append] at hs
      omega
    obtain ⟨hi, ho, -⟩ := lengths_lt_of_write hpre
    have hm := mixin_lt hpre hlen (hr hnull)
    rw [serializePrunable, rctsigPrunable, if_neg (by omega), if_pos hnull]
    rfl
  · rwa [if_neg (by simp [hnull])] at hq

/-- The recorded sizes of a transaction of less than `2^32` bytes are its sizes. -/
theorem recordSizes_toNat {pre base : Bytes} (hin : t.vin ≠ [])
    (hpre : transactionPrefix.write t.toTransactionPrefix = (pre, true))
    (hbase : serializeBase.write t = (base, true)) (hle : pre.length ≤ base.length)
    (hs : base.length < 2 ^ 32) :
    t.recordSizes.prefixSize.toNat = pre.length ∧
      t.recordSizes.unprunableSize.toNat = base.length := by
  obtain ⟨h1, h2⟩ := recordSizes_of_write hpre hbase
  rw [h1, h2 (Or.inr (by rwa [← Bool.not_eq_true, List.isEmpty_iff])), UInt32.toNat_ofNat',
    UInt32.toNat_ofNat']
  exact ⟨Nat.mod_eq_of_lt (by omega), Nat.mod_eq_of_lt hs⟩

/-- The hash of a pruned transaction depends on its prefix and its written base data. -/
theorem getPrunedTransactionHash_congr {t' : Transaction}
    (hp : t'.toTransactionPrefix = t.toTransactionPrefix)
    (ht : t'.rctSignatures.type = t.rctSignatures.type)
    (hb : (rctsigBase t.vin.length t.vout.length).write t'.rctSignatures.toRctSigBase =
      (rctsigBase t.vin.length t.vout.length).write t.rctSignatures.toRctSigBase) (h : Hash) :
    getPrunedTransactionHash cnFastHash t' h = getPrunedTransactionHash cnFastHash t h := by
  unfold getPrunedTransactionHash
  rw [ht, hp, hb]

/-- The transaction that remains when the prunable data is dropped. -/
def Transaction.prune (t : Transaction) : Transaction :=
  { t with signatures := [], rctSignatures := { t.rctSignatures with p := {} }, pruned := true }

/-- A transaction that was parsed from a base blob has the hash of the one it comes from. -/
theorem getPrunedTransactionHash_of_parse {s : Key → Key → Option Key} {t' : Transaction}
    {base : Bytes} (hv : t.version = 2) (hin : t.vin ≠ [])
    (hbase : serializeBase.write t = (base, true))
    (h : parseAndValidateTxBaseFromBlob s base = some t') (ph : Hash) :
    getPrunedTransactionHash cnFastHash t' ph = getPrunedTransactionHash cnFastHash t ph := by
  have h1 : t.version ≠ 1 := by rw [hv]; decide
  have h2 : ¬ t.vin.isEmpty = true := by rwa [List.isEmpty_iff]
  rw [parseBase_of_write s hbase] at h
  obtain ⟨t1, he, rfl⟩ := Option.map_eq_some_iff.mp h
  have hx := expandTransaction1_expands he
  -- the base data that was read is the normal form of the one that was written
  obtain ⟨_, b2, -, hb, -⟩ := Written.andThen_ok.mp hbase
  have hn := Codec.write_norm hb
  have hx' : (rctBase t.toTransactionPrefix).write t1.rctSignatures.toRctSigBase =
      (rctBase t.toTransactionPrefix).write t.rctSignatures.toRctSigBase := by
    rw [hx.rctBase_write t.toTransactionPrefix]
    show (rctBase t.toTransactionPrefix).write t.wireRct = _
    rw [← rctBase_norm hb]
    exact hn.trans hb.symm
  have htype := rctBase_norm_type t.toTransactionPrefix t.rctSignatures.toRctSigBase
  rw [rctBase_norm hb, if_neg (not_or.mpr ⟨h1, h2⟩)] at htype
  rw [rctBase, if_neg h1, if_neg h2] at hx'
  have hsame : t1.toTransactionPrefix = t.toTransactionPrefix ∧
      t1.rctSignatures.type = t.rctSignatures.type := by
    obtain ⟨outPk, q, rfl, -⟩ := hx
    exact ⟨rfl, htype⟩
  exact getPrunedTransactionHash_congr cnFastHash hsame.1 hsame.2 hx' ph

/-- **The three ways to a transaction hash agree.** For a version 2 transaction with an input that
is not pruned and is written without failure to less than `2^32` bytes (and, for the null type,
whose first input has no empty ring): the prunable hash from the blob and the recorded size is the
one from serialising the prunable data again, and with it the pruned form of the transaction has
the hash of the full one. -/
theorem pruned_hash_eq {t : Transaction} {blob : Bytes} (hv : t.version = 2) (hin : t.vin ≠ [])
    (hp : t.pruned = false) (hw : (txToBlob t).1 = (blob, true)) (hs : blob.length < 2 ^ 32)
    (hr : t.rctSignatures.type = .null → emptyRing t.vin = false) :
    ∃ prunableHash txHash,
      calculateTransactionPrunableHash cnFastHash (txToBlob t).2 (some blob) = some prunableHash ∧
      calculateTransactionPrunableHash cnFastHash t none = some prunableHash ∧
      calculateTransactionHash cnFastHash t = some txHash ∧
      getPrunedTransactionHash cnFastHash t.prune prunableHash = some txHash ∧
      ∀ s base t', serializeBase.write t = (base, true) →
        parseAndValidateTxBaseFromBlob s base = some t' →
        getPrunedTransactionHash cnFastHash t' prunableHash = some txHash := by
  have h1 : t.version ≠ 1 := by rw [hv]; decide
  obtain ⟨pre, base, prunable, hpre, hne, hb, hq, hbase, rfl⟩ := v2_write_ok hv hin hp hw hs hr
  have hlen : (pre ++ base).length < 2 ^ 32 := by
    rw [length_append] at hs
    omega
  obtain ⟨hps, hus⟩ := recordSizes_toNat hin hpre hbase (by simp) hlen
  have hne0 : t.recordSizes.unprunableSize ≠ 0 := by
    intro h0
    rw [h0, length_append] at hus
    have := length_pos_iff.mpr hne
    change 0 = _ at hus
    omega
  have hfromBlob : calculateTransactionPrunableHash cnFastHash t.recordSizes
      (some (pre ++ base ++ prunable)) = some (cnFastHash prunable) := by
    have hv' : ¬ t.recordSizes.version = 1 := h1
    simp only [calculateTransactionPrunableHash, if_neg hv', if_neg hne0, hus]
    rw [if_pos (by simp), drop_left]
  have hagain : calculateTransactionPrunableHash cnFastHash t none =
      some (cnFastHash prunable) := by
    simp only [calculateTransactionPrunableHash, if_neg h1, hq, if_true]
  have hpruned : getPrunedTransactionHash cnFastHash t (cnFastHash prunable) =
      some (hashOfThree cnFastHash (cnFastHash pre) (cnFastHash base)
        (if t.rctSignatures.type = .null then nullHash else cnFastHash prunable)) := by
    have hv' : ¬ t.version ≤ 1 := by rw [hv]; decide
    simp only [getPrunedTransactionHash, if_neg hv', hb, if_true, getTransactionPrefixHash, hpre]
  have hfull : calculateTransactionHash cnFastHash t =
      some (hashOfThree cnFastHash (cnFastHash pre) (cnFastHash base)
        (if t.rctSignatures.type = .null then nullHash else cnFastHash prunable)) := by
    have hrec : (txToBlob t).2 = t.recordSizes := rfl
    have hle : t.recordSizes.prefixSize ≤ t.recordSizes.unprunableSize := by
      rw [UInt32.le_iff_toNat_le, hps, hus]
      simp
    have hslice : ((pre ++ base ++ prunable).drop pre.length).take
        ((pre ++ base).length - pre.length) = base := by
      rw [append_assoc, drop_left, length_append, Nat.add_sub_cancel_left, take_left]
    simp only [calculateTransactionHash, hp, Bool.false_eq_true, if_false, if_neg h1, hw, hrec,
      hps, hus, hslice, hfromBlob, getTransactionPrefixHash, hpre]
    rw [if_pos ⟨hle, by simp⟩]
    split <;> rfl
  refine ⟨_, _, hfromBlob, hagain, hfull, ?_, ?_⟩
  · exact (getPrunedTransactionHash_congr cnFastHash rfl rfl rfl _).trans hpruned
  · intro s base' t' hbase' hparse
    rw [getPrunedTransactionHash_of_parse cnFastHash hv hin hbase' hparse]
    exact hpruned

end Pruned

/-- A version 2 transaction with one input, a CLSAG over a ring of one and no output. -/
theorem pruned_hash_eq_clsag :
    ∃ prunableHash txHash,
      calculateTransactionPrunableHash sumHash (txToBlob noProofTx).2
        (some (txToBlob noProofTx).1.1) = some prunableHash ∧
      calculateTransactionPrunableHash sumHash noProofTx none = some prunableHash ∧
      calculateTransactionHash sumHash noProofTx = some txHash ∧
      getPrunedTransactionHash sumHash noProofTx.prune prunableHash = some txHash := by
  have hw : (txToBlob noProofTx).1 = ((txToBlob noProofTx).1.1, true) := by decide +kernel
  obtain ⟨ph, th, h1, h2, h3, h4, -⟩ := pruned_hash_eq sumHash rfl (cons_ne_nil _ _) rfl hw
    (by decide +kernel) (fun h => by cases h)
  exact ⟨ph, th, h1, h2, h3, h4⟩

/-- A version 2 transaction of the null type whose only input has an empty ring. -/
def emptyRingTx : Transaction := { version := 2, vin := [.key ⟨0, [], Blob.fill 3⟩] }

/-- **For a null type and an empty ring the two prunable hashes differ**: the blob gives the hash of
nothing, while serialising the prunable data again fails, because the ring size less one wraps. -/
theorem empty_ring_prunable_hash :
    (txToBlob emptyRingTx).1.2 = true ∧ ∀ cnFastHash : Bytes → Hash,
      calculateTransactionPrunableHash cnFastHash (txToBlob emptyRingTx).2
        (some (txToBlob emptyRingTx).1.1) = some (cnFastHash []) ∧
      calculateTransactionPrunableHash cnFastHash emptyRingTx none = none :=
  ⟨by decide, fun _ => ⟨rfl, rfl⟩⟩

section Hashes

variable (cnFastHash : Bytes → Hash)

/-! ## Block hashes -/

/-- The transaction hashes of a block, that of the miner transaction first. -/
def blockTxIds (b : Block) : Option (List Hash) :=
  (getTransactionHash cnFastHash b.minerTx).map fun h => h :: b.txHashes

/-- `get_tx_tree_hash`. -/
def getTxTreeHash (b : Block) : Option Hash :=
  (blockTxIds cnFastHash b).map (treeHash cnFastHash)

/-- `get_block_hashing_blob`. -/
def getBlockHashingBlob (b : Block) : Option Bytes :=
  (getTxTreeHash cnFastHash b).map fun root =>
    (blockHeader.write b.toBlockHeader).1 ++ root.1 ++ writeVarint (b.txHashes.length + 1)

/-! ## A hashing blob determines what it was made of -/

theorem blockHeader_write_ok (h : BlockHeader) :
    blockHeader.write h = ((blockHeader.write h).1, true) := by
  simp only [blockHeader, Codec.map, Codec.seq, Codec.dep, varint8_write, varint64_write, blob,
    uint32_write, Written.andThen, if_true]

theorem writeVarint_inj {v v' : Nat} (h : writeVarint v = writeVarint v') : v = v' := by
  have hlt : v + v' + 1 < 2 ^ (v + v' + 1) := Nat.lt_two_pow_self
  have hv : v < 2 ^ (v + v' + 1) := by omega
  have hv' : v' < 2 ^ (v + v' + 1) := by omega
  have e := readVarint_writeVarint hv true []
  rw [h, readVarint_writeVarint hv' true [], Except.ok.injEq, Prod.mk.injEq] at e
  exact e.1.symm

/-- **A block hashing blob determines the block header, the number of transactions and, unless the
two `tree_hash` computations exhibit a collision of `cn_fast_hash`, the transaction hashes.** -/
theorem block_hashing_blob_inj {b b' : Block} {blob : Bytes}
    (h : getBlockHashingBlob cnFastHash b = some blob)
    (h' : getBlockHashingBlob cnFastHash b' = some blob) :
    b.toBlockHeader = b'.toBlockHeader ∧ b.txHashes.length = b'.txHashes.length ∧
      ∃ ids ids', blockTxIds cnFastHash b = some ids ∧ blockTxIds cnFastHash b' = some ids' ∧
        (ids = ids' ∨ TreeCollision cnFastHash ids ids') := by
  obtain ⟨root, hr, rfl⟩ := Option.map_eq_some_iff.mp h
  obtain ⟨root', hr', e⟩ := Option.map_eq_some_iff.mp h'
  obtain ⟨ids, hi, rfl⟩ := Option.map_eq_some_iff.mp hr
  obtain ⟨ids', hi', rfl⟩ := Option.map_eq_some_iff.mp hr'
  -- the header, then 32 bytes, then the count
  rw [append_assoc, append_assoc] at e
  obtain ⟨hh, e⟩ := Codec.write_append_inj (blockHeader_write_ok b'.toBlockHeader)
    (blockHeader_write_ok b.toBlockHeader) e
  rw [blockHeader_exact, blockHeader_exact] at hh
  obtain ⟨eroot, ecount⟩ := append_inj e
    ((treeHash cnFastHash ids').2.trans (treeHash cnFastHash ids).2.symm)
  have hcount := writeVarint_inj ecount
  refine ⟨hh.symm, by omega, ids, ids', hi, hi', ?_⟩
  obtain ⟨m, -, rfl⟩ := Option.map_eq_some_iff.mp hi
  obtain ⟨m', -, rfl⟩ := Option.map_eq_some_iff.mp hi'
  exact tree_hash_inj cnFastHash (cons_ne_nil _ _)
    (by rw [length_cons, length_cons]; omega) (Subtype.ext eroot.symm)

end Hashes

/-- A version 2 miner transaction at height 5. -/
def sampleMinerTx : Transaction :=
  { version := 2, unlockTime := 65, vin := [.gen 5],
    vout := [⟨600, .taggedKey (Blob.fill 7) (Blob.fill 1)⟩] }

/-- A block with the sample miner transaction and two others. -/
def sampleBlock : Block :=
  { majorVersion := 16, minorVersion := 16, timestamp := 1000, prevId := Blob.fill 9, nonce := 7
    minerTx := sampleMinerTx, txHashes := [Blob.fill 1, Blob.fill 2] }

/-- The same block after the hash of its miner transaction was cached. -/
def sampleBlockCached : Block :=
  { sampleBlock with
    minerTx := { sampleMinerTx with hash := calculateTransactionHash sumHash sampleMinerTx } }

/-- The hashing blobs of a block with and without a cached hash. -/
theorem block_hashing_blob_inj_cached :
    sampleBlock.toBlockHeader = sampleBlockCached.toBlockHeader ∧
      sampleBlock.txHashes.length = sampleBlockCached.txHashes.length ∧
      ∃ ids ids', blockTxIds sumHash sampleBlock = some ids ∧
        blockTxIds sumHash sampleBlockCached = some ids' ∧
        (ids = ids' ∨ TreeCollision sumHash ids ids') := by
  have h : (getBlockHashingBlob sumHash sampleBlock).isSome := by decide
  have h' : getBlockHashingBlob sumHash sampleBlockCached =
      getBlockHashingBlob sumHash sampleBlock := by decide +kernel
  obtain ⟨blob, hb⟩ := Option.isSome_iff_exists.mp h
  exact block_hashing_blob_inj sumHash hb (h'.trans hb)

end Hashmonkey.Basic
