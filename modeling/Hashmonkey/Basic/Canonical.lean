import Hashmonkey.Basic.FormatUtils

/-!
# Blobs and the objects they parse to (`cryptonote_format_utils.cpp`)

A block or a transaction that was parsed is written back as the blob it came from **exactly when
every varint that the parser read has its last byte inside the blob** (`reserialise_iff`). The
condition is on the blob: the parser with the strict `read_varint` accepts it
(`BlockVarintsComplete`, `TxVarintsComplete`).

`read_varint` takes the end of the input as the end of an integer. An integer that is cut, or
missing altogether, at the end of a blob is therefore accepted as the value read so far, and the
blob of a block without transactions is accepted without its last byte
(`truncated_blob_accepted`).

That what was read is written back exactly when the strict reader accepts is a fact about codecs
(`Lib/Codec`). Here it is carried through what the parsers do after reading: cached hashes are
dropped, and `expand_transaction_1` fills in what is not written.
-/

namespace Hashmonkey.Basic

open Lib Serialization Ringct

/-- Every varint of the block blob has its last byte inside the blob. -/
def BlockVarintsComplete (blob : Bytes) : Prop := ∃ b, (block false).read true blob = some (b, [])

/-- Every varint of the transaction blob has its last byte inside the blob. -/
def TxVarintsComplete (blob : Bytes) : Prop :=
  ∃ t, (transaction false).read true blob = some (t, [])

/-! ## Blocks -/

variable {t : Transaction}

/-- A reader leaves a transaction that is not pruned. -/
theorem transaction_read_pruned {strict : Bool} {inp rest : Bytes}
    (h : (transaction false).read strict inp = some (t, rest)) : t.pruned = false := by
  obtain ⟨_, -, rfl⟩ := Codec.map_read_iff.mp h
  rfl

variable {b : Block}

theorem block_read_pruned {strict : Bool} {inp rest : Bytes}
    (h : (block false).read strict inp = some (b, rest)) : b.minerTx.pruned = false := by
  obtain ⟨_, hx, rfl⟩ := Codec.map_read_iff.mp h
  obtain ⟨_, -, hy⟩ := Codec.dep_read_iff.mp hx
  obtain ⟨_, ht, -⟩ := Codec.dep_read_iff.mp hy
  exact transaction_read_pruned ht

variable {blob : Bytes}

theorem parseAndValidateBlockFromBlob_eq_some (h : parseAndValidateBlockFromBlob blob = some b) :
    ∃ b0, (block false).read false blob = some (b0, []) ∧
      b = { b0 with hash := none, minerTx := b0.minerTx.invalidateHashes } := by
  unfold parseAndValidateBlockFromBlob at h
  split at h
  · rename_i b0 hb
    exact ⟨b0, hb, (Option.some.inj h).symm⟩
  · simp at h

/-- A parsed block is written like the block that was read. -/
theorem blockToBlob_of_parse (h : parseAndValidateBlockFromBlob blob = some b) :
    ∃ b0, (block false).read false blob = some (b0, []) ∧
      blockToBlob b = (block false).write b0 := by
  obtain ⟨b0, hb, rfl⟩ := parseAndValidateBlockFromBlob_eq_some h
  refine ⟨b0, hb, ?_⟩
  show (block b0.minerTx.pruned).write _ = _
  rw [block_read_pruned hb]
  rfl

theorem blockToBlob_eq_iff (h : parseAndValidateBlockFromBlob blob = some b) :
    blockToBlob b = (blob, true) ↔ BlockVarintsComplete blob := by
  obtain ⟨b0, hb, hw⟩ := blockToBlob_of_parse h
  rw [hw]
  exact Codec.write_eq_iff_strict hb

/-! ## Transactions -/

variable {sm : Key → Key → Option Key}

theorem parseAndValidateTxFromBlob_eq_some (h : parseAndValidateTxFromBlob sm blob = some t) :
    ∃ t0 t1, (transaction false).read false blob = some (t0, []) ∧
      expandTransaction1 sm t0 false = some t1 ∧
      t = { t1.invalidateHashes with blobSize := some blob.length } := by
  unfold parseAndValidateTxFromBlob at h
  split at h
  · rename_i t0 ht
    obtain ⟨t1, he, rfl⟩ := Option.map_eq_some_iff.mp h
    exact ⟨t0, t1, ht, he, rfl⟩
  · simp at h

/-- A parsed transaction is written like the transaction that was read. -/
theorem txToBlob_of_parse (h : parseAndValidateTxFromBlob sm blob = some t) :
    ∃ t0, (transaction false).read false blob = some (t0, []) ∧
      (txToBlob t).1 = (transaction false).write t0 := by
  obtain ⟨t0, t1, ht, he, rfl⟩ := parseAndValidateTxFromBlob_eq_some h
  have hx := expandTransaction1_expands he
  have hp : t1.pruned = false := by
    have h0 := transaction_read_pruned ht
    obtain ⟨outPk, q, rfl, -⟩ := hx
    exact h0
  refine ⟨t0, ht, ?_⟩
  show (transaction t1.pruned).write _ = _
  rw [hp, ← hx.write false]
  rfl

theorem txToBlob_eq_iff (h : parseAndValidateTxFromBlob sm blob = some t) :
    (txToBlob t).1 = (blob, true) ↔ TxVarintsComplete blob := by
  obtain ⟨t0, ht, hw⟩ := txToBlob_of_parse h
  rw [hw]
  exact Codec.write_eq_iff_strict ht

/-! ## Accepted blobs -/

/-- **Parsed objects are written back as the blob they came from exactly when no varint of the
blob is cut**, and then no two blobs parse to the same object. -/
theorem reserialise_iff (s : Key → Key → Option Key) (blob : Bytes) :
    (∀ b, parseAndValidateBlockFromBlob blob = some b →
      ((blockToBlob b = (blob, true) ↔ BlockVarintsComplete blob) ∧
        ∀ blob', BlockVarintsComplete blob → BlockVarintsComplete blob' →
          parseAndValidateBlockFromBlob blob' = some b → blob = blob')) ∧
    (∀ t, parseAndValidateTxFromBlob s blob = some t →
      (((txToBlob t).1 = (blob, true) ↔ TxVarintsComplete blob) ∧
        ∀ blob', TxVarintsComplete blob → TxVarintsComplete blob' →
          parseAndValidateTxFromBlob s blob' = some t → blob = blob')) := by
  refine ⟨fun b hb => ⟨blockToBlob_eq_iff hb, fun blob' hc hc' hb' => ?_⟩,
    fun t ht => ⟨txToBlob_eq_iff ht, fun blob' hc hc' ht' => ?_⟩⟩
  · have h := (blockToBlob_eq_iff hb).mpr hc
    rw [(blockToBlob_eq_iff hb').mpr hc', Prod.mk.injEq] at h
    exact h.1.symm
  · have h := (txToBlob_eq_iff ht).mpr hc
    rw [(txToBlob_eq_iff ht').mpr hc', Prod.mk.injEq] at h
    exact h.1.symm

/-- The blob of a block with a version 1 miner transaction (one generation input, no output), up
to the number of its other transactions. -/
def emptyBlockBlob : Bytes :=
  [1, 1, 0] ++ List.replicate 36 0 ++ [1, 60, 1, 0xff, 0, 0, 0]

/-- The blob of a version 1 transaction without inputs and outputs, up to the size of `extra`. -/
def emptyTxBlob : Bytes := [1, 0, 0, 0]

/-- The complete blob of that block is written back. -/
theorem reserialise_iff_empty_block :
    ∃ b, parseAndValidateBlockFromBlob (emptyBlockBlob ++ [0]) = some b ∧
      blockToBlob b = (emptyBlockBlob ++ [0], true) := by
  have hc : ((block false).read true (emptyBlockBlob ++ [0])).map Prod.snd = some [] := by
    decide
  obtain ⟨⟨b, _⟩, hb, rfl⟩ := Option.map_eq_some_iff.mp hc
  have hp : (parseAndValidateBlockFromBlob (emptyBlockBlob ++ [0])).isSome := by decide
  obtain ⟨b', hb'⟩ := Option.isSome_iff_exists.mp hp
  exact ⟨b', hb', ((reserialise_iff (fun _ _ => none) _).1 b' hb').1.mpr ⟨b, hb⟩⟩

/-- **A blob is accepted without its last byte**: a block blob that ends before the number of
transactions parses to the same block as the blob with the number 0, and is written back as that
one; likewise for a transaction blob that ends before the size of `extra`. -/
theorem truncated_blob_accepted :
    (∃ b, parseAndValidateBlockFromBlob emptyBlockBlob = some b ∧
      parseAndValidateBlockFromBlob (emptyBlockBlob ++ [0]) = some b ∧
      blockToBlob b = (emptyBlockBlob ++ [0], true)) ∧
    ∃ t, parseAndValidateTxFromBlob (fun _ _ => none) emptyTxBlob = some t ∧
      (txToBlob t).1 = (emptyTxBlob ++ [0], true) := by
  refine ⟨⟨_, rfl, ?_, ?_⟩, _, rfl, ?_⟩ <;> decide

end Hashmonkey.Basic
