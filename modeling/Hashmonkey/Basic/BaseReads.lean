import Hashmonkey.Basic.Canonical

/-!
# The base of a transaction, read on its own (`cryptonote_format_utils.cpp`)

The database keeps the first `unprunable_size` bytes of a transaction apart from the rest, and
reads them with `parse_and_validate_tx_base_from_blob`. That size is recorded when the whole
transaction is read. A varint may be cut only by the end of the input (`Codec.LenientAtEnd`), so
those bytes are read in the same way whether the rest follows or not.

Result: **`parseBase_of_parse`**. From the recorded part of a blob that was parsed, the reader of
the base gets a transaction with the same prefix.
-/

namespace Hashmonkey.Basic

open Lib Serialization Ringct

/-! ## Readers that are lenient at the end only -/

theorem varintNat_lenientAtEnd (bits : Nat) (hb : 0 < bits) : (varintNat bits hb).LenientAtEnd := by
  intro inp v rest h hr
  simp only [varintNat, readVarint] at h ⊢
  cases hl : readVarintLoop false bits 0 0 inp with
  | error e => simp [hl, Except.toOption] at h
  | ok q =>
    simp only [hl, Except.toOption, Option.some.injEq] at h
    subst h
    rw [readVarintLoop_strict hl hr]
    rfl

theorem varint64_lenientAtEnd : varint64.LenientAtEnd :=
  Codec.LenientAtEnd.map (varintNat_lenientAtEnd 64 _)

theorem uint8_lenientAtEnd : uint8.LenientAtEnd := fun _ _ _ h _ => h

theorem blob_lenientAtEnd (n : Nat) : (blob n).LenientAtEnd := fun _ _ _ h _ => h

theorem container_lenientAtEnd {α : Type} {c : Codec UInt8 α} {hc : c.Nonempty}
    (h : c.LenientAtEnd) : (container c hc).LenientAtEnd :=
  Codec.LenientAtEnd.container (varintNat_lenientAtEnd 64 _) h

theorem byteV_lenientAtEnd : byteV.LenientAtEnd := container_lenientAtEnd uint8_lenientAtEnd

theorem txoutToScript_lenientAtEnd : txoutToScript.LenientAtEnd :=
  .map (.seq (container_lenientAtEnd (blob_lenientAtEnd 32)) byteV_lenientAtEnd)

theorem txOut_lenientAtEnd : txOut.LenientAtEnd := by
  refine .map (.seq varint64_lenientAtEnd (.variant ?_))
  intro a ha
  simp only [txoutAlts, List.mem_cons, List.not_mem_nil, or_false] at ha
  rcases ha with rfl | rfl | rfl | rfl
  · exact txoutToScript_lenientAtEnd
  · exact blob_lenientAtEnd 32
  · exact blob_lenientAtEnd 32
  · exact .seq (blob_lenientAtEnd 32) (blob_lenientAtEnd 1)

theorem txinToScript_lenientAtEnd : txinToScript.LenientAtEnd :=
  .map (.seq (blob_lenientAtEnd 32) (.seq varint64_lenientAtEnd byteV_lenientAtEnd))

theorem txinToScripthash_lenientAtEnd : txinToScripthash.LenientAtEnd :=
  .map (.seq (blob_lenientAtEnd 32) (.seq varint64_lenientAtEnd
    (.seq txoutToScript_lenientAtEnd byteV_lenientAtEnd)))

theorem txinToKey_lenientAtEnd : txinToKey.LenientAtEnd :=
  .map (.seq varint64_lenientAtEnd
    (.seq (container_lenientAtEnd varint64_lenientAtEnd) (blob_lenientAtEnd 32)))

theorem txinV_lenientAtEnd : txinV.LenientAtEnd := by
  refine .variant ?_
  intro a ha
  simp only [txinAlts, List.mem_cons, List.not_mem_nil, or_false] at ha
  rcases ha with rfl | rfl | rfl | rfl
  · exact varint64_lenientAtEnd
  · exact txinToScript_lenientAtEnd
  · exact txinToScripthash_lenientAtEnd
  · exact txinToKey_lenientAtEnd

theorem transactionPrefix_lenientAtEnd : transactionPrefix.LenientAtEnd :=
  .map (.seq (.check varint64_lenientAtEnd) (.seq varint64_lenientAtEnd
    (.seq (container_lenientAtEnd txinV_lenientAtEnd)
      (.seq (container_lenientAtEnd txOut_lenientAtEnd) byteV_lenientAtEnd))))

theorem ecdhTuple_lenientAtEnd (type : RctType) : (ecdhTuple type).LenientAtEnd :=
  .ite (.map (blob_lenientAtEnd 8)) (.map (.seq (blob_lenientAtEnd 32) (blob_lenientAtEnd 32)))

theorem rctsigBase_lenientAtEnd (inputs outputs : Nat) :
    (rctsigBase inputs outputs).LenientAtEnd := by
  refine .map (.dep (.map (.check uint8_lenientAtEnd)) fun type => ?_)
  refine .ite (.skip _) (.seq varint64_lenientAtEnd (.seq (.ite ?_ (.skip _)) (.seq ?_ ?_)))
  · exact .vector (blob_lenientAtEnd 32)
  · exact .vector (ecdhTuple_lenientAtEnd type)
  · exact .vector (.map (blob_lenientAtEnd 32))

theorem unprunable_lenientAtEnd : unprunable.LenientAtEnd :=
  .dep (.sized transactionPrefix_lenientAtEnd) fun _ =>
    .ite (.skip _) (.ite (.skip _) (rctsigBase_lenientAtEnd _ _))

/-! ## The base of a parsed transaction -/

variable {blob : Bytes} {t : Transaction}

/-- The base part of a transaction that the reader accepts: what it takes of the input, and the
size that is recorded for it. -/
theorem unprunable_of_read {rest : Bytes}
    (h : (transaction false).read false blob = some (t, rest)) :
    ∃ size r, unprunable.read false blob =
        some (((t.toTransactionPrefix, size), t.rctSignatures.toRctSigBase), r) ∧
      (t.unprunableSize ≠ 0 → t.unprunableSize = UInt32.ofNat (blob.length - r.length)) := by
  obtain ⟨⟨⟨⟨⟨p, prefixSize⟩, b⟩, size⟩, s, q⟩, hx, rfl⟩ := Codec.map_read_iff.mp h
  obtain ⟨r, hu, -⟩ := Codec.dep_read_iff.mp hx
  obtain ⟨hu, rfl⟩ := Codec.sized_read_iff.mp hu
  refine ⟨prefixSize, r, hu, fun hne => ?_⟩
  dsimp only at hne ⊢
  split
  · rename_i hc
    exact absurd (if_pos hc) hne
  · rfl

/-- What `serialize_base` reads of a transaction. -/
def Transaction.base (t : Transaction) : Transaction :=
  { toTransactionPrefix := t.toTransactionPrefix
    rctSignatures := { toRctSigBase := t.rctSignatures.toRctSigBase }
    pruned := true }

variable {sm : Key → Key → Option Key}

/-- An expansion of the base part succeeds when that of the whole transaction does. -/
theorem expandTransaction1_base {t' : Transaction} (h : expandTransaction1 sm t false = some t') :
    ∃ tb, expandTransaction1 sm t.base true = some tb ∧
      tb.toTransactionPrefix = t.toTransactionPrefix := by
  unfold expandTransaction1 at h
  split at h
  · rename_i h1
    exact ⟨t.base, if_pos h1, rfl⟩
  rename_i h1
  split at h
  · rename_i h2
    exact ⟨t.base, (if_neg h1).trans (if_pos h2), rfl⟩
  rename_i h2
  split at h
  · cases h
  rename_i h3
  split at h
  · cases h
  rename_i outPk ho
  refine ⟨{ t.base with rctSignatures := { t.base.rctSignatures with outPk } },
    (if_neg h1).trans ((if_neg h2).trans ((if_neg h3).trans ?_)), rfl⟩
  dsimp only [Transaction.base]
  rw [ho]
  rfl

/-- **The recorded part of a parsed blob is read as the base of the transaction**, with the same
prefix. -/
theorem parseBase_of_parse
    (h : parseAndValidateTxFromBlob sm blob = some t) (hsize : t.unprunableSize ≠ 0) :
    ∃ n ≤ blob.length, t.unprunableSize = UInt32.ofNat n ∧
      ∃ tb, parseAndValidateTxBaseFromBlob sm (blob.take n) = some tb ∧
        tb.toTransactionPrefix = t.toTransactionPrefix := by
  obtain ⟨t0, t1, hread, hexp, rfl⟩ := parseAndValidateTxFromBlob_eq_some h
  obtain ⟨size, r, hu, hs⟩ := unprunable_of_read hread
  obtain ⟨outPk, q, rfl, -⟩ := expandTransaction1_expands hexp
  have hbase := Codec.read_consumed unprunable_lenientAtEnd hu
  have hserial : serializeBase.read false (blob.take (blob.length - r.length)) =
      some (t0.base, []) := by
    simp only [serializeBase, Codec.map, hbase, Transaction.base]
  obtain ⟨tb, htb, hp⟩ := expandTransaction1_base hexp
  refine ⟨blob.length - r.length, Nat.sub_le _ _, hs hsize, tb.invalidateHashes, ?_, hp⟩
  rw [parseAndValidateTxBaseFromBlob, hserial]
  simp only [htb, Option.map_some]

/-- The reader of a prefix refuses versions above `CURRENT_TRANSACTION_VERSION`. -/
theorem version_le_of_read {strict : Bool} {inp rest : Bytes} {p : TransactionPrefix}
    (h : transactionPrefix.read strict inp = some (p, rest)) :
    p.version ≤ currentTransactionVersion := by
  obtain ⟨⟨version, unlockTime, vin, vout, extra⟩, hx, rfl⟩ := Codec.map_read_iff.mp h
  obtain ⟨_, hv, -⟩ := Codec.dep_read_iff.mp hx
  have hc := (Codec.check_read_iff.mp hv).2
  simp only [Bool.not_eq_true', Bool.or_eq_false_iff, decide_eq_false_iff_not] at hc
  exact UInt64.not_lt.mp hc.2

theorem version_le_of_parseBase (h : parseAndValidateTxBaseFromBlob sm blob = some t) :
    t.version ≤ currentTransactionVersion := by
  unfold parseAndValidateTxBaseFromBlob at h
  split at h
  · rename_i t0 r hread
    obtain ⟨t1, hexp, rfl⟩ := Option.map_eq_some_iff.mp h
    obtain ⟨outPk, q, rfl, -⟩ := expandTransaction1_expands hexp
    obtain ⟨⟨⟨p, size⟩, b⟩, hx, rfl⟩ := Codec.map_read_iff.mp hread
    obtain ⟨_, hp, -⟩ := Codec.dep_read_iff.mp hx
    exact version_le_of_read (Codec.sized_read_iff.mp hp).1
  · cases h

end Hashmonkey.Basic
