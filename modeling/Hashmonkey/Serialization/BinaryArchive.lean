import Hashmonkey.Serialization.Varint

/-!
# The binary archive (`serialization/binary_archive.h`, `container.h`)

The source has one `serialize` template for both directions; `binary_archive<true>` writes to a
stream and `binary_archive<false>` reads from a byte span. An archive function is modelled as a
`Codec` over bytes: `write` is what the writing archive leaves in the stream, `read false` is the
reading archive of the source and `read true` the same with the strict varint reader. The
reader's `good_` flag never comes back once it is cleared and every caller tests it before it
returns, so a reader that fails is `none`.

* `uint8`, `uint32`: `serialize_int`, little endian of fixed width.
* `varint8`, `varint32`, `varint64`: `serialize_varint`.
* `blob`: `serialize_blob` of a type that is its own bytes.
* `container`: `do_serialize_container`, the count as a `size_t` varint and then the elements, with
  the reader's sanity check `remaining_bytes() < cnt`.
-/

namespace Hashmonkey.Serialization

open Lib List

/-! ## Integers of fixed width -/

/-- The bytes of `serialize_uint` for an integer of `size` bytes. -/
def writeUint : Nat → Nat → Bytes
  | 0, _ => []
  | size + 1, v => UInt8.ofNat v :: writeUint size (v >>> 8)

/-- The integer in the first `size` bytes, least significant first. -/
def readUint : Nat → Bytes → Option (Nat × Bytes)
  | 0, inp => some (0, inp)
  | _ + 1, [] => none
  | size + 1, b :: inp =>
    match readUint size inp with
    | none => none
    | some (v, rest) => some (b.toNat + v * 256, rest)

theorem readUint_writeUint : ∀ (size v : Nat) (rest : Bytes), v < 256 ^ size →
    readUint size (writeUint size v ++ rest) = some (v, rest)
  | 0, v, rest, h => by
    have : v = 0 := by omega
    subst this
    rfl
  | size + 1, v, rest, h => by
    have e : v >>> 8 = v / 256 := Nat.shiftRight_eq_div_pow v 8
    have hlt : v / 256 < 256 ^ size := by
      exact Nat.div_lt_of_lt_mul (by rwa [Nat.mul_comm])
    rw [writeUint, cons_append, readUint, e, readUint_writeUint size _ rest hlt]
    simp only [Option.some.injEq, Prod.mk.injEq, and_true]
    rw [UInt8.toNat_ofNat']
    omega

theorem writeUint_readUint : ∀ (size : Nat) {inp rest : Bytes} {v : Nat},
    readUint size inp = some (v, rest) → v < 256 ^ size ∧ inp = writeUint size v ++ rest
  | 0, inp, rest, v, h => by
    obtain ⟨rfl, rfl⟩ := h
    exact ⟨by decide, rfl⟩
  | size + 1, b :: inp, rest, v, h => by
    rw [readUint] at h
    split at h
    · cases h
    rename_i u r hr
    cases h
    obtain ⟨hlt, rfl⟩ := writeUint_readUint size hr
    have hb := b.toNat_lt
    have e : (b.toNat + u * 256) >>> 8 = u := by omega
    refine ⟨by rw [Nat.pow_succ]; omega, ?_⟩
    rw [writeUint, e, cons_append]
    congr 1
    apply UInt8.toNat_inj.mp
    rw [UInt8.toNat_ofNat']
    omega

/-- `serialize_uint` of an integer of `size` bytes. -/
def uintNat (size : Nat) : Codec UInt8 Nat where
  write v := if v < 256 ^ size then (writeUint size v, true) else ([], false)
  read _ inp := readUint size inp
  norm v := v
  read_write {v bs} h strict rest := by
    split at h
    · rename_i hv
      simp only [Prod.mk.injEq, and_true] at h
      rw [← h, readUint_writeUint size v rest hv]
    · simp at h
  write_read {inp v rest} h := by
    obtain ⟨hv, e⟩ := writeUint_readUint size h
    exact ⟨writeUint size v, by rw [if_pos hv], e⟩

variable {bs : Bytes}

theorem uintNat_lt {size v : Nat} (h : (uintNat size).write v = (bs, true)) : v < 256 ^ size := by
  by_contra hc
  simp [uintNat, hc] at h

/-- `serialize_int` of a `uint8_t`. -/
def uint8 : Codec UInt8 UInt8 :=
  (uintNat 1).map UInt8.ofNat (fun v => some v.toNat) fun v _ h => by
    have hv : v < 2 ^ 8 := uintNat_lt h
    exact ⟨v, by rw [UInt8.toNat_ofNat', Nat.mod_eq_of_lt hv], h⟩

/-- `serialize_int` of a `uint32_t`. -/
def uint32 : Codec UInt8 UInt32 :=
  (uintNat 4).map UInt32.ofNat (fun v => some v.toNat) fun v _ h => by
    have hv : v < 2 ^ 32 := uintNat_lt h
    exact ⟨v, by rw [UInt32.toNat_ofNat', Nat.mod_eq_of_lt hv], h⟩

theorem uint8_exact : uint8.Exact := fun _ => UInt8.ofNat_toNat

theorem uint32_exact : uint32.Exact := fun _ => UInt32.ofNat_toNat

/-- Every byte is written. -/
theorem uint8_write (v : UInt8) : uint8.write v = ([v], true) := by
  have hv : v.toNat < 256 ^ 1 := v.toNat_lt
  show (if v.toNat < 256 ^ 1 then _ else _) = _
  rw [if_pos hv]
  show ([UInt8.ofNat v.toNat], true) = _
  rw [UInt8.ofNat_toNat]

theorem uint32_write (v : UInt32) : uint32.write v = (writeUint 4 v.toNat, true) :=
  if_pos (show v.toNat < 256 ^ 4 from v.toNat_lt)

theorem uint8_nonempty : uint8.Nonempty := fun v bs h => by
  rw [uint8_write, Prod.mk.injEq] at h
  rw [← h.1]
  exact cons_ne_nil _ _

/-! ## Varints -/

/-- `serialize_varint` of a `uint8_t`. -/
def varint8 : Codec UInt8 UInt8 :=
  (varintNat 8 (by decide)).map UInt8.ofNat (fun v => some v.toNat) fun v _ h => by
    have hv := varintNat_lt h
    exact ⟨v, by rw [UInt8.toNat_ofNat', Nat.mod_eq_of_lt hv], h⟩

/-- `serialize_varint` of a `uint32_t`. -/
def varint32 : Codec UInt8 UInt32 :=
  (varintNat 32 (by decide)).map UInt32.ofNat (fun v => some v.toNat) fun v _ h => by
    have hv := varintNat_lt h
    exact ⟨v, by rw [UInt32.toNat_ofNat', Nat.mod_eq_of_lt hv], h⟩

/-- `serialize_varint` of a `uint64_t` or a `size_t`. -/
def varint64 : Codec UInt8 UInt64 :=
  (varintNat 64 (by decide)).map UInt64.ofNat (fun v => some v.toNat) fun v _ h => by
    have hv := varintNat_lt h
    exact ⟨v, by rw [UInt64.toNat_ofNat', Nat.mod_eq_of_lt hv], h⟩

theorem varint8_exact : varint8.Exact := fun _ => UInt8.ofNat_toNat

theorem varint32_exact : varint32.Exact := fun _ => UInt32.ofNat_toNat

theorem varint64_exact : varint64.Exact := fun _ => UInt64.ofNat_toNat

theorem varint64_nonempty : varint64.Nonempty := Codec.Nonempty.map (varintNat_nonempty 64 _)

theorem varint8_write (v : UInt8) : varint8.write v = (writeVarint v.toNat, true) :=
  if_pos v.toNat_lt

theorem varint64_write (v : UInt64) : varint64.write v = (writeVarint v.toNat, true) :=
  if_pos v.toNat_lt

theorem varint32_size : varint32.Size fun v => (writeVarint v.toNat).length := by
  refine Codec.Size.map (varintNat_size 32 (by decide)) ?_
  rintro v _ ⟨⟩
  rfl

/-! ## Blobs -/

/-- `serialize_blob` of a type that is its own `n` bytes. -/
def blob (n : Nat) : Codec UInt8 (Blob n) where
  write b := (b.1, true)
  read _ inp :=
    if h : n ≤ inp.length then
      some (⟨inp.take n, by rw [length_take, Nat.min_eq_left h]⟩, inp.drop n)
    else none
  norm b := b
  read_write {b bs} h strict rest := by
    simp only [Prod.mk.injEq, and_true] at h
    subst h
    have hlen : b.1.length = n := b.2
    rw [dif_pos (by rw [length_append]; omega)]
    congr 2
    · exact Subtype.ext (take_left' hlen)
    · exact drop_left' hlen
  write_read {inp b rest} h := by
    split at h
    · cases h
      exact ⟨inp.take n, rfl, (take_append_drop n inp).symm⟩
    · simp at h

theorem blob_exact (n : Nat) : (blob n).Exact := fun _ => rfl

theorem blob_nonempty {n : Nat} (hn : 0 < n) : (blob n).Nonempty := fun b bs h => by
  simp only [blob, Prod.mk.injEq, and_true] at h
  rw [← h, ← length_pos_iff, b.2]
  exact hn

theorem hash_nonempty : (blob 32).Nonempty := blob_nonempty (by decide)

theorem blob_size (n : Nat) : (blob n).Size fun _ => n := by
  intro b bs h
  simp only [blob, Prod.mk.injEq, and_true] at h
  rw [← h, b.2]

/-! ## Containers -/

/-- `do_serialize_container`: the count is the `size_t` that `begin_array` writes. -/
def container {α : Type} (c : Codec UInt8 α) (hc : c.Nonempty) : Codec UInt8 (List α) :=
  Codec.container (varintNat 64 (by decide)) c (varintNat_exact 64 _) hc

variable {α : Type} {c : Codec UInt8 α} {hc : c.Nonempty}

theorem container_exact (h : c.Exact) : (container c hc).Exact := Codec.Exact.container h

theorem container_size {n : α → Nat} (h : c.Size n) :
    (container c hc).Size fun l => (writeVarint l.length).length + (l.map n).sum :=
  Codec.Size.container (varintNat_size 64 (by decide)) h

variable {l : List α}

/-- A written container is longer than the list it holds. -/
theorem length_lt_of_container
    (h : (container c hc).write l = (bs, true)) : l.length < bs.length := by
  obtain ⟨b1, b2, h1, h2, rfl⟩ := Written.andThen_ok.mp h
  have hpos := length_pos_iff.mpr (varintNat_nonempty 64 (by decide) _ b1 h1)
  have hle := Codec.length_le_writeEach hc h2
  rw [length_append]
  omega

/-- The count of a written container is a `size_t`. -/
theorem length_lt_size_t (h : (container c hc).write l = (bs, true)) : l.length < 2 ^ 64 := by
  obtain ⟨_, _, h1, -, -⟩ := Written.andThen_ok.mp h
  exact varintNat_lt h1

/-- The first entry of a written container is part of what was written. -/
theorem head_of_container {a : α} (h : (container c hc).write (a :: l) = (bs, true)) :
    ∃ ba, c.write a = (ba, true) ∧ ba.length ≤ bs.length := by
  obtain ⟨b1, b2, -, h2, rfl⟩ := Written.andThen_ok.mp h
  obtain ⟨ba, b3, ha, -, rfl⟩ := Written.andThen_ok.mp h2
  exact ⟨ba, ha, by rw [length_append, length_append]; omega⟩

end Hashmonkey.Serialization
