import Hashmonkey.Crypto.Hash
import Hashmonkey.Lib.Codec

/-!
# Variable-length integers (`common/varint.h`)

* `writeVarint`: `tools::write_varint`, seven bits a byte, least significant first, the high bit
  set on every byte but the last.
* `readVarint`: `tools::read_varint<bits>`. The loop runs over the input with its `shift` and the
  value so far. It rejects a byte that does not fit the type (`EVARINT_OVERFLOW`) and a
  superfluous zero byte (`EVARINT_REPRESENT`). **When the input ends inside an integer, or before
  its first byte, the source returns the number of bytes read, which every caller takes as
  success**: the value is what was read so far. `readVarint` therefore has a `strict` switch: off
  it is the source's function, on it rejects an input that ends before the last byte of the
  integer.

Results: `readVarint_writeVarint` (what is written is read back, in both modes) and
`writeVarint_readVarint` (what the strict reader accepts is what the writer writes), which make
`varintNat` a `Codec`.
-/

namespace Hashmonkey.Serialization

open Lib List UInt8

/-! ## The two functions -/

/-- The loop of `write_varint`; `fuel` bounds the number of bytes before the last. -/
def writeVarintLoop : Nat → Nat → Bytes
  | 0, i => [ofNat i]
  | fuel + 1, i =>
    if 0x80 ≤ i then ((ofNat i &&& 0x7f) ||| 0x80) :: writeVarintLoop fuel (i >>> 7)
    else [ofNat i]

/-- `write_varint`. -/
def writeVarint (i : Nat) : Bytes := writeVarintLoop i i

/-- The error codes of `read_varint`, and the one that the strict reader adds. -/
inductive VarintError
  | overflow
  | represent
  | truncated
  deriving DecidableEq, Repr

/-- The loop of `read_varint<bits>` at `shift` with the value `write` so far. -/
def readVarintLoop (strict : Bool) (bits : Nat) :
    Nat → Nat → Bytes → Except VarintError (Nat × Bytes)
  | _, write, [] => if strict then .error .truncated else .ok (write, [])
  | shift, write, byte :: rest =>
    if bits ≤ shift + 7 ∧ 1 <<< (bits - shift) ≤ byte.toNat then .error .overflow
    else if byte = 0 ∧ shift ≠ 0 then .error .represent
    else if byte &&& 0x80 = 0 then .ok (write ||| ((byte &&& 0x7f).toNat <<< shift), rest)
    else readVarintLoop strict bits (shift + 7) (write ||| ((byte &&& 0x7f).toNat <<< shift)) rest

/-- `read_varint<bits>`. -/
def readVarint (strict : Bool) (bits : Nat) (inp : Bytes) : Except VarintError (Nat × Bytes) :=
  readVarintLoop strict bits 0 0 inp

/-! ## Bytes -/

theorem toNat_and_7f (b : UInt8) : (b &&& 0x7f).toNat = b.toNat % 128 := by
  exact Nat.and_two_pow_sub_one_eq_mod b.toNat 7

theorem and_80_eq_zero_iff (b : UInt8) : b &&& 0x80 = 0 ↔ b.toNat < 128 :=
  forall_byte (p := fun b => b &&& 0x80 = 0 ↔ b.toNat < 128) (by decide +kernel) b

variable {i : Nat}

theorem toNat_ofNat_of_lt (h : i < 128) : (ofNat i).toNat = i := by
  rw [toNat_ofNat']
  omega

/-- The value of a byte that announces another one. -/
theorem toNat_more (i : Nat) : ((ofNat i &&& 0x7f) ||| 0x80).toNat = i % 128 + 128 := by
  have h : ∀ b : UInt8, ((b &&& 0x7f) ||| 0x80).toNat = b.toNat % 128 + 128 :=
    forall_byte (by decide +kernel)
  rw [h, toNat_ofNat']
  omega

theorem or_shiftLeft {w x shift : Nat} (hw : w < 2 ^ shift) :
    w ||| (x <<< shift) = w + x * 2 ^ shift := by
  rw [Nat.or_comm, ← Nat.shiftLeft_add_eq_or_of_lt hw, Nat.shiftLeft_eq, Nat.add_comm]

/-! ## The writer, one byte at a time -/

theorem writeVarintLoop_fuel : ∀ (fuel fuel' i : Nat), i ≤ fuel → i ≤ fuel' →
    writeVarintLoop fuel i = writeVarintLoop fuel' i
  | 0, 0, _, _, _ => rfl
  | 0, fuel' + 1, i, h, _ => by
    rw [writeVarintLoop, writeVarintLoop, if_neg (by omega)]
  | fuel + 1, 0, i, _, h => by
    rw [writeVarintLoop, writeVarintLoop, if_neg (by omega)]
  | fuel + 1, fuel' + 1, i, h, h' => by
    rw [writeVarintLoop, writeVarintLoop]
    split
    · have hlt : i >>> 7 < i := by
        omega
      rw [writeVarintLoop_fuel fuel fuel' (i >>> 7) (by omega) (by omega)]
    · rfl

theorem writeVarint_last (h : i < 128) : writeVarint i = [ofNat i] := by
  unfold writeVarint
  cases i with
  | zero => rfl
  | succ i => rw [writeVarintLoop, if_neg (by omega)]

theorem writeVarint_more (h : 128 ≤ i) :
    writeVarint i = ((ofNat i &&& 0x7f) ||| 0x80) :: writeVarint (i / 128) := by
  obtain ⟨n, rfl⟩ : ∃ n, i = n + 1 := ⟨i - 1, by omega⟩
  have e : (n + 1) >>> 7 = (n + 1) / 128 := Nat.shiftRight_eq_div_pow _ 7
  rw [writeVarint, writeVarintLoop, if_pos h, e, writeVarint,
    writeVarintLoop_fuel n ((n + 1) / 128) _ (by omega) (Nat.le_refl _)]

theorem writeVarint_ne_nil (i : Nat) : writeVarint i ≠ [] := by
  by_cases h : i < 128
  · rw [writeVarint_last h]
    exact cons_ne_nil _ _
  · rw [writeVarint_more (by omega)]
    exact cons_ne_nil _ _

/-! ## What is written is read back -/

variable {bits v : Nat}

/-- The bits above `shift` still have room for a byte that announces another one. -/
theorem room_of_ge {shift : Nat} (h : 128 ≤ v)
    (hv : ¬ (bits ≤ shift + 7 ∧ 2 ^ (bits - shift) ≤ v)) : shift + 7 < bits := by
  by_contra hc
  have : 2 ^ (bits - shift) ≤ 2 ^ 7 := Nat.pow_le_pow_right (by decide) (by omega)
  omega

/-- The next seven bits fit above the ones that are there. -/
theorem add_bits_lt {w shift : Nat} (hw : w < 2 ^ shift) (x : Nat) :
    w + x % 128 * 2 ^ shift < 2 ^ (shift + 7) := by
  have : x % 128 * 2 ^ shift ≤ 127 * 2 ^ shift := Nat.mul_le_mul_right _ (by omega)
  rw [Nat.pow_add]
  omega

theorem readVarintLoop_writeVarint (strict : Bool) (bits : Nat) (rest : Bytes) :
    ∀ (v shift w : Nat), v < 2 ^ (bits - shift) → w < 2 ^ shift → (shift = 0 ∨ v ≠ 0) →
    readVarintLoop strict bits shift w (writeVarint v ++ rest) = .ok (w + v * 2 ^ shift, rest) := by
  intro v
  induction v using Nat.strongRecOn with
  | ind v ih =>
    intro shift w hv hw hz
    by_cases hlt : v < 128
    · have hn := toNat_ofNat_of_lt hlt
      have hzero : ¬ (ofNat v = 0 ∧ shift ≠ 0) := by
        rintro ⟨h0, hs⟩
        have := congrArg toNat h0
        rw [hn] at this
        exact (hz.resolve_left hs) this
      rw [writeVarint_last hlt, singleton_append, readVarintLoop,
        if_neg (by rw [hn, Nat.one_shiftLeft]; omega), if_neg hzero,
        if_pos ((and_80_eq_zero_iff _).mpr (by rw [hn]; exact hlt)), toNat_and_7f, hn,
        Nat.mod_eq_of_lt hlt, or_shiftLeft hw]
    · have hge : 128 ≤ v := by omega
      have hroom := room_of_ge hge fun h => absurd hv (Nat.not_lt.mpr h.2)
      have hn := toNat_more v
      have hne : ((ofNat v &&& 0x7f) ||| 0x80) ≠ 0 := by
        intro h0
        rw [h0] at hn
        have : (0 : UInt8).toNat = 0 := rfl
        omega
      have hmod : ((ofNat v &&& 0x7f) ||| 0x80).toNat % 128 = v % 128 := by omega
      have hpow : 2 ^ (bits - shift) = 2 ^ (bits - (shift + 7)) * 128 := by
        rw [show bits - shift = (bits - (shift + 7)) + 7 by omega, Nat.pow_add]
      rw [writeVarint_more hge, cons_append, readVarintLoop, if_neg (by omega),
        if_neg (fun h => hne h.1), if_neg (by rw [and_80_eq_zero_iff, hn]; omega), toNat_and_7f,
        hmod, or_shiftLeft hw,
        ih (v / 128) (by omega) (shift + 7) _
          (Nat.div_lt_of_lt_mul (by rw [Nat.mul_comm, ← hpow]; exact hv)) (add_bits_lt hw v)
          (Or.inr (by omega))]
      have e : v % 128 * 2 ^ shift + v / 128 * 2 ^ (shift + 7) = v * 2 ^ shift := by
        rw [Nat.pow_add, Nat.mul_comm (2 ^ shift), ← Nat.mul_assoc, ← Nat.add_mul,
          Nat.mul_comm (v / 128), Nat.mod_add_div]
      rw [Nat.add_assoc, e]

/-- **What `write_varint` writes, `read_varint` reads back**, whatever follows it. -/
theorem readVarint_writeVarint (hv : v < 2 ^ bits) (strict : Bool) (rest : Bytes) :
    readVarint strict bits (writeVarint v ++ rest) = .ok (v, rest) := by
  have h := readVarintLoop_writeVarint strict bits rest v 0 0
    (by rwa [Nat.sub_zero]) (by decide) (Or.inl rfl)
  rwa [Nat.pow_zero, Nat.mul_one, Nat.zero_add] at h

/-! ## What the strict reader accepts is what the writer writes -/

theorem writeVarint_cons {b : UInt8} (hb : 128 ≤ b.toNat) (hv : v ≠ 0) :
    writeVarint (b.toNat % 128 + v * 128) = b :: writeVarint v := by
  have hlt := b.toNat_lt
  rw [writeVarint_more (by omega), show (b.toNat % 128 + v * 128) / 128 = v by omega]
  congr 1
  apply UInt8.toNat_inj.mp
  rw [toNat_more]
  omega

theorem writeVarint_readVarintLoop : ∀ (inp : Bytes) {shift w x : Nat} {rest : Bytes},
    readVarintLoop true bits shift w inp = .ok (x, rest) → w < 2 ^ shift → shift < bits →
    ∃ v, v < 2 ^ (bits - shift) ∧ (shift = 0 ∨ v ≠ 0) ∧ x = w + v * 2 ^ shift ∧
      inp = writeVarint v ++ rest
  | [], _, _, _, _, h, _, _ => by simp [readVarintLoop] at h
  | byte :: inp, shift, w, x, rest, h, hw, hs => by
    rw [readVarintLoop] at h
    split at h
    · simp at h
    rename_i hover
    split at h
    · simp at h
    rename_i hrep
    rw [Nat.one_shiftLeft] at hover
    rw [toNat_and_7f, or_shiftLeft hw] at h
    split at h
    -- the last byte of the integer
    · rename_i hlast
      have hlt := (and_80_eq_zero_iff byte).mp hlast
      obtain ⟨rfl, rfl⟩ := h
      refine ⟨byte.toNat, ?_, ?_, by rw [Nat.mod_eq_of_lt hlt], ?_⟩
      · by_cases hb : bits ≤ shift + 7
        · exact Nat.lt_of_not_le fun hle => hover ⟨hb, hle⟩
        · have hp : 2 ^ 7 ≤ 2 ^ (bits - shift) := Nat.pow_le_pow_right (by decide) (by omega)
          exact Nat.lt_of_lt_of_le hlt hp
      · by_cases hz : shift = 0
        · exact Or.inl hz
        · refine Or.inr fun h0 => hrep ⟨UInt8.toNat_inj.mp h0, hz⟩
      · rw [writeVarint_last hlt, UInt8.ofNat_toNat, singleton_append]
    -- another byte follows: the type has room for it, or this one had overflowed
    · rename_i hmore
      have hge : 128 ≤ byte.toNat := Nat.le_of_not_lt fun hlt =>
        hmore ((and_80_eq_zero_iff byte).mpr hlt)
      have hroom := room_of_ge hge hover
      obtain ⟨v, hv, hz, rfl, rfl⟩ :=
        writeVarint_readVarintLoop inp h (add_bits_lt hw byte.toNat) hroom
      have hv0 : v ≠ 0 := hz.resolve_left (by omega)
      refine ⟨byte.toNat % 128 + v * 128, ?_, Or.inr (by omega), ?_, ?_⟩
      · rw [show bits - shift = (bits - (shift + 7)) + 7 by omega, Nat.pow_add]
        omega
      · rw [Nat.add_mul, Nat.pow_add, Nat.add_assoc, Nat.mul_assoc, Nat.mul_comm 128]
      · rw [writeVarint_cons hge hv0, cons_append]

/-- **What the strict `read_varint` accepts is what `write_varint` writes**: integers have one
encoding. -/
theorem writeVarint_readVarint {inp rest : Bytes} (hb : 0 < bits)
    (h : readVarint true bits inp = .ok (v, rest)) :
    v < 2 ^ bits ∧ inp = writeVarint v ++ rest := by
  obtain ⟨v', hv, -, rfl, e⟩ := writeVarint_readVarintLoop inp h (by decide) hb
  rw [Nat.pow_zero, Nat.mul_one, Nat.zero_add]
  exact ⟨hv, e⟩

/-- The source's reader is as strict as the strict one as long as the input goes on. -/
theorem readVarintLoop_strict : ∀ {inp : Bytes} {shift write v : Nat} {rest : Bytes},
    readVarintLoop false bits shift write inp = .ok (v, rest) → rest ≠ [] →
    readVarintLoop true bits shift write inp = .ok (v, rest)
  | [], _, _, _, _, h, hr => by
    simp only [readVarintLoop, Bool.false_eq_true, if_false, Except.ok.injEq, Prod.mk.injEq] at h
    exact absurd h.2.symm hr
  | byte :: inp, shift, write, v, rest, h, hr => by
    unfold readVarintLoop at h ⊢
    split at h
    · cases h
    rename_i h1
    rw [if_neg h1]
    split at h
    · cases h
    rename_i h2
    rw [if_neg h2]
    split at h
    · rename_i h3
      rw [if_pos h3]
      exact h
    · rename_i h3
      rw [if_neg h3]
      exact readVarintLoop_strict h hr

/-! ## Sizes, and inputs that end early -/

/-- The loop of `get_varint_byte_size`; `fuel` bounds the number of groups before the last. -/
def getVarintByteSizeLoop : Nat → Nat → Nat
  | 0, _ => 1
  | fuel + 1, val => if val >>> 7 ≠ 0 then getVarintByteSizeLoop fuel (val >>> 7) + 1 else 1

/-- `get_varint_byte_size`. -/
def getVarintByteSize (val : Nat) : Nat := getVarintByteSizeLoop val val

theorem length_writeVarintLoop : ∀ fuel i : Nat,
    (writeVarintLoop fuel i).length = getVarintByteSizeLoop fuel i
  | 0, _ => rfl
  | fuel + 1, i => by
    rw [writeVarintLoop, getVarintByteSizeLoop]
    by_cases h : 0x80 ≤ i
    · rw [if_pos h, if_pos (by omega), length_cons, length_writeVarintLoop]
    · rw [if_neg h, if_neg (by omega), length_singleton]

/-- The writer ends every integer with a byte that announces no other. -/
theorem exists_last_writeVarint (v : Nat) : ∃ b ∈ writeVarint v, b.toNat < 128 := by
  induction v using Nat.strongRecOn with
  | ind v ih =>
    by_cases h : v < 128
    · rw [writeVarint_last h]
      exact ⟨_, mem_singleton_self _, by rwa [toNat_ofNat_of_lt h]⟩
    · obtain ⟨b, hb, hlt⟩ := ih (v / 128) (by omega)
      rw [writeVarint_more (by omega)]
      exact ⟨b, mem_cons_of_mem _ hb, hlt⟩

/-- An input with a last byte, or with more bytes than the type has room for, does not end inside
the integer. -/
theorem readVarintLoop_total : ∀ {inp : Bytes} {shift : Nat} (write : Nat), shift < bits →
    (∃ b ∈ inp, b.toNat < 128) ∨ bits ≤ shift + 7 * inp.length →
    readVarintLoop false bits shift write inp = readVarintLoop true bits shift write inp
  | [], shift, write, hs, h => by
    rcases h with ⟨b, hb, -⟩ | h
    · cases hb
    rw [length_nil] at h
    omega
  | byte :: inp, shift, write, hs, h => by
    unfold readVarintLoop
    split
    · rfl
    rename_i hover
    split
    · rfl
    split
    · rfl
    rename_i hmore
    rw [and_80_eq_zero_iff, Nat.not_lt] at hmore
    rw [Nat.one_shiftLeft] at hover
    have hroom := room_of_ge hmore hover
    refine readVarintLoop_total _ hroom (h.imp ?_ ?_)
    · rintro ⟨b, hb, hlt⟩
      rcases mem_cons.mp hb with rfl | hb
      · omega
      · exact ⟨b, hb, hlt⟩
    · rw [length_cons]
      omega

/-- Any other input is read to its end. -/
theorem readVarintLoop_ends : ∀ {inp : Bytes} {shift : Nat} (write : Nat),
    (∀ b ∈ inp, 128 ≤ b.toNat) → shift + 7 * inp.length < bits →
    ∃ v, readVarintLoop false bits shift write inp = .ok (v, [])
  | [], _, write, _, _ => ⟨write, rfl⟩
  | byte :: inp, shift, write, hge, hlen => by
    rw [length_cons] at hlen
    have hbyte := hge byte mem_cons_self
    have hne : byte ≠ 0 := fun h0 => by
      rw [h0] at hbyte
      exact absurd hbyte (by decide)
    rw [readVarintLoop, if_neg (by omega), if_neg (fun h => hne h.1),
      if_neg (by rw [and_80_eq_zero_iff]; omega)]
    exact readVarintLoop_ends _ (fun b hb => hge b (mem_cons_of_mem _ hb)) (by omega)

/-- **`read_varint` reports success for exactly what `write_varint` writes, and counts
`get_varint_byte_size` bytes, when the input has a byte that ends the integer or more bytes than
the type has room for**, and only then. What is written is read back in any case. -/
theorem read_varint_exact_iff (hb : 0 < bits) (inp : Bytes) :
    ((∀ v taken rest, inp = taken ++ rest → readVarint false bits inp = .ok (v, rest) →
        taken = writeVarint v ∧ taken.length = getVarintByteSize v) ∧
      ∀ v < 2 ^ bits, ∀ rest, readVarint false bits (writeVarint v ++ rest) = .ok (v, rest)) ↔
    (∃ b ∈ inp, b.toNat < 128) ∨ bits ≤ 7 * inp.length := by
  constructor
  · rintro ⟨hexact, -⟩
    by_contra hc
    rw [not_or] at hc
    obtain ⟨hnone, hlen⟩ := hc
    have hge : ∀ b ∈ inp, 128 ≤ b.toNat := fun b hm =>
      Nat.le_of_not_lt fun hlt => hnone ⟨b, hm, hlt⟩
    obtain ⟨v, hv⟩ := readVarintLoop_ends 0 hge (by omega : 0 + 7 * inp.length < bits)
    obtain ⟨e, -⟩ := hexact v inp [] (append_nil inp).symm hv
    exact hnone (e ▸ exists_last_writeVarint v)
  · intro hend
    refine ⟨?_, fun v hv rest => readVarint_writeVarint hv false rest⟩
    intro v taken rest e h
    rw [readVarint, readVarintLoop_total 0 hb (by rwa [Nat.zero_add])] at h
    have htaken := (writeVarint_readVarint hb h).2
    rw [e, append_cancel_right_eq] at htaken
    exact ⟨htaken, by rw [htaken]; exact length_writeVarintLoop v v⟩

theorem read_varint_exact_iff_byte : (∃ b ∈ [(5 : UInt8)], b.toNat < 128) ∧
    ∀ v taken rest, [5] = taken ++ rest → readVarint false 64 [5] = .ok (v, rest) →
      taken = writeVarint v ∧ taken.length = getVarintByteSize v :=
  ⟨by decide, ((read_varint_exact_iff (by decide) [5]).mpr (.inl (by decide))).1⟩

/-- An input that ends after `0x80` is a success with the value 0 and one byte, which is not what
is written for 0. -/
theorem read_varint_ends_early : readVarint false 64 ([0x80] ++ []) = .ok (0, []) ∧
    [0x80] ≠ writeVarint 0 := by decide

/-! ## Varints as a codec -/

/-- `serialize_varint` of a `bits`-bit unsigned integer. -/
def varintNat (bits : Nat) (hb : 0 < bits) : Codec UInt8 Nat where
  write v := if v < 2 ^ bits then (writeVarint v, true) else ([], false)
  read strict inp := (readVarint strict bits inp).toOption
  norm v := v
  read_write {v bs} h strict rest := by
    split at h
    · rename_i hv
      simp only [Prod.mk.injEq, and_true] at h
      rw [← h, readVarint_writeVarint hv]
      rfl
    · simp at h
  write_read {inp v rest} h := by
    cases hr : readVarint true bits inp with
    | error e => simp [hr, Except.toOption] at h
    | ok q =>
      simp only [hr, Except.toOption, Option.some.injEq] at h
      subst h
      obtain ⟨hv, e⟩ := writeVarint_readVarint hb hr
      exact ⟨writeVarint v, by rw [if_pos hv], e⟩

theorem varintNat_exact (bits : Nat) (hb : 0 < bits) : (varintNat bits hb).Exact := fun _ => rfl

theorem varintNat_lt {hb : 0 < bits} {bs : Bytes}
    (h : (varintNat bits hb).write v = (bs, true)) : v < 2 ^ bits := by
  by_contra hc
  simp [varintNat, hc] at h

theorem varintNat_size (bits : Nat) (hb : 0 < bits) :
    (varintNat bits hb).Size fun v => (writeVarint v).length := by
  intro v bs h
  have hv := varintNat_lt h
  simp only [varintNat, if_pos hv, Prod.mk.injEq, and_true] at h
  rw [← h]

theorem varintNat_nonempty (bits : Nat) (hb : 0 < bits) : (varintNat bits hb).Nonempty := by
  intro v bs h
  have hv := varintNat_lt h
  simp only [varintNat, hv, if_true, Prod.mk.injEq, and_true] at h
  rw [← h]
  exact writeVarint_ne_nil v

end Hashmonkey.Serialization
