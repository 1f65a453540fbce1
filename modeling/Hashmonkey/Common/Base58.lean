import Hashmonkey.Lib.Digits
import Hashmonkey.Serialization.BinaryArchive

/-!
# Base58 with blocks (`common/base58.cpp`)

The data is cut into blocks of eight bytes; each block, read as a big-endian number, is written with
letters of an alphabet of 58 in a width that depends on the size of the block alone.

* `encodeBlock`, `decodeBlock`: `encode_block`, `decode_block`. The encoder writes its letters from
  the end over a block of the first letter; the decoder adds the digits up from the end in
  `uint64_t` and refuses an overflow.
* `encode`, `decode`: the blocks one after the other, the last one shorter.
* `encodeAddr`, `decodeAddr`: a varint tag before the data and four bytes of hash behind it.

A `std::string` is its bytes. Results: **`decode_encode`** and **`encode_decode`**, that the two
functions are inverse to each other, and the same for addresses (`decodeAddr_encodeAddr`,
`encodeAddr_decodeAddr`); there a string whose data is empty is left out, since `read_varint` takes
a varint that the end of the input cuts off.
-/

namespace Hashmonkey.Common

open Lib Serialization List

/-! ## Letters -/

/-- `alphabet`. -/
def alphabet : Bytes :=
  ['1', '2', '3', '4', '5', '6', '7', '8', '9', 'A', 'B', 'C', 'D', 'E', 'F', 'G', 'H', 'J', 'K',
    'L', 'M', 'N', 'P', 'Q', 'R', 'S', 'T', 'U', 'V', 'W', 'X', 'Y', 'Z', 'a', 'b', 'c', 'd', 'e',
    'f', 'g', 'h', 'i', 'j', 'k', 'm', 'n', 'o', 'p', 'q', 'r', 's', 't', 'u', 'v', 'w', 'x', 'y',
    'z'].map fun c => UInt8.ofNat c.toNat

/-- The letter of a digit. -/
def letter (d : Nat) : UInt8 := alphabet.getD d 0

/-- `reverse_alphabet`; `none` is its -1. -/
def reverseAlphabet (c : UInt8) : Option Nat := alphabet.idxOf? c

theorem reverseAlphabet_letter : ∀ d < 58, reverseAlphabet (letter d) = some d := by
  decide

theorem letter_of_reverseAlphabet {c : UInt8} {d : Nat} (h : reverseAlphabet c = some d) :
    d < 58 ∧ letter d = c := by
  rw [reverseAlphabet, List.idxOf?, findIdx?_eq_some_iff_getElem] at h
  obtain ⟨hlt, heq, -⟩ := h
  rw [letter, getD_eq_getElem?_getD, getElem?_eq_getElem hlt, Option.getD_some]
  exact ⟨hlt, by simpa using heq⟩

/-! ## Blocks -/

/-- `encoded_block_sizes`. -/
def encodedBlockSizes : List Nat := [0, 2, 3, 5, 6, 7, 9, 10, 11]

/-- The number of letters for a block of the given size. -/
def encodedBlockSize (size : Nat) : Nat := encodedBlockSizes.getD size 0

/-- `decoded_block_sizes`; `none` is its -1. -/
def decodedBlockSize (size : Nat) : Option Nat := encodedBlockSizes.idxOf? size

/-- `uint_8be_to_64`. -/
def uint8beTo64 (data : Bytes) : Nat := ofBE 256 (data.map UInt8.toNat)

/-- `uint_64_to_8be`: the last `size` bytes of the number. -/
def uint64To8be (num size : Nat) : Bytes := (writeUint size num).reverse

/-- The loop of `encode_block` with `i` places left before the last letter written. -/
def encodeBlockLoop : Nat → Nat → Bytes → Bytes
  | 0, _, res => res
  | i + 1, num, res =>
    if 0 < num then encodeBlockLoop i (num / 58) (res.set i (letter (num % 58))) else res

/-- `encode_block`, on the first letters that `encode` has filled the result with. -/
def encodeBlock (block : Bytes) : Bytes :=
  let size := encodedBlockSize block.length
  encodeBlockLoop size (uint8beTo64 block) (List.replicate size (letter 0))

/-- The loop of `decode_block` over the letters from the last to the first. -/
def decodeBlockLoop : Bytes → Nat → Nat → Option Nat
  | [], resNum, _ => some resNum
  | c :: cs, resNum, order =>
    match reverseAlphabet c with
    | none => none
    | some digit =>
      let productHi := order * digit / 2 ^ 64
      let tmp := (resNum + order * digit % 2 ^ 64) % 2 ^ 64
      if tmp < resNum ∨ productHi ≠ 0 then none
      else decodeBlockLoop cs tmp (order * 58 % 2 ^ 64)

/-- `decode_block`. -/
def decodeBlock (block : Bytes) : Option Bytes :=
  match decodedBlockSize block.length with
  | none => none
  | some resSize =>
    if resSize = 0 then none
    else
      match decodeBlockLoop block.reverse 0 1 with
      | none => none
      | some resNum =>
        if resSize < 8 ∧ 1 <<< (8 * resSize) ≤ resNum then none
        else some (uint64To8be resNum resSize)

/-! ## Strings -/

/-- The loop of `encode` over the full blocks, and the block behind them. -/
def encodeBlocks : Nat → Bytes → Bytes
  | 0, data => if data.isEmpty then [] else encodeBlock data
  | n + 1, data => encodeBlock (data.take 8) ++ encodeBlocks n (data.drop 8)

/-- `encode`. -/
def encode (data : Bytes) : Bytes := encodeBlocks (data.length / 8) data

/-- The loop of `decode` over the full blocks, and the block behind them. -/
def decodeBlocks : Nat → Bytes → Option Bytes
  | 0, enc => if enc.isEmpty then some [] else decodeBlock enc
  | n + 1, enc =>
    match decodeBlock (enc.take 11) with
    | none => none
    | some data => (decodeBlocks n (enc.drop 11)).map (data ++ ·)

/-- `decode`. -/
def decode (enc : Bytes) : Option Bytes :=
  if enc.isEmpty then some []
  else
    match decodedBlockSize (enc.length % 11) with
    | none => none
    | some _ => decodeBlocks (enc.length / 11) enc

/-! ## One block -/

theorem toNat_lt_of_mem (data : Bytes) : ∀ d ∈ data.map UInt8.toNat, d < 256 := by
  intro d hd
  obtain ⟨b, -, rfl⟩ := mem_map.mp hd
  exact b.toNat_lt

theorem uint8beTo64_lt (data : Bytes) : uint8beTo64 data < 256 ^ data.length := by
  have h := ofBE_lt (b := 256) (by decide) (toNat_lt_of_mem data)
  rwa [length_map] at h

theorem uint64To8be_eq : ∀ {size num : Nat}, num < 256 ^ size →
    uint64To8be num size = (toBE 256 size num).map UInt8.ofNat
  | 0, num, h => by
    have h0 : num = 0 := by omega
    subst h0
    rfl
  | size + 1, num, h => by
    have hlt : num / 256 < 256 ^ size := by
      exact Nat.div_lt_of_lt_mul (by rwa [Nat.mul_comm])
    have hlast : UInt8.ofNat num = UInt8.ofNat (num % 256) := by
      apply UInt8.toNat_inj.mp
      simp
    rw [toBE_succ (by decide), map_append, ← uint64To8be_eq hlt, uint64To8be, writeUint,
      reverse_cons, Nat.shiftRight_eq_div_pow, map_singleton, ← hlast]
    rfl

theorem uint64To8be_uint8beTo64 (data : Bytes) :
    uint64To8be (uint8beTo64 data) data.length = data := by
  have h := toBE_ofBE (b := 256) (by decide) (toNat_lt_of_mem data)
  rw [length_map] at h
  rw [uint64To8be_eq (uint8beTo64_lt data), uint8beTo64, h, map_map]
  have hid : UInt8.ofNat ∘ UInt8.toNat = id := funext fun b => UInt8.ofNat_toNat
  rw [hid, map_id]

theorem uint8beTo64_uint64To8be {num size : Nat} (h : num < 256 ^ size) :
    uint8beTo64 (uint64To8be num size) = num := by
  rw [uint64To8be_eq h, uint8beTo64, map_map]
  have hid : (toBE 256 size num).map (UInt8.toNat ∘ UInt8.ofNat) = (toBE 256 size num).map id := by
    refine map_congr_left fun d hd => ?_
    have hlt := lt_of_mem_toBE (by decide) hd
    simp only [Function.comp_apply, UInt8.toNat_ofNat', id_eq]
    omega
  rw [hid, map_id, ofBE_toBE (by decide) h]

/-- The loop of the encoder writes the digits of the number over the first letters. -/
theorem encodeBlockLoop_eq : ∀ {i num : Nat} (rest : Bytes), num < 58 ^ i →
    encodeBlockLoop i num (List.replicate i (letter 0) ++ rest) =
      (toBE 58 i num).map letter ++ rest
  | 0, num, rest, h => by
    have h0 : num = 0 := by omega
    subst h0
    rfl
  | i + 1, num, rest, h => by
    rw [encodeBlockLoop]
    by_cases hpos : 0 < num
    · have hlt : num / 58 < 58 ^ i := by
        exact Nat.div_lt_of_lt_mul (by rwa [Nat.mul_comm])
      have hset : (List.replicate (i + 1) (letter 0) ++ rest).set i (letter (num % 58)) =
          List.replicate i (letter 0) ++ (letter (num % 58) :: rest) := by
        rw [replicate_succ', append_assoc, set_append_right _ _ (by simp)]
        simp
      rw [if_pos hpos, hset, encodeBlockLoop_eq _ hlt, toBE_succ (by decide), map_append,
        append_assoc]
      rfl
    · have h0 : num = 0 := by omega
      rw [if_neg hpos, h0, toBE_zero, map_replicate]

/-- A block of up to eight bytes fits in its letters. -/
theorem pow_le_of_size : ∀ size ≤ 8, 256 ^ size ≤ 58 ^ encodedBlockSize size := by
  decide

variable {block : Bytes}

theorem encodeBlock_eq (h : block.length ≤ 8) :
    encodeBlock block =
      (toBE 58 (encodedBlockSize block.length) (uint8beTo64 block)).map letter := by
  have hlt := (uint8beTo64_lt block).trans_le (pow_le_of_size _ h)
  have hloop := encodeBlockLoop_eq [] hlt
  rwa [append_nil, append_nil] at hloop

/-- The first of some letters is the letter of the first digit. -/
theorem digits_cons {c : UInt8} {cs : Bytes} {ds : List Nat} (hlt : ∀ d ∈ ds, d < 58)
    (h : c :: cs = ds.map letter) :
    ∃ d ds', ds = d :: ds' ∧ reverseAlphabet c = some d ∧ cs = ds'.map letter := by
  cases ds with
  | nil => simp at h
  | cons d ds =>
    rw [map_cons, List.cons.injEq] at h
    exact ⟨d, ds, rfl, by rw [h.1, reverseAlphabet_letter d (hlt d mem_cons_self)], h.2⟩

/-- The decoder's loop adds the digits up, and the sum is exact when it accepts. The order of the
last letter of eleven is the last one below `2^64`. -/
theorem decodeBlockLoop_iff : ∀ (cs : Bytes) (k resNum v : Nat), k + cs.length ≤ 11 →
    resNum < 2 ^ 64 →
    (decodeBlockLoop cs resNum (58 ^ k % 2 ^ 64) = some v ↔
      ∃ ds : List Nat, (∀ d ∈ ds, d < 58) ∧ cs = ds.map letter ∧
        v = resNum + 58 ^ k * Nat.ofDigits 58 ds ∧ v < 2 ^ 64)
  | [], k, resNum, v, _, hr => by
    rw [decodeBlockLoop]
    constructor
    · rintro ⟨⟩
      exact ⟨[], by simp, rfl, by simp, hr⟩
    · rintro ⟨ds, -, hds, rfl, -⟩
      rw [map_eq_nil_iff.mp hds.symm]
      simp
  | c :: cs, k, resNum, v, hlen, hr => by
    have hk : k ≤ 10 := by
      rw [length_cons] at hlen
      omega
    have horder : 58 ^ k < 2 ^ 64 :=
      (Nat.pow_le_pow_right (by decide) hk).trans_lt (by decide)
    rw [Nat.mod_eq_of_lt horder, decodeBlockLoop]
    cases hc : reverseAlphabet c with
    | none =>
      simp only [reduceCtorEq, false_iff]
      rintro ⟨ds, hlt, hds, -, -⟩
      obtain ⟨d, ds, rfl, hd, -⟩ := digits_cons hlt hds
      rw [hc] at hd
      exact absurd hd (by simp)
    | some d =>
      obtain ⟨hd, rfl⟩ := letter_of_reverseAlphabet hc
      dsimp only
      by_cases hsum : resNum + 58 ^ k * d < 2 ^ 64
      · have htmp : (resNum + 58 ^ k * d % 2 ^ 64) % 2 ^ 64 = resNum + 58 ^ k * d := by
          rw [Nat.add_mod_mod, Nat.mod_eq_of_lt hsum]
        have hhi : 58 ^ k * d / 2 ^ 64 = 0 := Nat.div_eq_of_lt (by omega)
        rw [htmp, hhi, if_neg (by omega), ← Nat.pow_succ,
          decodeBlockLoop_iff _ _ _ _ (by rw [length_cons] at hlen; omega) hsum]
        constructor
        · rintro ⟨ds, hlt, rfl, rfl, hv⟩
          exact ⟨d :: ds, forall_mem_cons.mpr ⟨hd, hlt⟩, rfl,
            by rw [Nat.ofDigits_cons, Nat.pow_succ]; ring, hv⟩
        · rintro ⟨ds, hlt, hds, rfl, hv⟩
          obtain ⟨d', ds, rfl, hd', hcs⟩ := digits_cons hlt hds
          rw [hc, Option.some.injEq] at hd'
          subst hd'
          exact ⟨ds, fun x hx => hlt x (mem_cons_of_mem _ hx), hcs,
            by rw [Nat.ofDigits_cons, Nat.pow_succ]; ring, hv⟩
      · have hrefuse : (resNum + 58 ^ k * d % 2 ^ 64) % 2 ^ 64 < resNum ∨
            58 ^ k * d / 2 ^ 64 ≠ 0 := by
          omega
        rw [if_pos hrefuse]
        simp only [reduceCtorEq, false_iff]
        rintro ⟨ds, hlt, hds, rfl, hv⟩
        obtain ⟨d', ds, rfl, hd', -⟩ := digits_cons hlt hds
        rw [hc, Option.some.injEq] at hd'
        subst hd'
        rw [Nat.ofDigits_cons, Nat.mul_add] at hv
        omega

theorem decodedBlockSize_encodedBlockSize : ∀ size ≤ 8,
    decodedBlockSize (encodedBlockSize size) = some size := by
  decide

theorem encodedBlockSize_of_decodedBlockSize {n size : Nat} (h : decodedBlockSize n = some size) :
    size ≤ 8 ∧ encodedBlockSize size = n := by
  by_cases hn : n ≤ 11
  · have hall : ∀ n ≤ 11, ∀ size ∈ decodedBlockSize n, size ≤ 8 ∧ encodedBlockSize size = n := by
      decide
    exact hall n hn size h
  have hnone : decodedBlockSize n = none := by
    rw [decodedBlockSize, idxOf?_eq_none_iff]
    intro hc
    simp only [encodedBlockSizes, mem_cons, not_mem_nil, or_false] at hc
    omega
  rw [hnone] at h
  exact absurd h (by simp)

/-- The number of a block, from its letters. -/
theorem decodeBlockLoop_reverse {v : Nat} (h : block.length ≤ 11) :
    decodeBlockLoop block.reverse 0 1 = some v ↔
      ∃ ds : List Nat, (∀ d ∈ ds, d < 58) ∧ block = ds.map letter ∧ v = ofBE 58 ds ∧
        v < 2 ^ 64 := by
  have hloop := decodeBlockLoop_iff block.reverse 0 0 v (by rw [length_reverse]; omega)
    (by decide)
  rw [show 58 ^ 0 % 2 ^ 64 = 1 from rfl] at hloop
  rw [hloop]
  constructor
  · rintro ⟨ds, hlt, hds, rfl, hv⟩
    refine ⟨ds.reverse, by simpa using hlt, ?_, by simp [ofBE], hv⟩
    rw [map_reverse, ← hds, reverse_reverse]
  · rintro ⟨ds, hlt, rfl, rfl, hv⟩
    exact ⟨ds.reverse, by simpa using hlt, map_reverse.symm, by simp [ofBE], hv⟩

variable {data : Bytes}

/-- What the decoder accepts as a block. -/
theorem decodeBlock_iff :
    decodeBlock block = some data ↔
      ∃ size ds, decodedBlockSize block.length = some size ∧ size ≠ 0 ∧ (∀ d ∈ ds, d < 58) ∧
        block = ds.map letter ∧ ofBE 58 ds < 256 ^ size ∧
        data = uint64To8be (ofBE 58 ds) size := by
  unfold decodeBlock
  cases hsize : decodedBlockSize block.length with
  | none => simp
  | some size =>
    obtain ⟨h8, henc⟩ := encodedBlockSize_of_decodedBlockSize hsize
    have h11 : block.length ≤ 11 := by
      rw [← henc]
      exact (by decide : ∀ size ≤ 8, encodedBlockSize size ≤ 11) size h8
    have hpow : 1 <<< (8 * size) = 256 ^ size := by
      rw [Nat.one_shiftLeft, Nat.pow_mul]
    have hle : 256 ^ size ≤ 2 ^ 64 :=
      (Nat.pow_le_pow_right (by decide) h8).trans (by decide)
    dsimp only
    by_cases h0 : size = 0
    · simp [h0]
    rw [if_neg h0, hpow]
    constructor
    · intro h
      cases hv : decodeBlockLoop block.reverse 0 1 with
      | none => simp [hv] at h
      | some v =>
        obtain ⟨ds, hlt, hds, rfl, h64⟩ := (decodeBlockLoop_reverse h11).mp hv
        simp only [hv] at h
        split at h
        · simp at h
        rw [Option.some.injEq] at h
        refine ⟨size, ds, rfl, h0, hlt, hds, ?_, h.symm⟩
        rcases Nat.lt_or_ge size 8 with hs | hs
        · omega
        rw [show size = 8 by omega]
        exact h64
    · rintro ⟨_, ds, ⟨⟩, -, hlt, hds, hfit, rfl⟩
      rw [(decodeBlockLoop_reverse h11).mpr ⟨ds, hlt, hds, rfl, hfit.trans_le hle⟩]
      dsimp only
      rw [if_neg (by omega)]

theorem decodeBlock_encodeBlock (h0 : block ≠ []) (h : block.length ≤ 8) :
    decodeBlock (encodeBlock block) = some block := by
  have hlt := (uint8beTo64_lt block).trans_le (pow_le_of_size _ h)
  rw [encodeBlock_eq h, decodeBlock_iff]
  refine ⟨block.length, _, ?_, ?_, fun d => lt_of_mem_toBE (by decide), rfl, ?_, ?_⟩
  · rw [length_map, length_toBE (by decide) hlt, decodedBlockSize_encodedBlockSize _ h]
  · exact fun hc => h0 (length_eq_zero_iff.mp hc)
  · rw [ofBE_toBE (by decide) hlt]
    exact uint8beTo64_lt block
  · rw [ofBE_toBE (by decide) hlt, uint64To8be_uint8beTo64]

/-- The decoder is strict: what it accepts is what the encoder writes. -/
theorem encodeBlock_decodeBlock (h : decodeBlock block = some data) :
    encodeBlock data = block ∧ data ≠ [] ∧ decodedBlockSize block.length = some data.length := by
  obtain ⟨size, ds, hsize, h0, hds, rfl, hlt, rfl⟩ := decodeBlock_iff.mp h
  obtain ⟨h8, henc⟩ := encodedBlockSize_of_decodedBlockSize hsize
  have hlen : (uint64To8be (ofBE 58 ds) size).length = size := by
    rw [uint64To8be_eq hlt, length_map, length_toBE (by decide) hlt]
  refine ⟨?_, ?_, by rw [hlen, hsize]⟩
  · rw [encodeBlock_eq (by rw [hlen]; exact h8), hlen, henc, uint8beTo64_uint64To8be hlt,
      length_map, toBE_ofBE (by decide) hds]
  · intro hc
    rw [hc] at hlen
    exact h0 hlen.symm

/-! ## Whole strings -/

theorem length_encodeBlock (h : block.length ≤ 8) :
    (encodeBlock block).length = encodedBlockSize block.length := by
  rw [encodeBlock_eq h, length_map,
    length_toBE (by decide) ((uint8beTo64_lt block).trans_le (pow_le_of_size _ h))]

theorem encodedBlockSize_lt : ∀ size < 8, encodedBlockSize size < 11 := by decide

theorem length_encodeBlocks : ∀ {n : Nat} {data : Bytes}, data.length / 8 = n →
    (encodeBlocks n data).length = 11 * n + encodedBlockSize (data.length % 8)
  | 0, data, h => by
    have hmod : data.length % 8 = data.length := Nat.mod_eq_of_lt (by omega)
    rw [encodeBlocks, hmod]
    cases data with
    | nil => rfl
    | cons b data =>
      rw [if_neg (by simp), length_encodeBlock (by omega)]
      omega
  | n + 1, data, h => by
    have htake : (data.take 8).length = 8 := by rw [length_take]; omega
    have hdrop : (data.drop 8).length / 8 = n := by rw [length_drop]; omega
    have hmod : (data.drop 8).length % 8 = data.length % 8 := by rw [length_drop]; omega
    rw [encodeBlocks, length_append, length_encodeBlock (by omega), htake,
      length_encodeBlocks hdrop, hmod, show encodedBlockSize 8 = 11 from rfl]
    ring

theorem decodeBlocks_encodeBlocks : ∀ {n : Nat} {data : Bytes}, data.length / 8 = n →
    decodeBlocks n (encodeBlocks n data) = some data
  | 0, data, h => by
    cases data with
    | nil => rfl
    | cons b data =>
      have hle : (b :: data).length ≤ 8 := by omega
      have hne : ¬ (encodeBlock (b :: data)).isEmpty = true := by
        rw [isEmpty_iff_length_eq_zero, length_encodeBlock hle]
        exact (by decide : ∀ size ≤ 8, size ≠ 0 → encodedBlockSize size ≠ 0) _ hle (by simp)
      rw [encodeBlocks, if_neg (by simp), decodeBlocks, if_neg hne,
        decodeBlock_encodeBlock (by simp) hle]
  | n + 1, data, h => by
    have htake : (data.take 8).length = 8 := by rw [length_take]; omega
    have hdrop : (data.drop 8).length / 8 = n := by rw [length_drop]; omega
    have hlen : (encodeBlock (data.take 8)).length = 11 := by
      rw [length_encodeBlock (by omega), htake]
      rfl
    have hne : data.take 8 ≠ [] := fun hc => by simp [hc] at htake
    rw [encodeBlocks, decodeBlocks, take_left' hlen, drop_left' hlen,
      decodeBlock_encodeBlock hne (by omega), decodeBlocks_encodeBlocks hdrop]
    simp

/-- **What is encoded is decoded again.** -/
theorem decode_encode (data : Bytes) : decode (encode data) = some data := by
  have hlen : (encodeBlocks (data.length / 8) data).length =
      11 * (data.length / 8) + encodedBlockSize (data.length % 8) := length_encodeBlocks rfl
  have hlt := encodedBlockSize_lt (data.length % 8) (Nat.mod_lt _ (by decide))
  have hdiv : (encodeBlocks (data.length / 8) data).length / 11 = data.length / 8 := by omega
  have hmod : (encodeBlocks (data.length / 8) data).length % 11 =
      encodedBlockSize (data.length % 8) := by omega
  have hblocks : decodeBlocks (data.length / 8) (encodeBlocks (data.length / 8) data) = some data :=
    decodeBlocks_encodeBlocks rfl
  unfold decode encode
  rw [hdiv, hmod, decodedBlockSize_encodedBlockSize _ (by omega)]
  split
  · rename_i hempty
    rw [List.isEmpty_iff] at hempty
    rw [hempty] at hblocks hdiv
    rw [← hdiv] at hblocks
    exact hblocks
  · exact hblocks

theorem encodeBlocks_decodeBlocks : ∀ {n : Nat} {enc data : Bytes}, enc.length / 11 = n →
    decodeBlocks n enc = some data → data.length / 8 = n ∧ encodeBlocks n data = enc
  | 0, enc, data, hn, h => by
    rw [decodeBlocks] at h
    by_cases hempty : enc.isEmpty = true
    · rw [if_pos hempty, Option.some.injEq] at h
      rw [List.isEmpty_iff] at hempty
      subst h hempty
      exact ⟨rfl, rfl⟩
    rw [if_neg hempty] at h
    obtain ⟨henc, hne, hsize⟩ := encodeBlock_decodeBlock h
    obtain ⟨h8, hle⟩ := encodedBlockSize_of_decodedBlockSize hsize
    have hlt : data.length ≠ 8 := fun hc => by
      rw [hc, show encodedBlockSize 8 = 11 from rfl] at hle
      omega
    refine ⟨by omega, ?_⟩
    rw [encodeBlocks, if_neg (by simpa using hne), henc]
  | n + 1, enc, data, hn, h => by
    have htake : (enc.take 11).length = 11 := by rw [length_take]; omega
    have hdrop : (enc.drop 11).length / 11 = n := by rw [length_drop]; omega
    rw [decodeBlocks] at h
    cases hb : decodeBlock (enc.take 11) with
    | none => simp [hb] at h
    | some block =>
      simp only [hb, Option.map_eq_some_iff] at h
      obtain ⟨rest, hrest, rfl⟩ := h
      obtain ⟨henc, -, hsize⟩ := encodeBlock_decodeBlock hb
      rw [htake] at hsize
      have h8 : block.length = 8 :=
        Option.some.inj (hsize.symm.trans (by decide : decodedBlockSize 11 = some 8))
      obtain ⟨hlen, hblocks⟩ := encodeBlocks_decodeBlocks hdrop hrest
      refine ⟨by rw [length_append]; omega, ?_⟩
      rw [encodeBlocks, take_left' h8, drop_left' h8, henc, hblocks, take_append_drop]

/-- **What is decoded is what was encoded.** -/
theorem encode_decode {enc : Bytes} (h : decode enc = some data) : encode data = enc := by
  unfold decode at h
  by_cases hempty : enc.isEmpty = true
  · rw [if_pos hempty, Option.some.injEq] at h
    rw [List.isEmpty_iff] at hempty
    subst h hempty
    rfl
  · rw [if_neg hempty] at h
    split at h
    · simp at h
    obtain ⟨hlen, hblocks⟩ := encodeBlocks_decodeBlocks rfl h
    rw [encode, hlen, hblocks]

/-! ## Addresses -/

section Addr

variable (cnFastHash : Bytes → Hash)

/-- `encode_addr`, with `addr_checksum_size`. -/
def encodeAddr (tag : Nat) (data : Bytes) : Bytes :=
  let buf := writeVarint tag ++ data
  encode (buf ++ (cnFastHash buf).1.take 4)

/-- `decode_addr`: the tag and the data. -/
def decodeAddr (addr : Bytes) : Option (Nat × Bytes) :=
  match decode addr with
  | none => none
  | some addrData =>
    if addrData.length ≤ 4 then none
    else
      let checksum := addrData.drop (addrData.length - 4)
      let body := addrData.take (addrData.length - 4)
      if (cnFastHash body).1.take 4 ≠ checksum then none
      else
        match readVarint false 64 body with
        | .error _ => none
        -- `read` is the number of bytes taken off the body
        | .ok (tag, data) => if data.length = body.length then none else some (tag, data)

theorem decodeAddr_encodeAddr {tag : Nat} (htag : tag < 2 ^ 64) (data : Bytes) :
    decodeAddr cnFastHash (encodeAddr cnFastHash tag data) = some (tag, data) := by
  have hne := length_pos_iff.mpr (writeVarint_ne_nil tag)
  have hsum : ((cnFastHash (writeVarint tag ++ data)).1.take 4).length = 4 := by
    rw [length_take, (cnFastHash (writeVarint tag ++ data)).2]
    rfl
  have hcut : (writeVarint tag ++ data ++ (cnFastHash (writeVarint tag ++ data)).1.take 4).length -
      4 = (writeVarint tag ++ data).length := by
    rw [length_append, hsum, Nat.add_sub_cancel]
  unfold decodeAddr encodeAddr
  rw [decode_encode]
  dsimp only
  rw [if_neg (by simp only [length_append]; omega), hcut, take_left, drop_left,
    if_neg (by simp), readVarint_writeVarint htag]
  dsimp only
  rw [if_neg (by rw [length_append]; omega)]

/-- An address whose data is not empty is the one that is encoded from its tag and data. -/
theorem encodeAddr_decodeAddr {addr : Bytes} {tag : Nat}
    (h : decodeAddr cnFastHash addr = some (tag, data)) (hne : data ≠ []) :
    tag < 2 ^ 64 ∧ encodeAddr cnFastHash tag data = addr := by
  unfold decodeAddr at h
  cases hd : decode addr with
  | none => simp [hd] at h
  | some addrData =>
    simp only [hd] at h
    split at h
    · simp at h
    split at h
    · simp at h
    rename_i hsum
    rw [not_not] at hsum
    split at h
    · simp at h
    rename_i tag' data' hread
    split at h
    · simp at h
    obtain ⟨rfl, rfl⟩ := h
    obtain ⟨htag, hbody⟩ := writeVarint_readVarint (by decide) (readVarintLoop_strict hread hne)
    refine ⟨htag, ?_⟩
    unfold encodeAddr
    dsimp only
    rw [← hbody, hsum, take_append_drop, encode_decode hd]

/-- **Base58 loses nothing**: what is encoded is decoded again, every accepted string is the
encoding of its result, and a tagged address gives back its tag and data. -/
theorem base58_round_trips :
    (∀ data, decode (encode data) = some data) ∧
    (∀ enc data, decode enc = some data → encode data = enc) ∧
    ∀ (tag : UInt64) (data : Bytes),
      decodeAddr cnFastHash (encodeAddr cnFastHash tag.toNat data) = some (tag.toNat, data) :=
  ⟨decode_encode, fun _ _ => encode_decode,
    fun tag => decodeAddr_encodeAddr cnFastHash tag.toNat_lt⟩

end Addr

end Hashmonkey.Common
