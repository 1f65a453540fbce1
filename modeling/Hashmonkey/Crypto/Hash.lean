import Mathlib.Algebra.GroupWithZero.Nat
import Mathlib.Data.List.Basic

/-!
# Byte strings, fixed-size blobs and hashes

`crypto::hash`, `crypto::public_key`, `crypto::key_image`, `rct::key` are plain 32-byte arrays
(`src/crypto/hash.h`, `src/crypto/crypto.h`, `src/ringct/rctTypes.h`); `crypto::signature` has 64
bytes, `crypto::hash8` has 8. All are `Blob n`, a byte list that carries its length.

`cn_fast_hash` (Keccak, `src/crypto/hash.c`) is a parameter `cnFastHash : Bytes → Hash` of what
follows: nothing here depends on how it computes.
-/

namespace Hashmonkey

/-- A byte string (`blobdata`, `std::string`, a memory range). -/
abbrev Bytes := List UInt8

/-- The bytes of a text in ASCII. -/
def asciiBytes (text : String) : Bytes := text.toList.map fun (ch : Char) => UInt8.ofNat ch.toNat

/-- A fact about every byte can be checked on the 256 values. -/
theorem forall_byte {p : UInt8 → Prop} (h : ∀ n : Fin 256, p (.ofNat n)) (b : UInt8) :
    p b := by
  have hb := h ⟨b.toNat, b.toNat_lt⟩
  rwa [UInt8.ofNat_toNat] at hb

/-- A blob of exactly `n` bytes. -/
abbrev Blob (n : Nat) := { l : Bytes // l.length = n }

/-- `n` copies of one byte. -/
def Blob.fill {n : Nat} (b : UInt8) : Blob n := ⟨List.replicate n b, List.length_replicate⟩

theorem Blob.length_pad (h : Blob 8) : (h.1 ++ List.replicate 24 0).length = 32 := by
  rw [List.length_append, h.2, List.length_replicate]

/-- `crypto::hash`. -/
abbrev Hash := Blob 32

instance : LawfulBEq Hash := inferInstance

/-- `crypto::null_hash`. -/
def nullHash : Hash := Blob.fill 0

/-- A concrete function in the place of `cn_fast_hash`, for examples: 32 copies of the byte sum. -/
def sumHash (bs : Bytes) : Hash := Blob.fill (bs.foldl (· + ·) 0)

theorem Blob.append_inj {n m : Nat} {a a' : Blob n} {b b' : Blob m}
    (h : a.1 ++ b.1 = a'.1 ++ b'.1) : a = a' ∧ b = b' := by
  obtain ⟨ha, hb⟩ := List.append_inj h (a.2.trans a'.2.symm)
  exact ⟨Subtype.ext ha, Subtype.ext hb⟩

end Hashmonkey
