import Hashmonkey.Core.MainChain

/-!
# The proof-of-work hash (`cryptonote_tx_utils.cpp`)

The main chain and the alternative chains compute the proof of work of a block with functions of
their own, `get_block_longhash` and `get_altblock_longhash`. RandomX (`rx_slow_hash`, with a seed)
and CryptoNight (`cn_slow_hash`, with a variant and a height) are parameters.

* `getBlockLonghashOf`: the hash of a hashing blob, by height and version;
* `getBlockLonghash`: the same for a block, with the seed of its epoch unless one is given;
* `getAltblockLonghash`: RandomX of the hashing blob, whatever the height.

Results: **from version 12 on both give the RandomX hash under the same seed**, at every height but
202612 (`longhash_paths_eq`). The hash of that height is fixed on the main chain
(`longhash_202612_differs`).
-/

namespace Hashmonkey.Core

open Basic

/-- The hash functions of the proof of work. -/
structure PowHashes where
  rxSlowHash : Hash → Bytes → Hash
  /-- `cn_slow_hash` with the variant and the height -/
  cnSlowHash : Bytes → Nat → Nat → Hash

variable (h : PowHashes) (cnFastHash : Bytes → Hash)

/-- `longhash_202612`. -/
def longhash202612 : Hash :=
  ⟨[0x84, 0xf6, 0x47, 0x66, 0x47, 0x5d, 0x51, 0x83, 0x7a, 0xc9, 0xef, 0xbe, 0xf1, 0x92, 0x64, 0x86,
    0xe5, 0x85, 0x63, 0xc9, 0x5a, 0x19, 0xfe, 0xf4, 0xae, 0xc3, 0x25, 0x4f, 0x03, 0x00, 0x00, 0x00],
    rfl⟩

/-- `RX_BLOCK_VERSION`. -/
def rxBlockVersion : UInt8 := 12

/-- `get_block_longhash` of a hashing blob. -/
def getBlockLonghashOf (blob : Bytes) (height : Nat) (majorVersion : UInt8) (seedHash : Hash) :
    Hash :=
  if height = 202612 then longhash202612
  else if majorVersion ≥ rxBlockVersion then h.rxSlowHash seedHash blob
  else
    -- `HF_VERSION_CRYPTONIGHT_VARIANT_1` is 7
    let powVariant := if majorVersion ≥ 7 then majorVersion.toNat - 6 else 0
    h.cnSlowHash blob powVariant height

/-- The seed of `get_block_longhash`: the one that is given, or the id of the seed block on the
chain of `pbc`. -/
def longhashSeed (pbc : Option (Nat → Hash)) (height : Nat) (majorVersion : UInt8)
    (seedHash : Option Hash) : Hash :=
  match pbc with
  | none => nullHash
  | some getPendingBlockIdByHeight =>
    if majorVersion ≥ rxBlockVersion then
      seedHash.getD (getPendingBlockIdByHeight (rxSeedheight height))
    else nullHash

/-- `get_block_longhash(pbc, b, height, seed_hash)`. -/
def getBlockLonghash (pbc : Option (Nat → Hash)) (b : Block) (height : Nat)
    (seedHash : Option Hash) : Option Hash :=
  (getBlockHashingBlob cnFastHash b).map fun blob =>
    getBlockLonghashOf h blob height b.majorVersion
      (longhashSeed pbc height b.majorVersion seedHash)

/-- `get_altblock_longhash`. -/
def getAltblockLonghash (b : Block) (seedHash : Hash) : Option Hash :=
  (getBlockHashingBlob cnFastHash b).map (h.rxSlowHash seedHash)

variable {h cnFastHash}

/-- **The two paths compute one hash** from version 12 on, at every height but 202612: the RandomX
hash of the hashing blob, whether the main chain is given the seed or looks it up. A block meets a
difficulty on one path exactly when it does on the other. -/
theorem longhash_paths_eq (h : PowHashes) (cnFastHash : Bytes → Hash) (b : Block)
    (hv : b.majorVersion ≥ rxBlockVersion) (height : Nat) (hh : height ≠ 202612) (seed : Hash)
    (ids : Nat → Hash) (given : Option Hash)
    (hseed : given.getD (ids (rxSeedheight height)) = seed) :
    getBlockLonghash h cnFastHash (some ids) b height given =
        (getBlockHashingBlob cnFastHash b).map (h.rxSlowHash seed) ∧
      getAltblockLonghash h cnFastHash b seed =
        (getBlockHashingBlob cnFastHash b).map (h.rxSlowHash seed) ∧
      ∀ difficulty,
        (getBlockLonghash h cnFastHash (some ids) b height given).any (checkHash · difficulty) =
          (getAltblockLonghash h cnFastHash b seed).any (checkHash · difficulty) := by
  have hmain : getBlockLonghash h cnFastHash (some ids) b height given =
      (getBlockHashingBlob cnFastHash b).map (h.rxSlowHash seed) := by
    unfold getBlockLonghash
    congr 1
    funext blob
    rw [longhashSeed, if_pos hv, hseed, getBlockLonghashOf, if_neg hh, if_pos hv]
  refine ⟨hmain, rfl, fun difficulty => ?_⟩
  rw [hmain]
  rfl

/-- Concrete functions in the place of RandomX and CryptoNight, for examples: no hash meets a
difficulty above one. -/
def sampleHashes : PowHashes := ⟨fun _ _ => Blob.fill 255, fun _ _ _ => Blob.fill 255⟩

/-- A block of version 16 at height 3000. -/
theorem longhash_paths_eq_sample :
    ∃ blob, getBlockHashingBlob sumHash Basic.sampleBlock = some blob ∧
      getBlockLonghash sampleHashes sumHash (some fun _ => Blob.fill 5) Basic.sampleBlock 3000
        none = some (sampleHashes.rxSlowHash (Blob.fill 5) blob) := by
  have hblob : (getBlockHashingBlob sumHash Basic.sampleBlock).isSome := by decide
  obtain ⟨blob, hb⟩ := Option.isSome_iff_exists.mp hblob
  refine ⟨blob, hb, ?_⟩
  rw [(longhash_paths_eq sampleHashes sumHash Basic.sampleBlock (by decide) 3000 (by decide)
    (Blob.fill 5) (fun _ => Blob.fill 5) none rfl).1, hb]
  rfl

/-- **The height 202612 has a fixed hash on the main chain only**: a block of version 16 meets the
difficulty `2 ^ 29` there with any nonce, while the alternative path asks for its RandomX hash. -/
theorem longhash_202612_differs :
    (getBlockLonghash sampleHashes sumHash (some fun _ => Blob.fill 5) Basic.sampleBlock 202612
        none).any (checkHash · (2 ^ 29)) = true ∧
      (getAltblockLonghash sampleHashes sumHash Basic.sampleBlock (Blob.fill 5)).any
        (checkHash · (2 ^ 29)) = false := by
  decide

end Hashmonkey.Core
