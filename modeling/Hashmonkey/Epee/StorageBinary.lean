import Hashmonkey.Epee.Storage

/-!
# Portable storage in binary

A model of `pack_entry_to_buff` (`portable_storage_to_bin.h`) and `throwable_buffer_reader`
(`portable_storage_from_bin.h`), and of `store_to_binary` and `load_from_binary` around them.

* A writer throws on a name that is empty or longer than 254 bytes, and on a count that has no
  varint; `none` stands for that.
* Every function of the reader counts how deep it is nested and throws at 100
  (`RECURSION_LIMITATION`). Here each takes the number of nested calls that are still allowed, one
  less at every call, and fails when there is none left.
* The reader counts objects, fields and strings against limits, which are `SIZE_MAX` where the
  caller gives none.
-/

namespace Hashmonkey.Epee

open Lib

/-! ## The writer -/

/-- `pack_varint`: the two lowest bits say how many bytes there are. -/
def packVarint (val : ℕ) : Option Bytes :=
  if val ≤ 63 then some (toLE 1 (val * 4))
  else if val ≤ 16383 then some (toLE 2 (val * 4 + 1))
  else if val ≤ 1073741823 then some (toLE 4 (val * 4 + 2))
  else if val < 2 ^ 62 then some (toLE 8 (val * 4 + 3))
  else none

/-- A count and what it counts. -/
def packCounted (count : ℕ) (body : Option Bytes) : Option Bytes := do
  let n ← packVarint count
  let bs ← body
  return n ++ bs

/-- `put_string`. -/
def putString (v : Bytes) : Option Bytes := packCounted v.length (some v)

/-- The elements of `array_entry_t<std::string>`. -/
def packStrings : List Bytes → Option Bytes
  | [] => some []
  | v :: vs => do
    let b ← putString v
    let bs ← packStrings vs
    return b ++ bs

/-- A plain value. -/
def packPod (t : PodType) (v : t.Val) : Bytes := toLE t.size v

/-- A type code in front of an entry. -/
def withType (code : ℕ) (body : Option Bytes) : Option Bytes :=
  body.map fun bs => UInt8.ofNat code :: bs

mutual

/-- The fields of `pack_entry_to_buff` for a section. -/
def packFields : Section → Option Bytes
  | .nil => some []
  | .cons name entry rest => do
    guard (name.length < 255)
    guard (name ≠ [])
    let e ← packEntry entry
    let bs ← packFields rest
    return UInt8.ofNat name.length :: (name ++ (e ++ bs))

/-- `pack_entry_to_buff` for an entry. -/
def packEntry : StorageEntry → Option Bytes
  | .pod t v => withType t.code (some (packPod t v))
  | .string v => withType typeString (putString v)
  | .object s => withType typeObject (packCounted s.length (packFields s))
  | .array a => packArray a

/-- `pack_entry_to_buff` for an array. -/
def packArray : ArrayEntry → Option Bytes
  | .pods t vs =>
    withType (t.code + flagArray) (packCounted vs.length (some (vs.flatMap (packPod t))))
  | .strings vs => withType (typeString + flagArray) (packCounted vs.length (packStrings vs))
  | .objects vs => withType (typeObject + flagArray) (packCounted vs.length (packObjects vs))
  | .arrays vs => withType (typeArray + flagArray) (packCounted vs.length (packArrays vs))

/-- The elements of `array_entry_t<section>`. -/
def packObjects : List Section → Option Bytes
  | [] => some []
  | s :: vs => do
    let b ← packCounted s.length (packFields s)
    let bs ← packObjects vs
    return b ++ bs

/-- The elements of `array_entry_t<array_entry>`. -/
def packArrays : List ArrayEntry → Option Bytes
  | [] => some []
  | a :: vs => do
    let b ← packArray a
    let bs ← packArrays vs
    return b ++ bs

end

/-- `pack_entry_to_buff` for a section. -/
def packSection (s : Section) : Option Bytes := packCounted s.length (packFields s)

/-- `storage_block_header`. -/
def storageHeader : Bytes := toLE 4 0x01011101 ++ toLE 4 0x01020101 ++ toLE 1 1

/-- `store_to_binary`. -/
def storeToBinary (root : Section) : Option Bytes := (packSection root).map (storageHeader ++ ·)

/-! ## The reader -/

/-- `limits_t`. -/
structure Limits where
  nObjects : ℕ
  nFields : ℕ
  nStrings : ℕ

/-- The limits of a caller that gives none. -/
def Limits.unlimited : Limits := ⟨2 ^ 64 - 1, 2 ^ 64 - 1, 2 ^ 64 - 1⟩

/-- What a `throwable_buffer_reader` has left to read, and its counts. -/
structure ReadState where
  bytes : Bytes
  objects : ℕ
  fields : ℕ
  strings : ℕ

/-- A read that can throw. -/
abbrev Read := StateT ReadState Option

/-- `MAX_STRING_LEN_POSSIBLE`. -/
def maxStringLen : ℕ := 2000000000

/-- The next bytes, which the caller knows to be there. -/
def takeBytes (count : ℕ) : Read Bytes := do
  let s ← get
  guard (count ≤ s.bytes.length)
  set { s with bytes := s.bytes.drop count }
  return s.bytes.take count

/-- `read(void*, size_t)`. -/
def readRaw (count : ℕ) : ℕ → Read Bytes
  | 0 => failure
  | _ + 1 => takeBytes count

/-- `read(t_pod_type&)`; only a `bool` can have bytes that are no value of its type. -/
def readPod (t : PodType) : ℕ → Read t.Val
  | 0 => failure
  | k + 1 => do
    let bs ← readRaw t.size k
    if h : ofLE bs < t.bound then return ⟨ofLE bs, h⟩ else failure

/-- One more nested call: `read<t_type>()` around a `read`, and `read_se`. -/
def readTyped {α : Type} (r : ℕ → Read α) : ℕ → Read α
  | 0 => failure
  | k + 1 => r k

/-- The type whose size a varint's first byte announces. -/
def varintType (b : UInt8) : PodType :=
  if b.toNat % 4 = 0 then .uint8
  else if b.toNat % 4 = 1 then .uint16
  else if b.toNat % 4 = 2 then .uint32
  else .uint64

/-- `read_varint`. -/
def readVarint : ℕ → Read ℕ
  | 0 => failure
  | k + 1 => do
    match (← get).bytes with
    | [] => failure
    | b :: _ =>
      let v ← readTyped (readPod (varintType b)) k
      return v.val / 4

/-- `read_sec_name`. -/
def readSecName : ℕ → Read Bytes
  | 0 => failure
  | k + 1 => do
    let len ← readPod .uint8 k
    guard (len.val ≠ 0)
    readRaw len.val k

/-- `read(std::string&)`. -/
def readString : ℕ → Read Bytes
  | 0 => failure
  | k + 1 => do
    let len ← readVarint k
    guard (len < maxStringLen)
    takeBytes len

/-- `read(array_entry&)`: not supported. -/
def readArrayEntry (_ : ℕ) : Read ArrayEntry := failure

/-- More objects. -/
def countObjects (l : Limits) (n : ℕ) : Read Unit := do
  let s ← get
  guard (n ≤ l.nObjects - s.objects)
  set { s with objects := s.objects + n }

/-- More fields. -/
def countFields (l : Limits) (n : ℕ) : Read Unit := do
  let s ← get
  guard (n ≤ l.nFields - s.fields)
  set { s with fields := s.fields + n }

/-- More strings. -/
def countStrings (l : Limits) (n : ℕ) : Read Unit := do
  let s ← get
  guard (n ≤ l.nStrings - s.strings)
  set { s with strings := s.strings + n }

/-- A number of elements. -/
def readMany {α : Type} (r : Read α) : ℕ → Read (List α)
  | 0 => return []
  | n + 1 => do
    let v ← r
    let vs ← readMany r n
    return v :: vs

/-- The body of `read_ae`: a size, which has to be possible for elements of at least `minBytes`
bytes (`ps_min_bytes`), and the elements. -/
def readElements {α : Type} (minBytes : ℕ) (count : ℕ → Read Unit) (k : ℕ) (r : Read α) :
    Read (List α) := do
  let size ← readVarint k
  guard (size ≤ (← get).bytes.length / minBytes)
  count size
  readMany r size

/-- `read_ae`. -/
def readAe {α : Type} (minBytes : ℕ) (count : ℕ → Read Unit) (r : ℕ → Read α) : ℕ → Read (List α)
  | 0 => failure
  | k + 1 => readElements minBytes count k (readTyped r k)

/-- The type of a type code. -/
def PodType.ofCode : ℕ → Option PodType
  | 1 => some int64
  | 2 => some int32
  | 3 => some int16
  | 4 => some int8
  | 5 => some uint64
  | 6 => some uint32
  | 7 => some uint16
  | 8 => some uint8
  | 9 => some double
  | 11 => some bool
  | _ => none

/-- `read_se<std::string>`. -/
def readSeString (l : Limits) : ℕ → Read Bytes
  | 0 => failure
  | k + 1 => do
    countStrings l 1
    readTyped readString k

/-- The loop of `read(section&)`. -/
def readFields (name : Read Bytes) (entry : Read StorageEntry) : ℕ → Section → Read Section
  | 0, sec => return sec
  | n + 1, sec => do
    let secName ← name
    guard (sec.find secName).isNone
    let e ← entry
    readFields name entry n (sec.set secName e)

mutual

/-- `read(section&)`. -/
def readSection (l : Limits) : ℕ → Read Section
  | 0 => failure
  | k + 1 => do
    let count ← readVarint k
    countFields l count
    readFields (readSecName k) (loadStorageEntry l k) count .nil

/-- `read_se<section>`. -/
def readSeSection (l : Limits) : ℕ → Read StorageEntry
  | 0 => failure
  | k + 1 => do
    countObjects l 1
    let s ← readSection l k
    return .object s

/-- `read<section>()`. -/
def readTypedSection (l : Limits) : ℕ → Read Section
  | 0 => failure
  | k + 1 => readSection l k

/-- `read_ae<section>`. -/
def readAeSection (l : Limits) : ℕ → Read (List Section)
  | 0 => failure
  | k + 1 => readElements 1 (countObjects l) k (readTypedSection l k)

/-- `load_storage_array_entry`. -/
def loadStorageArrayEntry (l : Limits) : ℕ → ℕ → Read StorageEntry
  | 0, _ => failure
  | k + 1, type => do
    match PodType.ofCode (type % flagArray) with
    | some t => do
      let vs ← readAe t.size (fun _ => pure ()) (readPod t) k
      return .array (.pods t vs)
    | none =>
      if type % flagArray = typeString then
        let vs ← readAe 2 (countStrings l) readString k
        return .array (.strings vs)
      else if type % flagArray = typeObject then
        let vs ← readAeSection l k
        return .array (.objects vs)
      else if type % flagArray = typeArray then
        let vs ← readAe 1 (fun _ => pure ()) readArrayEntry k
        return .array (.arrays vs)
      else failure

/-- `read_se<array_entry>`. -/
def readSeArray (l : Limits) : ℕ → Read StorageEntry
  | 0 => failure
  | k + 1 => do
    let entType ← readPod .uint8 k
    guard (flagArray ≤ entType.val)
    loadStorageArrayEntry l k entType.val

/-- `load_storage_entry`. -/
def loadStorageEntry (l : Limits) : ℕ → Read StorageEntry
  | 0 => failure
  | k + 1 => do
    let entType ← readPod .uint8 k
    if flagArray ≤ entType.val then loadStorageArrayEntry l k entType.val
    else
      match PodType.ofCode entType.val with
      | some t => do
        let v ← readTyped (readPod t) k
        return .pod t v
      | none =>
        if entType.val = typeString then
          let v ← readSeString l k
          return .string v
        else if entType.val = typeObject then readSeSection l k
        else if entType.val = typeArray then readSeArray l k
        else failure

end

/-- `EPEE_PORTABLE_STORAGE_RECURSION_LIMIT`. -/
def recursionLimit : ℕ := 100

/-- `load_from_binary`. The reader refuses an empty buffer when it is made. -/
def loadFromBinary (l : Limits) (source : Bytes) : Option Section := do
  guard (storageHeader.length ≤ source.length)
  guard (source.take storageHeader.length = storageHeader)
  let body := source.drop storageHeader.length
  guard (body ≠ [])
  let r ← (readSection l (recursionLimit - 1)).run ⟨body, 0, 0, 0⟩
  return r.1

end Hashmonkey.Epee
