import Hashmonkey.Basic.Transaction
import Hashmonkey.Common.Base58
import Hashmonkey.Crypto.CheckKey

/-!
# Addresses as strings (`cryptonote_basic/cryptonote_basic_impl.cpp`)

* `getAccountAddressAsStr`, `getAccountIntegratedAddressAsStr`: the base58 form of an address, with
  a tag that tells the network and the kind of address.
* `getAccountAddressFromStr`: the parser. A string of 132 characters is taken for the old format:
  hexadecimal digits of a version byte, the two keys and a sum of the bytes, with no tag.
* `getConfig`: the tags of the networks. Each is one byte as a varint (`getConfig_spec`).

The parser fills an `address_parse_info` in place and leaves `payment_id` alone when the address has
none, so it takes the object it fills. A function that returns `false` or throws is `none`. The
check of the keys is that of `Crypto/CheckKey`, and the hash behind the check sum of base58 is a
parameter.

Results: **`account_address_round_trip`**, all three forms of an address are parsed back, and
**`getAccountAddressFromStr_accepts`**, what the parser accepts. In the old format that is an
address of any network, with keys that are not checked (`old_format_untagged`).
-/

namespace Hashmonkey.Basic

open Lib Serialization Common Crypto

/-! ## Data -/

/-- `account_public_address`. -/
structure AccountPublicAddress where
  spendPublicKey : PublicKey
  viewPublicKey : PublicKey
  deriving DecidableEq

/-- `address_parse_info`. -/
structure AddressParseInfo where
  address : AccountPublicAddress
  isSubaddress : Bool
  hasPaymentId : Bool
  paymentId : Blob 8
  deriving DecidableEq

/-- `network_type`. -/
inductive NetworkType
  | mainnet
  | testnet
  | stagenet
  | fakechain
  | undefined
  deriving DecidableEq

/-- The address tags of `config_t`. -/
structure AddressConfig where
  publicAddressPrefix : Nat
  publicIntegratedAddressPrefix : Nat
  publicSubaddressPrefix : Nat

/-- `get_config`, which throws on an undefined network. -/
def getConfig : NetworkType → Option AddressConfig
  | .mainnet => some ⟨48, 49, 50⟩
  | .testnet => some ⟨53, 54, 63⟩
  | .stagenet => some ⟨24, 25, 36⟩
  | .fakechain => some ⟨48, 49, 50⟩
  | .undefined => none

/-- `account_public_address`, serialised. -/
def accountPublicAddress : Codec UInt8 AccountPublicAddress :=
  ((blob 32).seq (blob 32)).map (fun (spend, view) => ⟨spend, view⟩)
    (fun a => some (a.spendPublicKey, a.viewPublicKey)) fun a _ hw => ⟨a, rfl, hw⟩

/-- `integrated_address`, serialised. -/
def integratedAddress : Codec UInt8 (AccountPublicAddress × Blob 8) :=
  accountPublicAddress.seq (blob 8)

/-- `serialization::parse_binary`: the whole blob is read. -/
def parseBinary {α : Type} (c : Codec UInt8 α) (data : Bytes) : Option α :=
  match c.read false data with
  | some (a, []) => some a
  | _ => none

/-! ## The old format -/

/-- `isx`: the value of a hexadecimal digit. -/
def hexDigit (c : UInt8) : Option UInt8 :=
  if 48 ≤ c ∧ c ≤ 57 then some (c - 48)
  else if 65 ≤ c ∧ c ≤ 70 then some (c - 55)
  else if 97 ≤ c ∧ c ≤ 102 then some (c - 87)
  else none

/-- `parse_hexstr_to_binbuff`. -/
def parseHexstrToBinbuff : Bytes → Option Bytes
  | [] => some []
  | [_] => none
  | hi :: lo :: rest =>
    match hexDigit hi, hexDigit lo with
    | some h, some l => (parseHexstrToBinbuff rest).map (((h <<< 4) ||| l) :: ·)
    | _, _ => none

/-- `public_address_outer_blob`: a version, the two keys and a check sum. -/
def publicAddressOuterBlob : Codec UInt8 (UInt8 × AccountPublicAddress × UInt8) :=
  uint8.seq (accountPublicAddress.seq uint8)

/-- `get_account_address_checksum`, of the bytes before the check sum. -/
def getAccountAddressChecksum (buff : Bytes) : UInt8 := (buff.take 65).foldl (· + ·) 0

/-- The branch of `get_account_address_from_str` for the old format, with
`CRYPTONOTE_PUBLIC_ADDRESS_TEXTBLOB_VER`. -/
def oldAddress (str : Bytes) : Option AccountPublicAddress :=
  match parseHexstrToBinbuff str with
  | none => none
  | some buff =>
    match parseBinary publicAddressOuterBlob buff with
    | none => none
    | some (ver, address, checkSum) =>
      if ver > 0 then none
      else if checkSum ≠ getAccountAddressChecksum buff then none
      else some address

/-! ## Strings -/

section Strings

variable (cnFastHash : Bytes → Hash)

/-- `get_account_address_as_str`. -/
def getAccountAddressAsStr (nettype : NetworkType) (subaddress : Bool)
    (adr : AccountPublicAddress) : Option Bytes :=
  (getConfig nettype).map fun c =>
    encodeAddr cnFastHash (if subaddress then c.publicSubaddressPrefix else c.publicAddressPrefix)
      (accountPublicAddress.write adr).1

/-- `get_account_integrated_address_as_str`. -/
def getAccountIntegratedAddressAsStr (nettype : NetworkType) (adr : AccountPublicAddress)
    (paymentId : Blob 8) : Option Bytes :=
  (getConfig nettype).map fun c =>
    encodeAddr cnFastHash c.publicIntegratedAddressPrefix
      (integratedAddress.write (adr, paymentId)).1

/-- The base58 branch of `get_account_address_from_str`, up to the check of the keys. -/
def base58Address (c : AddressConfig) (info : AddressParseInfo) (str : Bytes) :
    Option AddressParseInfo :=
  match decodeAddr cnFastHash str with
  | none => none
  | some (tag, data) =>
    if c.publicIntegratedAddressPrefix = tag then
      (parseBinary integratedAddress data).map fun (address, paymentId) =>
        { address, paymentId, isSubaddress := false, hasPaymentId := true }
    else if c.publicAddressPrefix = tag then
      (parseBinary accountPublicAddress data).map fun address =>
        { info with address, isSubaddress := false, hasPaymentId := false }
    else if c.publicSubaddressPrefix = tag then
      (parseBinary accountPublicAddress data).map fun address =>
        { info with address, isSubaddress := true, hasPaymentId := false }
    else none

/-- `get_account_address_from_str`. -/
def getAccountAddressFromStr (info : AddressParseInfo) (nettype : NetworkType) (str : Bytes) :
    Option AddressParseInfo :=
  match getConfig nettype with
  | none => none
  | some c =>
    if 2 * 66 ≠ str.length then
      match base58Address cnFastHash c info str with
      | none => none
      | some info =>
        if !checkKey info.address.spendPublicKey || !checkKey info.address.viewPublicKey then none
        else some info
    else
      (oldAddress str).map fun address =>
        { info with address, isSubaddress := false, hasPaymentId := false }

/-- The string that `address_parse_info` is encoded as. -/
def addressAsStr (nettype : NetworkType) (info : AddressParseInfo) : Option Bytes :=
  if info.hasPaymentId then
    getAccountIntegratedAddressAsStr cnFastHash nettype info.address info.paymentId
  else getAccountAddressAsStr cnFastHash nettype info.isSubaddress info.address

/-- The string is base58 of one of the address tags of the network and some data. -/
def CarriesTag (nettype : NetworkType) (str : Bytes) : Prop :=
  ∃ c tag data, getConfig nettype = some c ∧ decodeAddr cnFastHash str = some (tag, data) ∧
    tag ∈ [c.publicAddressPrefix, c.publicIntegratedAddressPrefix, c.publicSubaddressPrefix]

/-! ## Parsing what is written -/

variable {α : Type} {c : Codec UInt8 α} {a : α}

theorem parseBinary_write (hc : c.Exact) {bs : Bytes}
    (h : c.write a = (bs, true)) : parseBinary c bs = some a := by
  have hread := c.read_write h false []
  rw [List.append_nil, hc a] at hread
  rw [parseBinary, hread]

/-- A codec whose reader is strict parses only what it writes. -/
theorem write_parseBinary (hstrict : c.read false = c.read true)
    {data : Bytes} (h : parseBinary c data = some a) : c.write a = (data, true) := by
  unfold parseBinary at h
  split at h
  · rename_i a' hread
    cases h
    rw [hstrict] at hread
    obtain ⟨bs, hbs, rfl⟩ := c.write_read hread
    rw [List.append_nil]
    exact hbs
  · simp at h

theorem accountPublicAddress_exact : accountPublicAddress.Exact :=
  Codec.Exact.map (Codec.Exact.seq (blob_exact 32) (blob_exact 32))
    fun a => ⟨(a.spendPublicKey, a.viewPublicKey), rfl, rfl⟩

theorem accountPublicAddress_size : accountPublicAddress.Size fun _ => 64 := by
  refine Codec.Size.map ((blob_size 32).seq (blob_size 32)) ?_
  rintro a _ ⟨⟩
  rfl

theorem accountPublicAddress_write (adr : AccountPublicAddress) :
    accountPublicAddress.write adr = ((accountPublicAddress.write adr).1, true) := rfl

theorem integratedAddress_write (a : AccountPublicAddress × Blob 8) :
    integratedAddress.write a = ((integratedAddress.write a).1, true) := rfl

theorem integratedAddress_exact : integratedAddress.Exact :=
  Codec.Exact.seq accountPublicAddress_exact (blob_exact 8)

theorem integratedAddress_size : integratedAddress.Size fun _ => 72 :=
  Codec.Size.seq accountPublicAddress_size (blob_size 8)

variable {nettype : NetworkType}

/-- The tags of a network: each is one byte as a varint, and they differ from each other. -/
theorem getConfig_spec {c : AddressConfig} (h : getConfig nettype = some c) :
    c.publicAddressPrefix < 128 ∧ c.publicIntegratedAddressPrefix < 128 ∧
      c.publicSubaddressPrefix < 128 ∧ c.publicIntegratedAddressPrefix ≠ c.publicAddressPrefix ∧
      c.publicIntegratedAddressPrefix ≠ c.publicSubaddressPrefix ∧
      c.publicAddressPrefix ≠ c.publicSubaddressPrefix := by
  cases nettype <;> cases h <;> decide

variable {str : Bytes}

/-- What is written is encoded with a tag of one byte: the number of letters, and the way back. -/
theorem encodeAddr_write (hexact : c.Exact) {size : Nat} (hsize : c.Size fun _ => size)
    {data : Bytes} (hwrite : c.write a = (data, true)) {tag : Nat} (htag : tag < 128)
    (h : encodeAddr cnFastHash tag data = str) :
    str.length = 11 * ((size + 5) / 8) + encodedBlockSize ((size + 5) % 8) ∧
      decodeAddr cnFastHash str = some (tag, data) ∧ parseBinary c data = some a := by
  subst h
  have hdata : data.length = size := hsize a data hwrite
  have hbuf : (writeVarint tag ++ data ++ (cnFastHash (writeVarint tag ++ data)).1.take 4).length =
      size + 5 := by
    rw [List.length_append, List.length_append, List.length_take, writeVarint_last htag,
      (cnFastHash ([UInt8.ofNat tag] ++ data)).2, List.length_singleton, hdata]
    omega
  rw [← hbuf]
  exact ⟨length_encodeBlocks rfl, decodeAddr_encodeAddr cnFastHash (htag.trans (by decide)) data,
    parseBinary_write hexact hwrite⟩

/-- The standard form of an address is parsed back. -/
theorem getAccountAddressFromStr_standard {subaddress : Bool}
    {adr : AccountPublicAddress} (info : AddressParseInfo)
    (hspend : checkKey adr.spendPublicKey = true) (hview : checkKey adr.viewPublicKey = true)
    (h : getAccountAddressAsStr cnFastHash nettype subaddress adr = some str) :
    getAccountAddressFromStr cnFastHash info nettype str =
      some { info with address := adr, isSubaddress := subaddress, hasPaymentId := false } := by
  obtain ⟨c, hc, h⟩ := Option.map_eq_some_iff.mp h
  obtain ⟨hpub, -, hsub, h1, h2, h3⟩ := getConfig_spec hc
  have htag : (if subaddress then c.publicSubaddressPrefix else c.publicAddressPrefix) < 128 := by
    split
    · exact hsub
    · exact hpub
  obtain ⟨hlen, hdecode, hparse⟩ := encodeAddr_write cnFastHash accountPublicAddress_exact
    accountPublicAddress_size (accountPublicAddress_write adr) htag h
  have hlen : str.length = 95 := hlen
  unfold getAccountAddressFromStr base58Address
  simp only [hc, hlen, hdecode, hparse]
  cases subaddress with
  | true => simp [h2, h3, hspend, hview]
  | false => simp [h1, hspend, hview]

/-- The integrated form of an address is parsed back. -/
theorem getAccountAddressFromStr_integrated {adr : AccountPublicAddress}
    {paymentId : Blob 8} (info : AddressParseInfo)
    (hspend : checkKey adr.spendPublicKey = true) (hview : checkKey adr.viewPublicKey = true)
    (h : getAccountIntegratedAddressAsStr cnFastHash nettype adr paymentId = some str) :
    getAccountAddressFromStr cnFastHash info nettype str =
      some { address := adr, isSubaddress := false, hasPaymentId := true, paymentId } := by
  obtain ⟨c, hc, h⟩ := Option.map_eq_some_iff.mp h
  obtain ⟨hlen, hdecode, hparse⟩ := encodeAddr_write cnFastHash integratedAddress_exact
    integratedAddress_size (integratedAddress_write (adr, paymentId)) (getConfig_spec hc).2.1 h
  have hlen : str.length = 106 := hlen
  unfold getAccountAddressFromStr base58Address
  simp only [hc, hlen, hdecode, hparse]
  simp [hspend, hview]

variable {info info' : AddressParseInfo}

/-- What the base58 branch accepts: one of the three tags, and the data of that kind of address. -/
theorem base58Address_cases {c : AddressConfig}
    (h : base58Address cnFastHash c info str = some info') :
    ∃ tag data, decodeAddr cnFastHash str = some (tag, data) ∧
      (tag = c.publicIntegratedAddressPrefix ∧ info'.hasPaymentId = true ∧
          integratedAddress.write (info'.address, info'.paymentId) = (data, true) ∨
        info'.hasPaymentId = false ∧ accountPublicAddress.write info'.address = (data, true) ∧
          tag = if info'.isSubaddress then c.publicSubaddressPrefix
            else c.publicAddressPrefix) := by
  unfold base58Address at h
  split at h
  · simp at h
  rename_i tag data hdecode
  refine ⟨tag, data, hdecode, ?_⟩
  split at h
  · rename_i htag
    obtain ⟨⟨address, paymentId⟩, hparse, rfl⟩ := Option.map_eq_some_iff.mp h
    exact .inl ⟨htag.symm, rfl, write_parseBinary rfl hparse⟩
  split at h
  · rename_i htag
    obtain ⟨address, hparse, rfl⟩ := Option.map_eq_some_iff.mp h
    exact .inr ⟨rfl, write_parseBinary rfl hparse, htag.symm⟩
  split at h
  · rename_i htag
    obtain ⟨address, hparse, rfl⟩ := Option.map_eq_some_iff.mp h
    exact .inr ⟨rfl, write_parseBinary rfl hparse, htag.symm⟩
  · simp at h

/-- What the parser accepts of a string that is not as long as one of the old format. -/
theorem getAccountAddressFromStr_base58 (hlen : str.length ≠ 132)
    (h : getAccountAddressFromStr cnFastHash info nettype str = some info') :
    ∃ c, getConfig nettype = some c ∧ base58Address cnFastHash c info str = some info' ∧
      checkKey info'.address.spendPublicKey = true ∧
      checkKey info'.address.viewPublicKey = true := by
  unfold getAccountAddressFromStr at h
  split at h
  · simp at h
  rename_i c hc
  rw [if_pos (by omega)] at h
  split at h
  · simp at h
  rename_i parsed hparsed
  split at h
  · simp at h
  rename_i hkeys
  rw [Option.some.injEq] at h
  subst h
  simp only [Bool.or_eq_true, Bool.not_eq_true', not_or, Bool.not_eq_false] at hkeys
  exact ⟨c, hc, hparsed, hkeys.1, hkeys.2⟩

theorem write_ne_nil {n : Nat} (hn : 0 < n) (hc : c.Size fun _ => n)
    {data : Bytes} (h : c.write a = (data, true)) : data ≠ [] := by
  rintro rfl
  exact absurd (hc a [] h) (by simp; omega)

/-- A string accepted as base58 is the one that is encoded from what it is parsed to. -/
theorem addressAsStr_of_base58 (hlen : str.length ≠ 132)
    (h : getAccountAddressFromStr cnFastHash info nettype str = some info') :
    addressAsStr cnFastHash nettype info' = some str := by
  obtain ⟨c, hc, hb, -, -⟩ := getAccountAddressFromStr_base58 cnFastHash hlen h
  obtain ⟨tag, data, hdecode, hkind⟩ := base58Address_cases cnFastHash hb
  unfold addressAsStr
  rcases hkind with ⟨rfl, hid, hwrite⟩ | ⟨hid, hwrite, htag⟩
  · have hne := write_ne_nil (by decide) integratedAddress_size hwrite
    rw [hid, if_pos rfl, getAccountIntegratedAddressAsStr, hc, hwrite, Option.map_some,
      (encodeAddr_decodeAddr cnFastHash hdecode hne).2]
  · have hne := write_ne_nil (by decide) accountPublicAddress_size hwrite
    rw [hid, if_neg (by decide), getAccountAddressAsStr, hc, hwrite, Option.map_some, ← htag,
      (encodeAddr_decodeAddr cnFastHash hdecode hne).2]

/-- **Addresses and strings.** On every network, an address with two valid keys and a payment id
survive the way through each of the three forms of a string, and every string that is accepted as
base58 is the one that is encoded from what it was parsed to. -/
theorem account_address_round_trip (nettype : NetworkType) (info : AddressParseInfo) :
    (∀ (adr : AccountPublicAddress) (str : Bytes), checkKey adr.spendPublicKey = true →
      checkKey adr.viewPublicKey = true →
      (∀ subaddress, getAccountAddressAsStr cnFastHash nettype subaddress adr = some str →
        getAccountAddressFromStr cnFastHash info nettype str =
          some { info with address := adr, isSubaddress := subaddress, hasPaymentId := false }) ∧
      (∀ paymentId, getAccountIntegratedAddressAsStr cnFastHash nettype adr paymentId = some str →
        getAccountAddressFromStr cnFastHash info nettype str =
          some { address := adr, isSubaddress := false, hasPaymentId := true, paymentId })) ∧
    (∀ (str : Bytes) (info' : AddressParseInfo), str.length ≠ 132 →
      getAccountAddressFromStr cnFastHash info nettype str = some info' →
      addressAsStr cnFastHash nettype info' = some str) := by
  refine ⟨fun adr str hspend hview => ⟨fun subaddress h => ?_, fun paymentId h => ?_⟩,
    fun str info' hlen h => ?_⟩
  · exact getAccountAddressFromStr_standard cnFastHash info hspend hview h
  · exact getAccountAddressFromStr_integrated cnFastHash info hspend hview h
  · exact addressAsStr_of_base58 cnFastHash hlen h

/-- An object to parse into. -/
def sampleParseInfo : AddressParseInfo :=
  ⟨⟨Blob.fill 0, Blob.fill 0⟩, false, false, Blob.fill 0⟩

/-- An address with two points of the curve. -/
def sampleAddress : AccountPublicAddress := ⟨Blob.fill 1, Blob.fill 3⟩

/-- The subaddress string of `sampleAddress`. -/
def sampleStr : Bytes :=
  (getAccountAddressAsStr sumHash .testnet true sampleAddress).getD []

theorem account_address_round_trip_sample :
    getAccountAddressFromStr sumHash sampleParseInfo .testnet sampleStr =
        some ⟨sampleAddress, true, false, Blob.fill 0⟩ ∧
      addressAsStr sumHash .testnet ⟨sampleAddress, true, false, Blob.fill 0⟩ = some sampleStr := by
  obtain ⟨hstr, hback⟩ := account_address_round_trip sumHash .testnet sampleParseInfo
  have hparse := (hstr sampleAddress sampleStr (by decide +kernel) (by decide +kernel)).1 true rfl
  exact ⟨hparse, hback sampleStr _ (by decide +kernel) hparse⟩

/-- **What the parser accepts**: a string of the old format, whose version is 0 and whose check sum
is right, or base58 of an address tag of the network and of two keys that are points of the
curve. -/
theorem getAccountAddressFromStr_accepts (nettype : NetworkType) (info info' : AddressParseInfo)
    (str : Bytes) (h : getAccountAddressFromStr cnFastHash info nettype str = some info') :
    (str.length = 132 ∧ oldAddress str = some info'.address ∧ info'.isSubaddress = false ∧
        info'.hasPaymentId = false) ∨
      (checkKey info'.address.spendPublicKey = true ∧
        checkKey info'.address.viewPublicKey = true ∧ CarriesTag cnFastHash nettype str) := by
  by_cases hlen : str.length = 132
  · left
    unfold getAccountAddressFromStr at h
    split at h
    · simp at h
    rw [if_neg (by omega)] at h
    obtain ⟨address, hold, rfl⟩ := Option.map_eq_some_iff.mp h
    exact ⟨hlen, hold, rfl, rfl⟩
  · right
    obtain ⟨c, hc, hb, hspend, hview⟩ := getAccountAddressFromStr_base58 cnFastHash hlen h
    obtain ⟨tag, data, hdecode, hkind⟩ := base58Address_cases cnFastHash hb
    refine ⟨hspend, hview, c, tag, data, hc, hdecode, ?_⟩
    rcases hkind with ⟨rfl, -, -⟩ | ⟨-, -, htag⟩
    · simp
    rw [htag]
    split <;> simp

theorem getAccountAddressFromStr_accepts_sample :
    (sampleStr.length = 132 ∧ oldAddress sampleStr = some sampleAddress ∧ true = false ∧
        false = false) ∨
      (checkKey sampleAddress.spendPublicKey = true ∧
        checkKey sampleAddress.viewPublicKey = true ∧ CarriesTag sumHash .testnet sampleStr) :=
  getAccountAddressFromStr_accepts sumHash .testnet sampleParseInfo
    ⟨sampleAddress, true, false, Blob.fill 0⟩ sampleStr (by decide +kernel)

/-- The string of the old format in the unit test `parses_old_address_format`. -/
def oldFormatStr : Bytes :=
  asciiBytes ("002391bbbb24dea6fd95232e97594a27769d0153d053d2102b789c498f57a2b00b69cd6f2f5c529c" ++
    "1660f2f4a2b50178d6640c20ce71fe26373041af97c5b10236fc")

/-- The version 0, 64 bytes 2 and the sum of these bytes, in the old format. -/
def offCurveStr : Bytes := [48, 48] ++ (List.replicate 64 [48, 50]).flatten ++ [56, 48]

/-- A string of the old format is accepted on every network without a tag, and whether or not its
keys are points of the curve. -/
theorem old_format_untagged :
    (getAccountAddressFromStr sumHash sampleParseInfo .mainnet oldFormatStr).isSome = true ∧
      (getAccountAddressFromStr sumHash sampleParseInfo .testnet oldFormatStr).isSome = true ∧
      decodeAddr sumHash oldFormatStr = none ∧
      getAccountAddressFromStr sumHash sampleParseInfo .mainnet offCurveStr =
        some ⟨⟨Blob.fill 2, Blob.fill 2⟩, false, false, Blob.fill 0⟩ ∧
      checkKey (Blob.fill 2) = false := by
  decide +kernel

end Strings

end Hashmonkey.Basic
