import Hashmonkey.Db.Tables
import Hashmonkey.Lib.Tally

/-!
# The state of a wallet (`wallet/wallet2.h`)

A wallet keeps the outputs it owns in a vector (`m_transfers`), finds them through two maps, by
public key and by key image, and knows its own transactions that are not in a block yet.

* `Account`: the settings of a wallet and what its device computes with the secret keys. These are
  parameters: derivations, key images, the decoding of amounts, the parsing of `tx_extra`;
* `TransferDetails`, `Wallet2`: the data. Heights are natural numbers, amounts have 64 bits and
  wrap;
* `WalletError`: the exceptions. `Fault` is one that was thrown and the wallet as it was then, since
  nothing is undone.

Left out is what the modelled functions only write: log messages, callbacks and notifications,
`m_uses` and the output tracker, the data of a background synchronisation, rings and destinations of
transfers. Passwords are not asked for.
-/

namespace Hashmonkey.Wallet

open Basic Crypto Db Lib Ringct Serialization Std

/-! ## The account -/

/-- `subaddress_index`. -/
structure SubaddressIndex where
  major : UInt32
  minor : UInt32
  deriving DecidableEq

/-- `crypto::key_derivation`. -/
abbrev KeyDerivation := Blob 32

/-- `subaddress_receive_info`. -/
structure SubaddressReceiveInfo where
  index : SubaddressIndex
  derivation : KeyDerivation
  deriving DecidableEq

/-- `tx_extra_field`, as far as the wallet looks at the fields. -/
inductive TxExtraField
  | pubKey (key : PublicKey)
  | additionalPubKeys (keys : List PublicKey)
  | nonce (bytes : Bytes)
  | other
  deriving DecidableEq

/-- `RefreshType`. -/
inductive RefreshType
  | full
  | optimizeCoinbase
  | noCoinbase
  deriving DecidableEq

/-- A wallet's settings, and what its device computes with the secret keys of the account. -/
structure Account where
  refreshType : RefreshType := .optimizeCoinbase
  watchOnly : Bool := false
  multisig : Bool := false
  backgroundSyncing : Bool := false
  storeTxInfo : Bool := true
  /-- `parse_tx_extra`: the fields up to the first that is malformed -/
  parseTxExtra : Bytes → List TxExtraField
  /-- `generate_key_derivation` with the view key -/
  generateKeyDerivation : PublicKey → Option KeyDerivation
  deriveViewTag : KeyDerivation → Nat → Option (Blob 1)
  deriveSubaddressPublicKey : PublicKey → KeyDerivation → Nat → Option PublicKey
  /-- `generate_key_image_helper_precomp`: `in_ephemeral.pub` and the key image -/
  generateKeyImage : PublicKey → KeyDerivation → Nat → SubaddressIndex →
    Option (PublicKey × KeyImage)
  /-- `rct::decodeRctSimple`: the amount and the mask, or an exception -/
  decodeRctSimple : RctSig → KeyDerivation → Nat → Option (UInt64 × Key)
  /-- `rct::decodeRct` -/
  decodeRctFull : RctSig → KeyDerivation → Nat → Option (UInt64 × Key)
  decryptPaymentId : Blob 8 → PublicKey → Option (Blob 8)
  /-- `m_cold_key_images` -/
  coldKeyImage : PublicKey → Option KeyImage := fun _ => none
  /-- the composite key image of a transfer, if `m_multisig_rescan_info` has data for it -/
  multisigRescan : Nat → Option KeyImage := fun _ => none

/-- An account for examples. Each byte of an extra field stands for a key, an output key is its own
spend key and key image, and an amount is the first byte of the encrypted one. -/
def sampleAccount : Account where
  parseTxExtra := fun extra => extra.map fun b => .pubKey (Blob.fill b)
  generateKeyDerivation := some
  deriveViewTag := fun _ _ => none
  deriveSubaddressPublicKey := fun key _ _ => some key
  generateKeyImage := fun key _ _ _ => some (key, key)
  decodeRctSimple := fun rv _ i =>
    rv.ecdhInfo[i]?.map fun e => ((e.amount.1.headD 0).toUInt64, e.mask)
  decodeRctFull := fun _ _ _ => none
  decryptPaymentId := fun _ _ => none

/-- `rct::identity()`. -/
def identity : Key := ⟨1 :: List.replicate 31 0, by decide⟩

/-- `rct::zero()`. -/
def zeroKey : Key := Blob.fill 0

/-! ## Data -/

/-- `transfer_details`. -/
structure TransferDetails where
  blockHeight : Nat
  tx : TransactionPrefix
  txid : Hash
  internalOutputIndex : Nat
  globalOutputIndex : UInt64
  spent : Bool
  frozen : Bool
  spentHeight : Nat
  keyImage : KeyImage
  mask : Key
  amount : UInt64
  rct : Bool
  keyImageKnown : Bool
  keyImageRequest : Bool
  pkIndex : Nat
  subaddrIndex : SubaddressIndex
  keyImagePartial : Bool
  deriving DecidableEq

/-- `get_public_key`, `none` if it throws. -/
def TransferDetails.getPublicKey (td : TransferDetails) : Option PublicKey :=
  td.tx.vout[td.internalOutputIndex]?.bind getOutputPublicKey

/-- The state of an own transaction that is not in a block. -/
inductive PendingState
  | pending
  | pendingInPool
  | failed
  deriving DecidableEq

/-- `unconfirmed_transfer_details`. -/
structure UnconfirmedTransferDetails where
  tx : TransactionPrefix
  amountIn : UInt64
  amountOut : UInt64
  change : UInt64
  sentTime : Nat
  paymentId : Hash
  state : PendingState
  timestamp : Nat
  subaddrAccount : UInt32
  subaddrIndices : List UInt32

/-- `confirmed_transfer_details`, with the values of its default constructor. -/
structure ConfirmedTransferDetails where
  amountIn : UInt64 := 0
  amountOut : UInt64 := 0
  change : UInt64 := -1
  blockHeight : Nat := 0
  paymentId : Hash := nullHash
  timestamp : Nat := 0
  unlockTime : UInt64 := 0
  subaddrAccount : UInt32 := -1
  subaddrIndices : List UInt32 := []

/-- `payment_details`. -/
structure PaymentDetails where
  txHash : Hash
  amount : UInt64
  amounts : List UInt64
  fee : UInt64
  blockHeight : Nat
  unlockTime : UInt64
  timestamp : Nat
  coinbase : Bool
  subaddrIndex : SubaddressIndex
  deriving DecidableEq

/-- `pool_payment_details`. -/
structure PoolPaymentDetails where
  pd : PaymentDetails
  doubleSpendSeen : Bool
  deriving DecidableEq

/-- `hashchain`: the ids of blocks from a height on. -/
structure Hashchain where
  offset : Nat := 0
  blockchain : List Hash := []

/-- `hashchain::size`. -/
def Hashchain.size (c : Hashchain) : Nat := c.blockchain.length + c.offset

/-- `hashchain::push_back`. -/
def Hashchain.pushBack (c : Hashchain) (id : Hash) : Hashchain :=
  { c with blockchain := c.blockchain ++ [id] }

/-- `hashchain::crop`, to a height that the chain has. -/
def Hashchain.crop (c : Hashchain) (height : Nat) : Hashchain :=
  { c with blockchain := c.blockchain.take (height - c.offset) }

theorem size_crop {c : Hashchain} {height : Nat} (hoffset : c.offset ≤ height)
    (hsize : height ≤ c.size) : (c.crop height).size = height := by
  unfold Hashchain.crop Hashchain.size at *
  rw [List.length_take]
  dsimp only
  omega

theorem size_pushBack (c : Hashchain) (h : Hash) : (c.pushBack h).size = c.size + 1 := by
  unfold Hashchain.pushBack Hashchain.size
  rw [List.length_append]
  dsimp only [List.length_singleton]
  omega

/-- `wallet2`. -/
structure Wallet2 where
  transfers : List TransferDetails := []
  keyImages : ExtTreeMap KeyImage Nat compareHash32 := ∅
  pubKeys : ExtTreeMap PublicKey Nat compareHash32 := ∅
  unconfirmedTxs : ExtTreeMap Hash UnconfirmedTransferDetails compareHash32 := ∅
  confirmedTxs : ExtTreeMap Hash ConfirmedTransferDetails compareHash32 := ∅
  payments : List (Hash × PaymentDetails) := []
  unconfirmedPayments : List (Hash × PoolPaymentDetails) := []
  blockchain : Hashchain := {}

/-! ## Exceptions -/

/-- The exceptions of a wallet; `exit(1)` is one of them. -/
inductive WalletError
  | accOutsLookupError
  | walletInternalError (message : String)
  /-- "Consistency failure in amounts received" -/
  | exit
  deriving DecidableEq

/-- An internal error, not one of the other two. -/
def WalletError.IsInternal (e : WalletError) : Prop := ∃ message, e = .walletInternalError message

theorem WalletError.IsInternal.ne_exit {e : WalletError} (h : e.IsInternal) : e ≠ .exit := by
  obtain ⟨message, rfl⟩ := h
  exact WalletError.noConfusion

/-- An exception and the wallet when it was thrown. -/
structure Fault where
  error : WalletError
  wallet : Wallet2

/-! ## Spent outputs -/

/-- What `set_spent` does to a transfer. -/
def TransferDetails.setSpent (td : TransferDetails) (height : Nat) : TransferDetails :=
  { td with spent := true, spentHeight := height }

/-- What `set_unspent` does to a transfer. -/
def TransferDetails.setUnspent (td : TransferDetails) : TransferDetails :=
  { td with spent := false, spentHeight := 0 }

/-- `set_spent`, with an index that is in range. -/
def Wallet2.setSpent (w : Wallet2) (idx height : Nat) : Wallet2 :=
  { w with transfers := w.transfers.modify idx fun td => td.setSpent height }

/-- `set_unspent`, with an index that is in range. -/
def Wallet2.setUnspent (w : Wallet2) (idx : Nat) : Wallet2 :=
  { w with transfers := w.transfers.modify idx TransferDetails.setUnspent }

end Hashmonkey.Wallet
