import Hashmonkey.Lib.Index
import Hashmonkey.Wallet.Process

/-!
# Blocks, reorganisations and pending transactions (`wallet/wallet2.cpp`)

The other functions through which a refresh changes a wallet.

* `processNewBlockchainEntry`: the transactions of a block, one after the other, and the id of the
  block. Of a block that `should_skip_block` skips only the id is kept;
* `detachBlockchain`, `handleReorg`: what was found from a height on is taken back. Outputs that
  were spent from there on are unspent, transfers are cut off at the first that has this height or
  more, and their entries are erased from both maps. An entry that is missing is an exception, and
  leaves the wallet half detached;
* `processUnconfirmedTransfer`: an own transaction that is not in a block, when the contents of the
  pool are known. If it was pending for too long, its inputs are marked unspent;
* `commitTx`: an own transaction that the daemon has accepted.

Results about these functions are in `Wallet/Runs` and the modules that follow it.
-/

open Hashmonkey.Core

namespace Hashmonkey.Wallet

open Basic Crypto Db Lib Ringct Serialization Std

/-! ## Blocks -/

/-- A block with its transactions, as it comes from the daemon. -/
structure BlockEntry where
  height : Nat
  id : Hash
  /-- `should_skip_block` -/
  skip : Bool := false
  minerTx : TxContext
  /-- the transactions for `tx_hashes` -/
  txs : List TxContext := []
  /-- `bche.txs.size()` -/
  numBlobs : Nat
  /-- `parsed_block.txes.size()` -/
  numParsed : Nat
  /-- `parsed_block.o_indices.indices.size()` -/
  numIndices : Nat

/-- The arguments for a transaction of a block. -/
def TxContext.inBlock (c : TxContext) (height : Nat) (minerTx : Bool) : TxContext :=
  { c with height, minerTx, pool := false, doubleSpendSeen := false }

/-- The loop over the transactions of a block. -/
def processTransactions (a : Account) : List TxContext → Wallet2 → Except Fault Wallet2
  | [], w => .ok w
  | c :: txs, w =>
    match processNewTransaction a c w with
    | .error f => .error f
    | .ok w => processTransactions a txs w

/-- `process_new_blockchain_entry`. -/
def processNewBlockchainEntry (a : Account) (b : BlockEntry) (w : Wallet2) :
    Except Fault Wallet2 :=
  if b.numBlobs + 1 ≠ b.numIndices then
    .error ⟨.walletInternalError "block transactions do not match with daemon response size", w⟩
  else if b.height ≠ w.blockchain.size then
    .error ⟨.walletInternalError "New blockchain entry mismatch", w⟩
  else if b.skip then .ok { w with blockchain := w.blockchain.pushBack b.id }
  else
    match (if a.refreshType ≠ .noCoinbase then
        processNewTransaction a (b.minerTx.inBlock b.height true) w else .ok w) with
    | .error f => .error f
    | .ok w =>
      if b.numBlobs ≠ b.txs.length ∨ b.numBlobs ≠ b.numParsed then
        .error ⟨.walletInternalError "Wrong amount of transactions for block", w⟩
      else
        match processTransactions a (b.txs.map fun c => c.inBlock b.height false) w with
        | .error f => .error f
        | .ok w => .ok { w with blockchain := w.blockchain.pushBack b.id }

/-! ## Reorganisations -/

/-- A transfer that was spent at the height or above is not spent any more. -/
def TransferDetails.resetSpent (td : TransferDetails) (height : Nat) : TransferDetails :=
  if td.spent ∧ td.spentHeight ≥ height then { td.setUnspent with frozen := false } else td

/-- Places of transfers under their keys. -/
abbrev Places := ExtTreeMap (Blob 32) Nat compareHash32

/-- The key images of transfers are erased, those that are known and not partial. -/
def eraseKeyImages : List TransferDetails → Places → Except (WalletError × Places) Places
  | [], keyImages => .ok keyImages
  | td :: tds, keyImages =>
    if ¬ td.keyImageKnown ∨ td.keyImagePartial then eraseKeyImages tds keyImages
    else if td.keyImage ∉ keyImages then
      .error (.walletInternalError "key image not found", keyImages)
    else eraseKeyImages tds (keyImages.erase td.keyImage)

/-- Why `get_public_key` throws. -/
def TransferDetails.publicKeyError (td : TransferDetails) : String :=
  if td.tx.vout.length ≤ td.internalOutputIndex then "Too few outputs, outputs may be corrupted"
  else "Unable to get output public key from output"

/-- The public keys of transfers are erased. -/
def erasePubKeys : List TransferDetails → Places → Except (WalletError × Places) Places
  | [], pubKeys => .ok pubKeys
  | td :: tds, pubKeys =>
    match td.getPublicKey with
    | none => .error (.walletInternalError td.publicKeyError, pubKeys)
    | some key =>
      if key ∉ pubKeys then .error (.walletInternalError "public key not found", pubKeys)
      else erasePubKeys tds (pubKeys.erase key)

/-- `hashchain::crop`, if the height is in range. -/
def Hashchain.detach (c : Hashchain) (height : Nat) : Hashchain :=
  if height ≤ c.size ∧ height ≥ c.offset then c.crop height else c

/-- The place of the first transfer that is detached. -/
def Wallet2.detachStart (w : Wallet2) (height : Nat) : Nat :=
  w.transfers.findIdx fun td => decide (td.blockHeight ≥ height)

/-- Spent outputs are reset. -/
def Wallet2.resetSpent (w : Wallet2) (height : Nat) : Wallet2 :=
  { w with transfers := w.transfers.map fun td => td.resetSpent height }

/-- `detach_blockchain`. -/
def Wallet2.detachBlockchain (w : Wallet2) (height : Nat) : Except Fault Wallet2 :=
  let w := w.resetSpent height
  let start := w.detachStart height
  match eraseKeyImages (w.transfers.drop start) w.keyImages with
  | .error (e, keyImages) => .error ⟨e, { w with keyImages }⟩
  | .ok keyImages =>
    match erasePubKeys (w.transfers.drop start) w.pubKeys with
    | .error (e, pubKeys) => .error ⟨e, { w with keyImages, pubKeys }⟩
    | .ok pubKeys =>
      .ok
        { w with
          keyImages
          pubKeys
          transfers := w.transfers.take start
          blockchain := w.blockchain.detach height
          payments := w.payments.filter fun p => p.2.blockHeight < height
          confirmedTxs := w.confirmedTxs.filter fun _ d => d.blockHeight < height }

/-- `handle_reorg`. -/
def Wallet2.handleReorg (w : Wallet2) (height : Nat) : Except Fault Wallet2 :=
  if height < w.blockchain.offset ∧ w.blockchain.size > w.blockchain.offset then
    .error ⟨.walletInternalError "Daemon claims reorg below last checkpoint", w⟩
  else w.detachBlockchain height

/-! ## Pending transactions -/

/-- `set_tx_key_images_spent` for one input. -/
def Wallet2.setKeyImageSpent (w : Wallet2) (spent : Bool) (input : TxinV) : Wallet2 :=
  match input with
  | .key i =>
    match w.keyImages[i.kImage]? with
    | none => w
    | some place =>
      match w.transfers[place]? with
      | none => w
      | some td =>
        if td.keyImage ≠ i.kImage then w
        else if td.spent = spent then w
        else if spent then w.setSpent place 0
        else w.setUnspent place
  | _ => w

/-- `set_tx_key_images_spent`. -/
def Wallet2.setTxKeyImagesSpent (w : Wallet2) (tx : TransactionPrefix) (spent : Bool) : Wallet2 :=
  tx.vin.foldl (fun w input => w.setKeyImageSpent spent input) w

/-- `tx_propagation_timeout`, in the ticks of the clock. -/
def txPropagationTimeout : Nat := 500 * 1000000000

/-- A pending transaction is judged as failed. -/
def UnconfirmedTransferDetails.timesOut (utd : UnconfirmedTransferDetails) (incremental : Bool)
    (now : Nat) (refreshed : Bool) : Bool :=
  (utd.state = .pending ∨ utd.state = .pendingInPool ∧ ¬ incremental) ∧ refreshed ∧
    now > utd.sentTime * 1000000000 + txPropagationTimeout

/-- The state of an own transaction changes. -/
def Wallet2.setState (w : Wallet2) (txid : Hash) (utd : UnconfirmedTransferDetails)
    (state : PendingState) : Wallet2 :=
  { w with unconfirmedTxs := w.unconfirmedTxs.insert txid { utd with state } }

/-- `process_unconfirmed_transfer`, for an entry of `m_unconfirmed_txs`. -/
def Wallet2.processUnconfirmedTransfer (w : Wallet2) (incremental : Bool) (txid : Hash)
    (seenInPool : Bool) (now : Nat) (refreshed : Bool) : Wallet2 :=
  match w.unconfirmedTxs[txid]? with
  | none => w
  | some utd =>
    if seenInPool then (w.setState txid utd .pendingInPool).setTxKeyImagesSpent utd.tx true
    else if utd.timesOut incremental now refreshed then
      -- the inputs aren't spent anymore, since the tx failed
      (w.setState txid utd .failed).setTxKeyImagesSpent utd.tx false
    else if ¬ incremental ∧ utd.state = .pendingInPool then w.setState txid utd .pending
    else w

/-- `pending_tx`, as far as it is used here. -/
structure PendingTx where
  txid : Hash
  tx : Transaction
  selectedTransfers : List Nat
  /-- the amounts of `dests` -/
  dests : List UInt64
  change : UInt64
  /-- `get_payment_id` -/
  paymentId : Hash
  subaddrAccount : UInt32
  subaddrIndices : List UInt32
  now : Nat

/-- `commit_tx`, when the daemon has accepted the transaction. -/
def Wallet2.commitTx (a : Account) (w : Wallet2) (ptx : PendingTx) : Except Fault Wallet2 :=
  if ¬ ptx.selectedTransfers.all fun idx => decide (idx < w.transfers.length) then
    .error ⟨.walletInternalError "Bad output index in selected transfers", w⟩
  else if (w.transfers.any fun td => td.txid = ptx.txid) ∨ ptx.txid ∈ w.unconfirmedTxs ∨
      ptx.txid ∈ w.confirmedTxs then .ok w
  else
    let dests := if a.storeTxInfo then ptx.dests else []
    let amountIn :=
      if a.storeTxInfo then
        (ptx.selectedTransfers.map fun idx =>
          (w.transfers[idx]?.map TransferDetails.amount).getD 0).sum
      else 0
    let paymentId := if a.storeTxInfo then ptx.paymentId else nullHash
    let w := w.addUnconfirmedTx ptx.txid ptx.tx amountIn (dests.sum + ptx.change) paymentId
      ptx.change ptx.subaddrAccount ptx.subaddrIndices ptx.now
    .ok (ptx.selectedTransfers.foldl (fun w idx => w.setSpent idx 0) w)

end Hashmonkey.Wallet
