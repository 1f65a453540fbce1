import Hashmonkey.Wallet.Reorg
import Mathlib.Data.List.Chain

/-!
# Blocks from the daemon (`wallet/wallet2.cpp`)

A refresh receives blocks from a height on that the wallet knows. Some of them are in its chain
already, then they may differ, and then they are new.

* `ParsedBlock`: a block that `parse_block_round` has read. Its hash is the one of the block;
* `checkParsed`: the first loop. Each block has the one before it as its parent;
* `advance`: the second loop, for one block;
* `Hashchain.known`: how many of the blocks are in the chain.

The thread pool between the two loops fills caches, and what the transactions are scanned with is in
their `TxContext`.

Result: **`processParsedBlocks_exact`**. The chain is the old one up to the first block that is not
in it and then the rest of the blocks, every hash has the one before it as its parent, and the
blocks that were not in the chain are processed, in their order.
-/

open Hashmonkey.Core

namespace Hashmonkey.Wallet

open Basic Crypto Db Lib Ringct Serialization List Hashchain

variable {a : Account} {getBlockHash : Block → Hash} {w w' : Wallet2}

/-! ## The chain of hashes -/

/-- `hashchain::is_in_bounds`. -/
def Hashchain.isInBounds (c : Hashchain) (idx : Nat) : Bool := c.offset ≤ idx ∧ idx < c.size

/-- The hash at a height. -/
def Hashchain.hashAt (c : Hashchain) (idx : Nat) : Option Hash :=
  if c.offset ≤ idx then c.blockchain[idx - c.offset]? else none

/-- A block with the hash `h'` has `h` as its parent. -/
def IsParent (getBlockHash : Block → Hash) (h h' : Hash) : Prop :=
  ∃ b : Block, getBlockHash b = h' ∧ b.prevId = h

/-- Each hash has the one before it as its parent. -/
def Hashchain.Linked (getBlockHash : Block → Hash) (c : Hashchain) : Prop :=
  c.blockchain.IsChain (IsParent getBlockHash)

/-- How many of the blocks, from a height on, are in the chain. -/
def Hashchain.known (c : Hashchain) : Nat → List Hash → Nat
  | _, [] => 0
  | height, h :: hs => if c.hashAt height = some h then c.known (height + 1) hs + 1 else 0

/-- The chain up to a height, and then other blocks. -/
def Hashchain.rewrite (c : Hashchain) (height : Nat) (hs : List Hash) : Hashchain :=
  { c with blockchain := (c.crop height).blockchain ++ hs }

/-! ## Blocks -/

/-- `block_complete_entry`, as far as it is used here. -/
structure BlockCompleteEntry where
  /-- `txs.size()` -/
  numTxs : Nat

/-- `parsed_block`. -/
structure ParsedBlock (getBlockHash : Block → Hash) where
  hash : Hash
  block : Block
  /-- `parse_block_round` computes the hash -/
  hash_eq : hash = getBlockHash block
  minerTx : TxContext
  txes : List TxContext := []
  /-- `o_indices.indices.size()` -/
  numIndices : Nat

/-- What a refresh depends on besides the account. -/
structure RefreshSettings where
  createtime : UInt64 := 0
  refreshFromBlockHeight : Nat := 0
  skipToHeight : Nat := 0
  maxReorgDepth : Nat := 100

/-- `should_skip_block`. -/
def shouldSkipBlock (cfg : RefreshSettings) (b : Block) (height : Nat) : Bool :=
  ¬ (b.timestamp + 60 * 60 * 24 > cfg.createtime ∧ height ≥ cfg.refreshFromBlockHeight ∧
    height ≥ cfg.skipToHeight)

/-- The arguments of `process_new_blockchain_entry`. -/
def ParsedBlock.entry (cfg : RefreshSettings) (b : BlockCompleteEntry)
    (pb : ParsedBlock getBlockHash) (height : Nat) : BlockEntry where
  height
  id := pb.hash
  skip := shouldSkipBlock cfg pb.block height
  minerTx := pb.minerTx
  txs := pb.txes
  numBlobs := b.numTxs
  numParsed := pb.txes.length
  numIndices := pb.numIndices

/-- The entries of consecutive blocks. -/
def entriesFrom (cfg : RefreshSettings) :
    Nat → List (BlockCompleteEntry × ParsedBlock getBlockHash) → List BlockEntry
  | _, [] => []
  | height, (b, pb) :: rest => pb.entry cfg b height :: entriesFrom cfg (height + 1) rest

/-! ## `process_parsed_blocks` -/

/-- The exceptions of a refresh. -/
inductive RefreshError
  | wallet (e : WalletError)
  | outOfHashchainBoundsError
  | reorgDepthError (message : String)

/-- What the second loop changes. -/
structure Refresh where
  wallet : Wallet2
  blocksAdded : Nat := 0
  /-- the calls of `process_new_blockchain_entry` -/
  passed : List BlockEntry := []

/-- An exception and what there was when it was thrown. -/
abbrev RefreshFault := RefreshError × Refresh

/-- The first loop, from a height on. -/
def checkParsed : Nat → Option Hash → List (ParsedBlock getBlockHash) → Except RefreshError Unit
  | _, _, [] => .ok ()
  | height, prev, pb :: rest =>
    if prev.any fun h => h ≠ pb.block.prevId then
      .error (.wallet (.walletInternalError ("Parent block hash mismatch at height " ++
        toString height)))
    else if pb.txes.length ≠ pb.block.txHashes.length then
      .error (.wallet (.walletInternalError ("Mismatched parsed_blocks[i].txes.size() and " ++
        "parsed_blocks[i].block.tx_hashes.size()")))
    else checkParsed (height + 1) (some pb.hash) rest

/-- `process_new_blockchain_entry`, with a record of the call. -/
def Refresh.pass (a : Account) (b : BlockEntry) (r : Refresh) : Except RefreshFault Refresh :=
  match processNewBlockchainEntry a b r.wallet with
  | .error f => .error (.wallet f.error, { r with wallet := f.wallet, passed := r.passed ++ [b] })
  | .ok w => .ok { r with wallet := w, passed := r.passed ++ [b] }

/-- The second loop, for one block. -/
def advance (a : Account) (cfg : RefreshSettings) (start height : Nat) (b : BlockCompleteEntry)
    (pb : ParsedBlock getBlockHash) (r : Refresh) : Except RefreshFault Refresh :=
  let chain := r.wallet.blockchain
  if height ≥ chain.size then
    match r.pass a (pb.entry cfg b height) with
    | .error f => .error f
    | .ok r => .ok { r with blocksAdded := r.blocksAdded + 1 }
  else if chain.hashAt height ≠ some pb.hash then
    -- split detected
    if height = start then
      .error (.wallet (.walletInternalError
        "wrong daemon response: split starts from the first block in response"), r)
    else if chain.size - height > cfg.maxReorgDepth then
      .error (.reorgDepthError (
        "reorg exceeds maximum allowed depth, use 'set max-reorg-depth N' " ++
        "to allow it, reorg depth: " ++ toString (chain.size - height)), r)
    else
      match r.wallet.handleReorg height with
      | .error f => .error (.wallet f.error, { r with wallet := f.wallet })
      | .ok w => { r with wallet := w }.pass a (pb.entry cfg b height)
  else .ok r

/-- The second loop, from a height on. -/
def advanceAll (a : Account) (cfg : RefreshSettings) (start : Nat) :
    Nat → List (BlockCompleteEntry × ParsedBlock getBlockHash) → Refresh →
      Except RefreshFault Refresh
  | _, [], r => .ok r
  | height, (b, pb) :: rest, r =>
    match advance a cfg start height b pb r with
    | .error f => .error f
    | .ok r => advanceAll a cfg start (height + 1) rest r

/-- The hash before the first block, if the chain has it. Below height 0 the subtraction wraps
around, to a height that is not in bounds. -/
def Hashchain.before (c : Hashchain) : Nat → Option Hash
  | 0 => none
  | height + 1 => c.hashAt height

/-- `process_parsed_blocks`. -/
def processParsedBlocks (a : Account) (cfg : RefreshSettings) (start : Nat)
    (blocks : List BlockCompleteEntry) (parsed : List (ParsedBlock getBlockHash)) (w : Wallet2) :
    Except RefreshFault Refresh :=
  if blocks.length ≠ parsed.length then
    .error (.wallet (.walletInternalError "size mismatch"), { wallet := w })
  else if ¬ w.blockchain.isInBounds start then .error (.outOfHashchainBoundsError, { wallet := w })
  else
    match checkParsed start (w.blockchain.before start) parsed with
    | .error e => .error (e, { wallet := w })
    | .ok _ => advanceAll a cfg start start (blocks.zip parsed) { wallet := w }

/-! ## What the calls do to the chain -/

theorem processTransactions_chain {txs : List TxContext}
    (h : processTransactions a txs w = .ok w') :
    w'.blockchain = w.blockchain := by
  induction txs generalizing w with
  | nil =>
    cases h
    rfl
  | cons c txs ih =>
    rw [processTransactions] at h
    split at h
    · cases h
    rename_i w1 hw
    have hmoves := processNewTransaction_moves a c w
    rw [hw] at hmoves
    exact (ih h).trans (Moves.blockchain hmoves)

/-- A block is put at the end of the chain, and its height is the next one. -/
theorem processNewBlockchainEntry_chain {b : BlockEntry}
    (h : processNewBlockchainEntry a b w = .ok w') :
    w'.blockchain = w.blockchain.pushBack b.id ∧ b.height = w.blockchain.size := by
  unfold processNewBlockchainEntry at h
  split at h
  · cases h
  split at h
  · cases h
  rename_i hheight
  rw [not_not] at hheight
  refine ⟨?_, hheight⟩
  split at h
  · cases h
    rfl
  split at h
  · cases h
  rename_i w1 hminer
  have hchain : w1.blockchain = w.blockchain := by
    split at hminer
    · have hmoves := processNewTransaction_moves a (b.minerTx.inBlock b.height true) w
      rw [hminer] at hmoves
      exact Moves.blockchain hmoves
    · cases hminer
      rfl
  split at h
  · cases h
  split at h
  · cases h
  rename_i w2 htxs
  cases h
  rw [← hchain, ← processTransactions_chain htxs]

variable {height : Nat}

/-- A reorganisation at a height of the chain cuts it there. -/
theorem handleReorg_chain (h : w.handleReorg height = .ok w')
    (hoffset : w.blockchain.offset ≤ height) (hsize : height ≤ w.blockchain.size) :
    w'.blockchain = w.blockchain.crop height := by
  have hdetach : w.blockchain.detach height = w.blockchain.crop height := if_pos ⟨hsize, hoffset⟩
  unfold Wallet2.handleReorg at h
  split at h
  · cases h
  unfold Wallet2.detachBlockchain at h
  dsimp only at h
  split at h
  · cases h
  split at h
  · cases h
  cases h
  exact hdetach

variable {r r' : Refresh}

theorem pass_chain {b : BlockEntry} (h : r.pass a b = .ok r') :
    r'.wallet.blockchain = r.wallet.blockchain.pushBack b.id ∧
      b.height = r.wallet.blockchain.size ∧ r'.passed = r.passed ++ [b] := by
  unfold Refresh.pass at h
  split at h
  · cases h
  rename_i w hw
  cases h
  obtain ⟨hchain, hheight⟩ := processNewBlockchainEntry_chain hw
  exact ⟨hchain, hheight, rfl⟩

/-- What one block does: it extends the chain, replaces what comes from its height on, or is there
already. -/
inductive Advance (cfg : RefreshSettings) (start height : Nat) (b : BlockCompleteEntry)
    (pb : ParsedBlock getBlockHash) (r r' : Refresh) : Prop
  | extend (hsize : r.wallet.blockchain.size = height)
      (hchain : r'.wallet.blockchain = r.wallet.blockchain.pushBack pb.hash)
      (hpassed : r'.passed = r.passed ++ [pb.entry cfg b height])
  | split (hsize : height < r.wallet.blockchain.size)
      (hother : r.wallet.blockchain.hashAt height ≠ some pb.hash) (hstart : height ≠ start)
      (hchain : r'.wallet.blockchain = (r.wallet.blockchain.crop height).pushBack pb.hash)
      (hpassed : r'.passed = r.passed ++ [pb.entry cfg b height])
  | known (hsame : r.wallet.blockchain.hashAt height = some pb.hash) (heq : r' = r)

variable {cfg : RefreshSettings} {start : Nat} {b : BlockCompleteEntry}
  {pb : ParsedBlock getBlockHash}

theorem advance_cases (hoffset : r.wallet.blockchain.offset ≤ height)
    (h : advance a cfg start height b pb r = .ok r') : Advance cfg start height b pb r r' := by
  unfold advance at h
  dsimp only at h
  split at h
  · split at h
    · cases h
    · rename_i hpass
      cases h
      obtain ⟨hchain, hheight, hpassed⟩ := pass_chain hpass
      exact .extend hheight.symm hchain hpassed
  · rename_i hsize
    rw [ge_iff_le, Nat.not_le] at hsize
    split at h
    · rename_i hother
      split at h
      · cases h
      rename_i hstart
      split at h
      · cases h
      split at h
      · cases h
      rename_i w hreorg
      obtain ⟨hchain, _, hpassed⟩ := pass_chain h
      refine .split hsize hother hstart ?_ hpassed
      rw [hchain]
      exact congrArg (fun c => pushBack c pb.hash)
        (handleReorg_chain hreorg hoffset (Nat.le_of_lt hsize))
    · rename_i hsame
      cases h
      exact .known (not_not.mp hsame) rfl

/-! ## The second loop -/

variable {c : Hashchain}

theorem hashAt_lt {idx : Nat} {h : Hash} (hat : c.hashAt idx = some h) :
    c.offset ≤ idx ∧ idx < c.size := by
  unfold hashAt at hat
  split at hat
  · rename_i hoffset
    have hlt := (List.getElem?_eq_some_iff.mp hat).1
    unfold size
    omega
  · cases hat

theorem crop_size (c : Hashchain) : c.crop c.size = c := by
  unfold crop size
  rw [Nat.add_sub_cancel, take_length]

variable {hs : List Hash}

theorem pushBack_rewrite {h : Hash} (hoffset : c.offset ≤ height) (hsize : height ≤ c.size) :
    ((c.crop height).pushBack h).rewrite (height + 1) hs = c.rewrite height (h :: hs) := by
  have hcrop : ((c.crop height).pushBack h).size = height + 1 := by
    rw [size_pushBack, size_crop hoffset hsize]
  unfold rewrite
  rw [← hcrop, crop_size]
  change mk _ (((c.crop height).blockchain ++ [h]) ++ hs) = _
  rw [append_assoc]
  rfl

/-- The hashes of blocks. -/
def hashesOf (bs : List (BlockCompleteEntry × ParsedBlock getBlockHash)) : List Hash :=
  bs.map fun b => b.2.hash

variable {bs : List (BlockCompleteEntry × ParsedBlock getBlockHash)}

/-- What the second loop leaves of a chain. -/
def Hashchain.updated (c : Hashchain) (height : Nat) (hs : List Hash) : Hashchain :=
  if c.known height hs = hs.length then c
  else c.rewrite (height + c.known height hs) (hs.drop (c.known height hs))

/-- No block is known behind the end of the chain, and all of them are new. -/
theorem updated_of_size (hsize : c.size = height) (hs : List Hash) :
    c.known height hs = 0 ∧ c.updated height hs = c.rewrite height hs := by
  cases hs with
  | nil =>
    refine ⟨rfl, ?_⟩
    rw [rewrite, ← hsize, crop_size, append_nil]
    rfl
  | cons h hs =>
    have hknown : c.known height (h :: hs) = 0 := if_neg fun hat =>
      absurd (hashAt_lt hat).2 hsize.not_gt
    refine ⟨hknown, ?_⟩
    rw [updated, hknown, if_neg (by simp)]
    rfl

/-- **The second loop keeps the blocks that are known and replaces the rest.** -/
theorem advanceAll_spec (hoffset : r.wallet.blockchain.offset ≤ height)
    (hsize : height ≤ r.wallet.blockchain.size) (h : advanceAll a cfg start height bs r = .ok r') :
    r'.wallet.blockchain = r.wallet.blockchain.updated height (hashesOf bs) ∧
      r'.passed = r.passed ++
        entriesFrom cfg (height + r.wallet.blockchain.known height (hashesOf bs))
          (bs.drop (r.wallet.blockchain.known height (hashesOf bs))) := by
  induction bs generalizing height r with
  | nil =>
    cases h
    exact ⟨rfl, (append_nil _).symm⟩
  | cons b bs ih =>
    obtain ⟨b, pb⟩ := b
    have hcons : hashesOf ((b, pb) :: bs) = pb.hash :: hashesOf bs := rfl
    rw [advanceAll] at h
    rw [hcons]
    split at h
    · cases h
    rename_i r1 hone
    have hcases : r.wallet.blockchain.hashAt height = some pb.hash ∧ r1 = r ∨
        r.wallet.blockchain.hashAt height ≠ some pb.hash ∧
          r1.wallet.blockchain = (r.wallet.blockchain.crop height).pushBack pb.hash ∧
          r1.passed = r.passed ++ [pb.entry cfg b height] := by
      cases advance_cases hoffset hone with
      | extend hheight hchain hpassed =>
        refine .inr ⟨fun hat => absurd (hashAt_lt hat).2 hheight.not_gt, ?_, hpassed⟩
        rw [← hheight, crop_size, hchain]
      | split hlt hother hstart hchain hpassed => exact .inr ⟨hother, hchain, hpassed⟩
      | known hsame heq => exact .inl ⟨hsame, heq⟩
    rcases hcases with ⟨hsame, rfl⟩ | ⟨hother, hchain, hpassed⟩
    · obtain ⟨hrest, hcalls⟩ := ih (Nat.le_add_right_of_le hoffset) (hashAt_lt hsame).2 h
      have hknown : r1.wallet.blockchain.known height (pb.hash :: hashesOf bs) =
          r1.wallet.blockchain.known (height + 1) (hashesOf bs) + 1 := if_pos hsame
      rw [updated, hknown, length_cons, drop_succ_cons, drop_succ_cons]
      simp only [Nat.add_right_cancel_iff]
      rw [updated] at hrest
      rw [Nat.add_right_comm, Nat.add_assoc] at hrest hcalls
      exact ⟨hrest, hcalls⟩
    · -- the chain ends with this block, so all that follow are new
      have hend : r1.wallet.blockchain.size = height + 1 := by
        rw [hchain, size_pushBack, size_crop hoffset hsize]
      obtain ⟨hrest, hcalls⟩ := ih (hend ▸ Nat.le_add_left _ _) (Nat.le_of_eq hend.symm) h
      obtain ⟨hnone, hnew⟩ := updated_of_size hend (hashesOf bs)
      have hknown : r.wallet.blockchain.known height (pb.hash :: hashesOf bs) = 0 := if_neg hother
      rw [hnew, hchain, pushBack_rewrite hoffset hsize] at hrest
      rw [hnone, hpassed, append_assoc] at hcalls
      rw [updated, hknown, if_neg (by simp)]
      exact ⟨hrest, hcalls⟩

/-- The first block is known, since a split cannot start there. -/
theorem advanceAll_start
    (hoffset : r.wallet.blockchain.offset ≤ start) (hsize : start < r.wallet.blockchain.size)
    (h : advanceAll a cfg start start ((b, pb) :: bs) r = .ok r') :
    r.wallet.blockchain.hashAt start = some pb.hash := by
  rw [advanceAll] at h
  split at h
  · cases h
  rename_i r1 hone
  cases advance_cases hoffset hone with
  | extend hheight => exact absurd hsize hheight.not_gt
  | split hlt hother hstart => exact absurd rfl hstart
  | known hsame => exact hsame

/-! ## The chain that is left -/

theorem known_le (c : Hashchain) (height : Nat) (hs : List Hash) :
    c.known height hs ≤ hs.length := by
  induction hs generalizing height with
  | nil => exact Nat.le_refl 0
  | cons h hs ih =>
    rw [known]
    split
    · exact Nat.succ_le_succ (ih _)
    · exact Nat.zero_le _

variable {i : Nat}

theorem hashAt_of_lt_known (hi : i < c.known height hs) : c.hashAt (height + i) = hs[i]? := by
  induction hs generalizing height i with
  | nil => cases hi
  | cons h hs ih =>
    rw [known] at hi
    split at hi
    · rename_i hsame
      cases i with
      | zero => exact hsame
      | succ i =>
        rw [← Nat.succ_add_eq_add_succ]
        exact ih (Nat.lt_of_succ_lt_succ hi)
    · cases hi

/-- Below the height the chain is the same. -/
theorem hashAt_rewrite_lt {idx : Nat} (hs : List Hash) (hlt : idx < height)
    (hsize : height ≤ c.size) : (c.rewrite height hs).hashAt idx = c.hashAt idx := by
  unfold hashAt rewrite crop
  dsimp only
  split
  · unfold size at hsize
    rw [getElem?_append_left (by rw [length_take]; omega),
      getElem?_take_of_lt (by omega)]
  · rfl

theorem hashAt_rewrite_ge (hs : List Hash) (hoffset : c.offset ≤ height) (hsize : height ≤ c.size) :
    (c.rewrite height hs).hashAt (height + i) = hs[i]? := by
  have hlength : (c.blockchain.take (height - c.offset)).length = height - c.offset := by
    unfold size at hsize
    rw [length_take]
    omega
  unfold hashAt rewrite crop
  dsimp only
  rw [if_pos (Nat.le_add_right_of_le hoffset), getElem?_append_right (by omega), hlength]
  congr 1
  omega

theorem size_rewrite (hs : List Hash) (hoffset : c.offset ≤ height)
    (hsize : height ≤ c.size) : (c.rewrite height hs).size = height + hs.length := by
  have hcrop := size_crop hoffset hsize
  unfold rewrite size
  rw [length_append]
  change (c.crop height).blockchain.length + c.offset = height at hcrop
  dsimp only
  omega

theorem known_size (hsize : height ≤ c.size) (hs : List Hash) :
    height + c.known height hs ≤ c.size := by
  induction hs generalizing height with
  | nil => exact hsize
  | cons h hs ih =>
    rw [known]
    split
    · rename_i hsame
      have hlt : height + 1 ≤ c.size := (hashAt_lt hsame).2
      have hrest := ih hlt
      omega
    · exact hsize

/-- The first loop leaves a list in which each block has the one before it as its parent. -/
theorem checkParsed_linked {prev : Option Hash}
    {parsed : List (ParsedBlock getBlockHash)} (h : checkParsed height prev parsed = .ok ()) :
    (parsed.map ParsedBlock.hash).IsChain (IsParent getBlockHash) ∧
      ∀ p ∈ prev, ∀ x ∈ (parsed.map ParsedBlock.hash).head?, IsParent getBlockHash p x := by
  induction parsed generalizing height prev with
  | nil => exact ⟨.nil, fun p _ x hx => by cases hx⟩
  | cons pb parsed ih =>
    rw [checkParsed] at h
    split at h
    · cases h
    rename_i hprev
    split at h
    · cases h
    obtain ⟨hchain, hfirst⟩ := ih h
    refine ⟨?_, ?_⟩
    · rw [map_cons, isChain_cons]
      exact ⟨hfirst pb.hash rfl, hchain⟩
    · intro p hp x hx
      obtain rfl : pb.hash = x := Option.some.inj hx
      obtain rfl : prev = some p := hp
      have heq : p = pb.block.prevId := by simpa using hprev
      exact ⟨pb.block, pb.hash_eq.symm, heq.symm⟩

/-- The old hashes up to a known block and the new ones from there on are linked. -/
theorem rewrite_linked (hc : c.Linked getBlockHash) (hhs : hs.IsChain (IsParent getBlockHash))
    (hsame : c.hashAt (height + i) = hs[i]?) (hi : i < hs.length) :
    (c.rewrite (height + (i + 1)) (hs.drop (i + 1))).Linked getBlockHash := by
  unfold Hashchain.Linked at *
  have hat : hs[i]? = some hs[i] := getElem?_eq_getElem hi
  rw [hat] at hsame
  have hoffset := (hashAt_lt hsame).1
  change List.IsChain _ (c.blockchain.take (height + (i + 1) - c.offset) ++ hs.drop (i + 1))
  rw [isChain_append]
  refine ⟨hc.take _, hhs.drop _, fun x hx y hy => ?_⟩
  -- the last of the old hashes is the one of the known block
  have hlast : (c.blockchain.take (height + (i + 1) - c.offset)).getLast? = some hs[i] := by
    have hindex : c.blockchain[height + i - c.offset]? = some hs[i] := by
      rw [hashAt, if_pos hoffset] at hsame
      exact hsame
    have hlt := (List.getElem?_eq_some_iff.mp hindex).1
    have hlength : (c.blockchain.take (height + (i + 1) - c.offset)).length - 1 =
        height + i - c.offset := by
      rw [length_take]
      omega
    rw [getLast?_eq_getElem?, hlength, getElem?_take_of_lt (by omega), hindex]
  rw [hlast] at hx
  obtain rfl : hs[i] = x := Option.some.inj hx
  rw [head?_drop] at hy
  obtain ⟨hi', rfl⟩ := List.getElem?_eq_some_iff.mp hy
  exact isChain_iff_getElem.mp hhs i hi'

/-- What a refresh should leave of the chain of a wallet. -/
structure RefreshesExactly (getBlockHash : Block → Hash) (start : Nat) (hs : List Hash)
    (c c' : Hashchain) : Prop where
  /-- the blocks are in the chain -/
  hashes : ∀ i < hs.length, c'.hashAt (start + i) = hs[i]?
  /-- the hashes below the first one that is not known are the same -/
  below : ∀ height < start + c.known start hs, c'.hashAt height = c.hashAt height
  /-- the chain ends with the last block, or is the same -/
  last : if c.known start hs = hs.length then c' = c else c'.size = start + hs.length
  linked : c'.Linked getBlockHash

/-- The chain that the second loop leaves is the one that it should be, if the first block is known.
-/
theorem updated_exact (hoffset : c.offset ≤ start)
    (hsize : start < c.size) (hc : c.Linked getBlockHash)
    (hhs : hs.IsChain (IsParent getBlockHash)) (hfirst : hs ≠ [] → c.hashAt start = hs.head?) :
    RefreshesExactly getBlockHash start hs c (c.updated start hs) := by
  have hle := known_le c start hs
  have hend := known_size (Nat.le_of_lt hsize) hs
  have hknown : ∀ i < c.known start hs, c.hashAt (start + i) = hs[i]? :=
    fun i hi => hashAt_of_lt_known hi
  have hoffset' : c.offset ≤ start + c.known start hs := Nat.le_add_right_of_le hoffset
  unfold updated
  by_cases hall : c.known start hs = hs.length
  · rw [if_pos hall]
    refine ⟨fun i hi => hknown i (hall ▸ hi), fun _ _ => rfl, ?_, hc⟩
    rw [if_pos hall]
  rw [if_neg hall]
  refine ⟨fun i hi => ?_, fun height hlt => hashAt_rewrite_lt _ hlt hend, ?_, ?_⟩
  · by_cases hik : i < c.known start hs
    · rw [hashAt_rewrite_lt _ (Nat.add_lt_add_left hik start) hend, hknown i hik]
    · obtain ⟨j, rfl⟩ := Nat.exists_eq_add_of_le (Nat.not_lt.mp hik)
      rw [← Nat.add_assoc, hashAt_rewrite_ge _ hoffset' hend, getElem?_drop]
  · rw [if_neg hall, size_rewrite _ hoffset' hend, length_drop]
    omega
  · -- the first block is known, so there is a last one that is
    obtain ⟨i, hi⟩ : ∃ i, c.known start hs = i + 1 := by
      cases hs with
      | nil => exact absurd rfl hall
      | cons x hs =>
        have hx : c.hashAt start = some x := hfirst (cons_ne_nil x hs)
        rw [known, if_pos hx]
        exact ⟨_, rfl⟩
    rw [hi]
    exact rewrite_linked hc hhs (hknown i (by omega)) (by omega)

/-- **A refresh leaves the chain that it should**, and processes the blocks that are not in the
chain, in their order. -/
theorem processParsedBlocks_exact {cfg : RefreshSettings} {start : Nat}
    {blocks : List BlockCompleteEntry} {parsed : List (ParsedBlock getBlockHash)} {r : Refresh}
    (hlinked : w.blockchain.Linked getBlockHash)
    (h : processParsedBlocks a cfg start blocks parsed w = .ok r) :
    RefreshesExactly getBlockHash start (parsed.map ParsedBlock.hash) w.blockchain
        r.wallet.blockchain ∧
      r.passed = entriesFrom cfg
        (start + w.blockchain.known start (parsed.map ParsedBlock.hash))
        ((blocks.zip parsed).drop (w.blockchain.known start (parsed.map ParsedBlock.hash))) := by
  unfold processParsedBlocks at h
  split at h
  · cases h
  rename_i hlength
  rw [not_not] at hlength
  split at h
  · cases h
  rename_i hbounds
  rw [not_not, isInBounds, decide_eq_true_eq] at hbounds
  split at h
  · cases h
  rename_i hcheck
  have hhashes : hashesOf (blocks.zip parsed) = parsed.map ParsedBlock.hash := by
    calc hashesOf (blocks.zip parsed)
        = ((blocks.zip parsed).map Prod.snd).map ParsedBlock.hash := (map_map).symm
      _ = parsed.map ParsedBlock.hash := by
        rw [map_snd_zip (Nat.le_of_eq hlength.symm)]
  obtain ⟨hchain, hpassed⟩ := advanceAll_spec hbounds.1 (Nat.le_of_lt hbounds.2) h
  rw [hhashes] at hchain hpassed
  refine ⟨?_, hpassed⟩
  rw [hchain]
  refine updated_exact hbounds.1 hbounds.2 hlinked (checkParsed_linked hcheck).1 fun hx => ?_
  cases hzip : blocks.zip parsed with
  | nil =>
    rw [← hhashes, hzip] at hx
    exact absurd rfl hx
  | cons b bs =>
    rw [hzip] at h
    rw [← hhashes, hzip]
    exact advanceAll_start hbounds.1 hbounds.2 h

/-- A hash that is one byte of the nonce. -/
def nonceHash (b : Block) : Hash := Blob.fill (UInt8.ofNat b.nonce.toNat)

/-- A block for examples. -/
def sampleParsed (nonce : UInt32) (prevId : Hash) : ParsedBlock nonceHash where
  hash := Blob.fill (UInt8.ofNat nonce.toNat)
  block :=
    { majorVersion := 16, minorVersion := 16, timestamp := 0, prevId, nonce
      minerTx := { version := 2 }, txHashes := [] }
  hash_eq := rfl
  minerTx := sampleContext [1] [(7, 3)] 0
  numIndices := 1

/-- A wallet with three blocks, of which the first is not kept any more. -/
def sampleChain : Wallet2 := { blockchain := ⟨1, [Blob.fill 2, Blob.fill 3]⟩ }

theorem sampleChain_linked : sampleChain.blockchain.Linked nonceHash := by
  refine .cons_cons ⟨(sampleParsed 3 (Blob.fill 2)).block, rfl, rfl⟩ (.singleton _)

/-- The last block is replaced and another one follows. -/
theorem processParsedBlocks_exact_sample : ∃ r,
    processParsedBlocks sampleAccount {} 1 [⟨0⟩, ⟨0⟩, ⟨0⟩]
        [sampleParsed 2 nullHash, sampleParsed 4 (Blob.fill 2), sampleParsed 5 (Blob.fill 4)]
        sampleChain = .ok r ∧
      RefreshesExactly nonceHash 1 [Blob.fill 2, Blob.fill 4, Blob.fill 5] sampleChain.blockchain
        r.wallet.blockchain := by
  obtain ⟨r, h⟩ : ∃ r, processParsedBlocks sampleAccount {} 1 [⟨0⟩, ⟨0⟩, ⟨0⟩]
      [sampleParsed 2 nullHash, sampleParsed 4 (Blob.fill 2), sampleParsed 5 (Blob.fill 4)]
      sampleChain = .ok r := ⟨_, rfl⟩
  exact ⟨r, h, (processParsedBlocks_exact sampleChain_linked h).1⟩

end Hashmonkey.Wallet
