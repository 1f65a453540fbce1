import Hashmonkey.Core.RingMembers
import Hashmonkey.Core.Timestamps
import Hashmonkey.Basic.Hashes

/-!
# Checking the inputs of a transaction (`blockchain.cpp`, `check_tx_inputs`)

`checkTxInputs` is translated with all its checks: the number of outputs, the mixin rules, the
range of versions, the order of the key images, the loop over the inputs and the age of the
outputs, then the ring signatures. What it reads of the node is a `ChainView`: the outputs stored
for each amount, the spent key images, the timestamps of the main chain, and the scan table that
`prepare_handle_incoming_blocks` fills ahead of a batch of blocks (`scanTableEntry`). Parameters
stand for `cn_fast_hash`, for `ver_input_proofs_rings` (the ring signatures and range proofs) and
for `make_input_verification_id`.

The age of a transaction's outputs is judged by `*pmax_used_block_height`, the greatest height that
`scan_outputkeys_for_indexes` saw, and that function only looks at the last ring member.

* `scanOutputkeysForIndexes_eq`: a scan that succeeds read the stored output of every ring member
  and took in the height of the last one, whatever the scan table held;
* `checkTxInputs_ok`: what an accepted transaction has passed;
* **`ring_members_old_iff`**: from version 12 on, every ring member of an accepted transaction lies
  at or below the height reported and is ten blocks old, if and only if no input whose offsets wrap
  hides a ring member above the last ones;
* `young_ring_member_accepted`: an accepted transaction with a ring member of the top block.
-/

namespace Hashmonkey.Core

open Basic Ringct List

/-! ## What the checks read -/

/-- `output_data_t`. Heights are natural numbers. -/
structure OutputData where
  pubkey : PublicKey
  unlockTime : UInt64
  height : Nat
  commitment : Key
  deriving DecidableEq

/-- The stored outputs: `m_db->get_output_key(amount, index)`, `none` where it throws. -/
abbrev OutputTable := UInt64 → UInt64 → Option OutputData

/-- What `check_tx_inputs` reads of the `Blockchain` object. -/
structure ChainView where
  /-- `m_hardfork->get_current_version()` -/
  hfVersion : UInt8
  /-- the timestamps of the main chain, by height -/
  timestamps : List UInt64
  /-- `time(NULL)` -/
  now : UInt64
  /-- `m_db->get_num_outputs(amount)` -/
  numOutputs : UInt64 → UInt64
  outputKey : OutputTable
  /-- `have_tx_keyimg_as_spent` -/
  spent : KeyImage → Bool
  /-- `m_scan_table` -/
  scanTable : Hash → KeyImage → Option (List OutputData)

/-- `m_db->height()`. -/
def ChainView.height (v : ChainView) : Nat := v.timestamps.length

/-- The bulk `m_db->get_output_key` with `allow_partial`: stops at the first missing output. -/
def OutputTable.getOutputKeys (db : OutputTable) (amount : UInt64) :
    List UInt64 → List OutputData
  | [] => []
  | offset :: offsets =>
    match db amount offset with
    | none => []
    | some o => o :: db.getOutputKeys amount offsets

/-- The entry of the scan table for one input, as `prepare_handle_incoming_blocks` fills it from the
sorted offsets `requested` of all transactions of the batch for this amount. -/
def scanTableEntry (db : OutputTable) (amount : UInt64) (requested : List UInt64) :
    List UInt64 → List OutputData
  | [] => []
  | offset :: needed =>
    let found := db.getOutputKeys amount requested
    match found[requested.idxOf offset]? with
    | none => []
    | some o => o :: scanTableEntry db amount requested needed

/-! ## One input -/

/-- `Blockchain::is_tx_spendtime_unlocked`, with `CRYPTONOTE_MAX_BLOCK_NUMBER` and the allowed
deltas of one block. -/
def isTxSpendtimeUnlocked (v : ChainView) (unlockTime : UInt64) : Bool :=
  if unlockTime < 500000000 then UInt64.ofNat v.height - 1 + 1 ≥ unlockTime
  else
    let currentTime := if v.hfVersion ≥ 13 then getAdjustedTime v.timestamps v.now else v.now
    currentTime + (if v.hfVersion < 2 then difficultyTargetV1 else difficultyTargetV2) ≥ unlockTime

/-- The loop of `scan_outputkeys_for_indexes` over the absolute offsets, with the outputs fetched so
far: the ring with its commitments, and `*pmax_related_block_height` raised to the height of the
last output. The visitor's `handle_output` takes an output by its unlock time. -/
def handleOutputs (v : ChainView) (handleOutput : UInt64 → Bool) (amount : UInt64) :
    List UInt64 → List OutputData → Nat → Option (List CtKey × Nat)
  | [], _, pmax => some ([], pmax)
  | offset :: offsets, outputs, pmax =>
    match (outputs.head?).or (v.outputKey amount offset) with
    | none => none
    | some o =>
      if handleOutput o.unlockTime then
        let pmax := if offsets.isEmpty ∧ pmax < o.height then o.height else pmax
        match handleOutputs v handleOutput amount offsets outputs.tail pmax with
        | none => none
        | some (keys, pmax) => some (⟨o.pubkey, o.commitment⟩ :: keys, pmax)
      else none

/-- The outputs that `scan_outputkeys_for_indexes` fetches before its loop. -/
def fetchOutputs (v : ChainView) (i : TxinToKey) (txPrefixHash : Hash) :
    Option (List OutputData) :=
  let absoluteOffsets := relativeOutputOffsetsToAbsolute i.keyOffsets
  match v.scanTable txPrefixHash i.kImage with
  | none =>
    let outputs := v.outputKey.getOutputKeys i.amount absoluteOffsets
    if absoluteOffsets.length ≠ outputs.length then none else some outputs
  | some outputs =>
    -- partial results are completed, an empty entry is not
    if outputs.length < absoluteOffsets.length ∧ outputs.length > 0 then
      let addOffsets := absoluteOffsets.drop outputs.length
      let addOutputs := v.outputKey.getOutputKeys i.amount addOffsets
      if addOffsets.length ≠ addOutputs.length then none else some (outputs ++ addOutputs)
    else some outputs

/-- `Blockchain::scan_outputkeys_for_indexes`. -/
def scanOutputkeysForIndexes (v : ChainView) (handleOutput : UInt64 → Bool) (i : TxinToKey)
    (txPrefixHash : Hash) (pmax : Nat) : Option (List CtKey × Nat) :=
  if i.keyOffsets.isEmpty then none
  else
    match fetchOutputs v i txPrefixHash with
    | none => none
    | some outputs =>
      handleOutputs v handleOutput i.amount (relativeOutputOffsetsToAbsolute i.keyOffsets) outputs
        pmax

/-- `Blockchain::check_tx_input`. -/
def checkTxInput (v : ChainView) (txVersion : UInt64) (i : TxinToKey) (txPrefixHash : Hash)
    (sig : List Signature) (pmax : Nat) : Option (List CtKey × Nat) :=
  match scanOutputkeysForIndexes v (isTxSpendtimeUnlocked v) i txPrefixHash pmax with
  | none => none
  | some (outputKeys, pmax) =>
    if i.keyOffsets.length ≠ outputKeys.length then none
    else if txVersion = 1 ∧ sig.length ≠ outputKeys.length then none
    else some (outputKeys, pmax)

/-! ## All inputs -/

/-- Why `check_tx_inputs` fails. -/
inductive TxInputsError
  | fewerThanTwoOutputs
  | varyingRingSize
  | tooLowRingSize
  | tooLowRingSizeManyMixable
  | invalidRingSize
  | versionTooHigh
  | versionTooLow
  | unsortedInputs
  | wrongInputType
  | emptyKeyOffsets
  | keyImageSpent
  | noSignatureEntry
  | ringSignature (sigIndex : Nat)
  | outputTooYoung
  | transactionHash
  | inputProofs
  deriving DecidableEq

/-- The counters of the mixin rules: `n_unmixable`, `n_mixable`, and the range of ring sizes less
one, which are `size_t`. -/
structure MixinCounts where
  nUnmixable : Nat := 0
  nMixable : Nat := 0
  minActualMixin : Nat := 2 ^ 64 - 1
  maxActualMixin : Nat := 0

/-- `min_mixin`. -/
def minMixin (hfVersion : UInt8) : Nat :=
  if hfVersion ≥ 15 then 15 else if hfVersion ≥ 8 then 10 else if hfVersion ≥ 7 then 6
  else if hfVersion ≥ 6 then 4 else 2

/-- One input in the loop of the mixin rules. -/
def MixinCounts.add (v : ChainView) (c : MixinCounts) : TxinV → MixinCounts
  | .key i =>
    let mixable := i.amount = 0 ∨ minMixin v.hfVersion < (v.numOutputs i.amount).toNat
    let ringMixin := (i.keyOffsets.length + (2 ^ 64 - 1)) % 2 ^ 64
    { nUnmixable := if mixable then c.nUnmixable else c.nUnmixable + 1
      nMixable := if mixable then c.nMixable + 1 else c.nMixable
      minActualMixin := min ringMixin c.minActualMixin
      maxActualMixin := max ringMixin c.maxActualMixin }
  | _ => c

/-- The rules on ring sizes and versions, from hard fork 2 on. -/
def checkMixins (v : ChainView) (tx : Transaction) : Except TxInputsError Unit :=
  let hf := v.hfVersion
  let c := tx.vin.foldl (MixinCounts.add v) {}
  let low := c.minActualMixin < minMixin hf ∧ ¬ (hf = 15 ∧ c.minActualMixin = 10)
  if hf < 2 then .ok ()
  else if hf ≥ 12 ∧ c.minActualMixin ≠ c.maxActualMixin then .error .varyingRingSize
  else if low ∧ c.nUnmixable = 0 then .error .tooLowRingSize
  else if low ∧ c.nMixable > 1 then .error .tooLowRingSizeManyMixable
  else if ¬ low ∧ ((hf > 15 ∧ c.minActualMixin > 15) ∨
      (hf = 15 ∧ c.minActualMixin ≠ 15 ∧ c.minActualMixin ≠ 10) ∨
      (hf < 15 ∧ hf ≥ 10 ∧ c.minActualMixin > 10) ∨
      ((hf = 8 ∨ hf = 9) ∧ c.minActualMixin ≠ 10)) then .error .invalidRingSize
  else if tx.version > (if hf ≤ 3 then 1 else 2) then .error .versionTooHigh
  else if tx.version < (if c.nUnmixable > 0 then 1 else if hf ≥ 6 then 2 else 1) then
    .error .versionTooLow
  else .ok ()

/-- The key images of the inputs, in order. -/
def keyImages (vin : List TxinV) : List KeyImage :=
  vin.filterMap fun
    | .key i => some i.kImage
    | _ => none

/-- From hard fork 7 on, each key image is below the one before it (`memcmp`). -/
def sortedInputs (vin : List TxinV) : Bool :=
  let images := keyImages vin
  (images.zip images.tail).all fun (last, next) => decide (next.1 < last.1)

/-- The loop of `check_tx_inputs` over the inputs, from the one with index `sigIndex` on: the rings,
and `*pmax_used_block_height`. -/
def checkEachInput (v : ChainView) (tx : Transaction) (txPrefixHash : Hash) :
    List TxinV → Nat → Nat → Except TxInputsError (List (List CtKey) × Nat)
  | [], _, pmax => .ok ([], pmax)
  | .key i :: vin, sigIndex, pmax =>
    if i.keyOffsets.isEmpty then .error .emptyKeyOffsets
    else if v.spent i.kImage then .error .keyImageSpent
    else if tx.version = 1 ∧ ¬ sigIndex < tx.signatures.length then .error .noSignatureEntry
    else
      let sig := if tx.version = 1 then tx.signatures.getD sigIndex [] else []
      match checkTxInput v tx.version i txPrefixHash sig pmax with
      | none => .error (.ringSignature sigIndex)
      | some (keys, pmax) =>
        match checkEachInput v tx txPrefixHash vin (sigIndex + 1) pmax with
        | .error e => .error e
        | .ok (pubkeys, pmax) => .ok (keys :: pubkeys, pmax)
  | _ :: _, _, _ => .error .wrongInputType

section
variable (cnFastHash : Bytes → Hash)
  (verInputProofsRings : Transaction → List (List CtKey) → Bool)
  (makeInputVerificationId : Hash → List (List CtKey) → Hash)

/-- The end of `check_tx_inputs`: the ring signatures, unless the given id shows that they were
found valid before. Gives the id to keep. -/
def verifyInputProofs (tx : Transaction) (pubkeys : List (List CtKey)) (validId : Hash) :
    Except TxInputsError Hash :=
  match getTransactionHash cnFastHash tx with
  | none => .error .transactionHash
  | some txid =>
    let calculatedId := makeInputVerificationId txid pubkeys
    if validId ≠ nullHash ∧ calculatedId = validId then .ok validId
    else if verInputProofsRings tx pubkeys then .ok calculatedId
    else .error .inputProofs

/-- `Blockchain::check_tx_inputs`: the input verification id and `*pmax_used_block_height`. -/
def checkTxInputs (v : ChainView) (tx : Transaction) (validId : Hash) :
    Except TxInputsError (Hash × Nat) :=
  let txPrefixHash := getTransactionPrefixHash cnFastHash tx.toTransactionPrefix
  if v.hfVersion ≥ 12 ∧ tx.version ≥ 2 ∧ tx.vout.length < 2 then .error .fewerThanTwoOutputs
  else
    match checkMixins v tx with
    | .error e => .error e
    | .ok () =>
      if v.hfVersion ≥ 7 ∧ ¬ sortedInputs tx.vin then .error .unsortedInputs
      else
        match checkEachInput v tx txPrefixHash tx.vin 0 0 with
        | .error e => .error e
        | .ok (pubkeys, pmax) =>
          if v.hfVersion ≥ 12 ∧ ¬ pmax + 10 ≤ v.height then .error .outputTooYoung
          else
            match verifyInputProofs cnFastHash verInputProofsRings makeInputVerificationId
              tx pubkeys validId with
            | .error e => .error e
            | .ok id => .ok (id, pmax)

end

/-! ## What a scan has read -/

/-- The outputs stored for the amount at the given offsets, one for one. -/
def StoredAt (db : OutputTable) (amount : UInt64) : List UInt64 → List OutputData → Prop :=
  List.Forall₂ fun offset o => db amount offset = some o

/-- The ring members of an input: the outputs stored at its absolute offsets. -/
def RingMembers (v : ChainView) (i : TxinToKey) (members : List OutputData) : Prop :=
  StoredAt v.outputKey i.amount (relativeOutputOffsetsToAbsolute i.keyOffsets) members

/-- The height of the last ring member. -/
def lastHeight (members : List OutputData) : Nat :=
  (members.getLast?.map OutputData.height).getD 0

/-- The scan table holds for each input of the transaction what `prepare_handle_incoming_blocks`
put there, from outputs that are still stored. -/
def ScanTableFilled (v : ChainView) (tx : Transaction) (txPrefixHash : Hash) : Prop :=
  ∀ i, .key i ∈ tx.vin → ∀ outputs, v.scanTable txPrefixHash i.kImage = some outputs →
    ∃ (db : OutputTable) (requested : List UInt64),
      (∀ amount offset o, db amount offset = some o → v.outputKey amount offset = some o) ∧
      outputs = scanTableEntry db i.amount requested (relativeOutputOffsetsToAbsolute i.keyOffsets)

variable {db : OutputTable} {amount : UInt64} {os : List OutputData}

theorem getOutputKeys_stored (db : OutputTable) (amount : UInt64) (offsets : List UInt64) :
    StoredAt db amount (offsets.take (db.getOutputKeys amount offsets).length)
      (db.getOutputKeys amount offsets) := by
  induction offsets with
  | nil => exact List.Forall₂.nil
  | cons offset offsets ih =>
    rw [OutputTable.getOutputKeys]
    cases h : db amount offset with
    | none => exact List.Forall₂.nil
    | some o => exact List.Forall₂.cons h ih

variable {offsets : List UInt64}

theorem getOutputKeys_stored_all (h : offsets.length = (db.getOutputKeys amount offsets).length) :
    StoredAt db amount offsets (db.getOutputKeys amount offsets) := by
  have hs := getOutputKeys_stored db amount offsets
  rwa [← h, take_length] at hs

theorem getOutputKeys_getElem?
    {n : Nat} {o : OutputData} (h : (db.getOutputKeys amount offsets)[n]? = some o) :
    ∃ offset, offsets[n]? = some offset ∧ db amount offset = some o := by
  induction offsets generalizing n with
  | nil => cases h
  | cons offset offsets ih =>
    rw [OutputTable.getOutputKeys] at h
    cases hdb : db amount offset with
    | none => rw [hdb] at h; cases h
    | some o' =>
      rw [hdb] at h
      cases n with
      | zero =>
        cases h
        exact ⟨offset, rfl, hdb⟩
      | succ n => exact ih h

theorem scanTableEntry_stored (db : OutputTable) (amount : UInt64)
    (requested needed : List UInt64) :
    StoredAt db amount (needed.take (scanTableEntry db amount requested needed).length)
      (scanTableEntry db amount requested needed) := by
  induction needed with
  | nil => exact List.Forall₂.nil
  | cons offset needed ih =>
    rw [scanTableEntry]
    cases h : (db.getOutputKeys amount requested)[requested.idxOf offset]? with
    | none => exact List.Forall₂.nil
    | some o =>
      obtain ⟨offset', hoff, hdb⟩ := getOutputKeys_getElem? h
      have hlt : requested.idxOf offset < requested.length := by
        by_contra hge
        rw [getElem?_eq_none (Nat.le_of_not_lt hge)] at hoff
        cases hoff
      rw [getElem?_eq_getElem hlt, getElem_idxOf hlt] at hoff
      cases hoff
      exact List.Forall₂.cons hdb ih

variable {v : ChainView} {tx : Transaction} {i : TxinToKey} {h : Hash}

/-- What is fetched before the loop is stored at the first absolute offsets, wherever it comes
from. -/
theorem fetchOutputs_stored {outputs : List OutputData} (hfill : ScanTableFilled v tx h)
    (hi : .key i ∈ tx.vin) (hf : fetchOutputs v i h = some outputs) :
    StoredAt v.outputKey i.amount
      ((relativeOutputOffsetsToAbsolute i.keyOffsets).take outputs.length) outputs := by
  unfold fetchOutputs at hf
  cases ht : v.scanTable h i.kImage with
  | none =>
    simp only [ht] at hf
    split at hf
    · cases hf
    cases hf
    exact getOutputKeys_stored ..
  | some cached =>
    simp only [ht] at hf
    obtain ⟨db, requested, hsub, hcached⟩ := hfill i hi cached ht
    have hst : StoredAt v.outputKey i.amount
        ((relativeOutputOffsetsToAbsolute i.keyOffsets).take cached.length) cached := by
      rw [hcached]
      exact (scanTableEntry_stored ..).imp fun _ _ => hsub _ _ _
    split at hf
    · split at hf
      · cases hf
      · cases hf
        rename_i hadd
        have hall := rel_append hst (getOutputKeys_stored_all (not_not.mp hadd))
        dsimp only at hall
        rw [take_append_drop] at hall
        rwa [StoredAt, ← hall.length_eq, take_length]
    · cases hf
      exact hst

theorem lastHeight_cons {o : OutputData} (h : os ≠ []) : lastHeight (o :: os) = lastHeight os := by
  rw [lastHeight, lastHeight, getLast?_cons_of_ne_nil h]

variable {pmax pmax' : Nat} {keys : List CtKey}

/-- The loop over the offsets reads the stored output of each and takes in the height of the
last. -/
theorem handleOutputs_eq {ok : UInt64 → Bool} {outputs : List OutputData}
    (hst : StoredAt v.outputKey amount (offsets.take outputs.length) outputs)
    (h : handleOutputs v ok amount offsets outputs pmax = some (keys, pmax')) :
    ∃ members, StoredAt v.outputKey amount offsets members ∧
      pmax' = max pmax (lastHeight members) := by
  induction offsets generalizing outputs pmax keys with
  | nil =>
    cases h
    exact ⟨[], List.Forall₂.nil, (Nat.max_zero _).symm⟩
  | cons offset offsets ih =>
    -- the output of this step, cached or read now, is the stored one
    obtain ⟨o, ho, hread, hst'⟩ : ∃ o, v.outputKey amount offset = some o ∧
        (outputs.head?).or (v.outputKey amount offset) = some o ∧
        StoredAt v.outputKey amount (offsets.take outputs.tail.length) outputs.tail := by
      cases outputs with
      | nil =>
        cases hdb : v.outputKey amount offset with
        | none => simp [handleOutputs, hdb] at h
        | some o => exact ⟨o, rfl, rfl, List.Forall₂.nil⟩
      | cons o outputs =>
        obtain ⟨hdb, hrest⟩ := forall₂_cons.mp hst
        exact ⟨o, hdb, rfl, hrest⟩
    rw [handleOutputs, hread] at h
    dsimp only at h
    split at h
    · split at h
      · cases h
      · rename_i keys' m hrec
        cases h
        obtain ⟨members, hmem, rfl⟩ := ih hst' hrec
        refine ⟨o :: members, List.Forall₂.cons ho hmem, ?_⟩
        cases offsets with
        | nil =>
          cases hmem
          simp only [isEmpty_nil, true_and, lastHeight, getLast?_nil, getLast?_singleton,
            Option.map_none, Option.map_some, Option.getD_none, Option.getD_some]
          split <;> omega
        | cons offset' offsets =>
          have hne : members ≠ [] := by
            rintro rfl
            cases hmem
          simp [lastHeight_cons hne]
    · cases h

/-- A scan that succeeds read the stored output of every ring member and took in the height of the
last one. -/
theorem scanOutputkeysForIndexes_eq {ok : UInt64 → Bool} (hfill : ScanTableFilled v tx h)
    (hi : .key i ∈ tx.vin) (hs : scanOutputkeysForIndexes v ok i h pmax = some (keys, pmax')) :
    ∃ members, RingMembers v i members ∧ pmax' = max pmax (lastHeight members) := by
  unfold scanOutputkeysForIndexes at hs
  split at hs
  · cases hs
  split at hs
  · cases hs
  rename_i outputs hf
  exact handleOutputs_eq (fetchOutputs_stored hfill hi hf) hs

theorem checkTxInput_eq {version : UInt64} {sig : List Signature} (hfill : ScanTableFilled v tx h)
    (hi : .key i ∈ tx.vin) (hs : checkTxInput v version i h sig pmax = some (keys, pmax')) :
    ∃ members, RingMembers v i members ∧ pmax' = max pmax (lastHeight members) := by
  unfold checkTxInput at hs
  split at hs
  · cases hs
  rename_i keys' m hscan
  split at hs
  · cases hs
  split at hs
  · cases hs
  cases hs
  exact scanOutputkeysForIndexes_eq hfill hi hscan

/-! ## What the loop over the inputs leaves -/

/-- The height reported for a list of inputs: at or above the last ring member of each, and reached
by one of them unless it is still where it started. -/
structure MaxUsed (v : ChainView) (vin : List TxinV) (start reported : Nat) : Prop where
  start_le : start ≤ reported
  bound : ∀ x ∈ vin, ∃ i members,
    x = .key i ∧ RingMembers v i members ∧ lastHeight members ≤ reported
  reached : reported = start ∨ ∃ i members,
    .key i ∈ vin ∧ RingMembers v i members ∧ lastHeight members = reported

theorem checkEachInput_maxUsed (hfill : ScanTableFilled v tx h) {vin : List TxinV}
    (hsub : ∀ x ∈ vin, x ∈ tx.vin) {n : Nat} {pubkeys : List (List CtKey)}
    (hc : checkEachInput v tx h vin n pmax = .ok (pubkeys, pmax')) : MaxUsed v vin pmax pmax' := by
  induction vin generalizing n pmax pubkeys with
  | nil =>
    cases hc
    exact ⟨Nat.le_refl _, forall_mem_nil _, .inl rfl⟩
  | cons x vin ih =>
    obtain ⟨hx, hvin⟩ := forall_mem_cons.mp hsub
    cases x with
    | gen _ | script _ | scripthash _ => cases hc
    | key i =>
      simp only [checkEachInput] at hc
      split at hc
      · cases hc
      split at hc
      · cases hc
      split at hc
      · cases hc
      split at hc
      · cases hc
      rename_i keys m hone
      split at hc
      · cases hc
      rename_i rest m' hrest
      cases hc
      obtain ⟨members, hmem, rfl⟩ := checkTxInput_eq hfill hx hone
      have hr := ih hvin hrest
      have hle := hr.start_le
      refine ⟨by omega, ?_, ?_⟩
      · refine forall_mem_cons.mpr ⟨⟨i, members, rfl, hmem, by omega⟩, hr.bound⟩
      · rcases hr.reached with heq | ⟨j, ms, hj, hms, heq⟩
        · by_cases hbig : pmax < lastHeight members
          · exact .inr ⟨i, members, mem_cons_self .., hmem, by omega⟩
          · exact .inl (by omega)
        · exact .inr ⟨j, ms, mem_cons_of_mem _ hj, hms, heq⟩

section
variable {cnFastHash : Bytes → Hash}
  {verInputProofsRings : Transaction → List (List CtKey) → Bool}
  {makeInputVerificationId : Hash → List (List CtKey) → Hash}

/-- What an accepted transaction has passed: the loop over its inputs, and from version 12 on the
check of the age. -/
theorem checkTxInputs_ok {validId id : Hash}
    (hok : checkTxInputs cnFastHash verInputProofsRings makeInputVerificationId v tx validId =
      .ok (id, pmax)) :
    (∃ pubkeys, checkEachInput v tx
        (getTransactionPrefixHash cnFastHash tx.toTransactionPrefix) tx.vin 0 0 =
      .ok (pubkeys, pmax)) ∧ (12 ≤ v.hfVersion → pmax + 10 ≤ v.height) := by
  unfold checkTxInputs at hok
  dsimp only at hok
  split at hok
  · cases hok
  split at hok
  · cases hok
  split at hok
  · cases hok
  split at hok
  · cases hok
  rename_i pubkeys m hloop
  split at hok
  · cases hok
  rename_i hage
  split at hok
  · cases hok
  cases hok
  exact ⟨⟨pubkeys, hloop⟩, fun hhf => not_not.mp fun hy => hage ⟨hhf, hy⟩⟩

/-! ## The age of the ring members -/

/-- For a fixed amount, the heights of the stored outputs do not decrease with the index. -/
def HeightsNondecreasing (db : OutputTable) : Prop :=
  ∀ amount k l o p, k ≤ l → db amount k = some o → db amount l = some p → o.height ≤ p.height

theorem RingMembers.unique {ms ms' : List OutputData}
    (h : RingMembers v i ms) (h' : RingMembers v i ms') : ms = ms' :=
  right_unique_forall₂' (fun _ _ _ h1 h2 => Option.some.inj (h1.symm.trans h2)) h h'

/-- With offsets in ascending order the last output is the highest. -/
theorem StoredAt.height_le_last (hmono : HeightsNondecreasing db)
    {ks : List UInt64} (h : StoredAt db amount ks os)
    (hks : ks.Pairwise (· ≤ ·)) : ∀ o ∈ os, o.height ≤ lastHeight os := by
  induction h with
  | nil => exact forall_mem_nil _
  | @cons k o ks os hk htail ih =>
    obtain ⟨hle, hks⟩ := pairwise_cons.mp hks
    cases os with
    | nil => exact fun o' ho' => by simp_all [lastHeight]
    | cons o2 os =>
      refine forall_mem_cons.mpr ⟨?_, ih hks⟩
      -- the next output is not below this one
      cases htail with
      | cons hk2 _ =>
        exact (hmono amount k _ o o2 (hle _ (mem_cons_self ..)) hk hk2).trans
          (ih hks o2 (mem_cons_self ..))

variable (cnFastHash verInputProofsRings makeInputVerificationId)

/-- **The ring members of an accepted transaction lie at or below the height reported, and are ten
blocks old, if and only if no input whose offsets wrap has a ring member above the last ring members
of all inputs.** -/
theorem ring_members_old_iff (v : ChainView) (tx : Transaction) (validId id : Hash) (pmax : Nat)
    (hhf : 12 ≤ v.hfVersion) (hmono : HeightsNondecreasing v.outputKey)
    (hfill : ScanTableFilled v tx (getTransactionPrefixHash cnFastHash tx.toTransactionPrefix))
    (hok : checkTxInputs cnFastHash verInputProofsRings makeInputVerificationId v tx validId =
      .ok (id, pmax)) :
    (∀ i, .key i ∈ tx.vin → ∃ members, RingMembers v i members ∧
        ∀ o ∈ members, o.height ≤ pmax ∧ o.height + 10 ≤ v.height) ↔
      ∀ i members, .key i ∈ tx.vin → 2 ^ 64 ≤ offsetTotal i.keyOffsets → RingMembers v i members →
        ∀ o ∈ members, ∃ j last, .key j ∈ tx.vin ∧ RingMembers v j last ∧
          o.height ≤ lastHeight last := by
  obtain ⟨⟨pubkeys, hloop⟩, hage⟩ := checkTxInputs_ok hok
  have hmax := checkEachInput_maxUsed hfill (fun _ hx => hx) hloop
  constructor
  · intro hold i members hi _ hmem o ho
    obtain ⟨members', hmem', hle⟩ := hold i hi
    obtain rfl := hmem.unique hmem'
    have hpmax := (hle o ho).1
    rcases hmax.reached with hzero | ⟨j, last, hj, hlast, heq⟩
    · exact ⟨i, members, hi, hmem, by omega⟩
    · exact ⟨j, last, hj, hlast, by omega⟩
  · intro hcond i hi
    obtain ⟨j, members, hj, hmem, hlast⟩ := hmax.bound _ hi
    cases hj
    refine ⟨members, hmem, fun o ho => ?_⟩
    have hle : o.height ≤ pmax := by
      by_cases hwrap : offsetTotal i.keyOffsets < 2 ^ 64
      · exact (StoredAt.height_le_last hmono hmem (absolute_pairwise_le hwrap) o ho).trans hlast
      · obtain ⟨j, last, hj, hjlast, hjle⟩ :=
          hcond i members hi (Nat.le_of_not_lt hwrap) hmem o ho
        obtain ⟨j', last', heq, hjlast', hjle'⟩ := hmax.bound _ hj
        cases heq
        obtain rfl := hjlast.unique hjlast'
        omega
    have := hage hhf
    exact ⟨hle, by omega⟩

end

/-- The output of the block with the same height as its index. -/
def sampleOutput (index : UInt64) : OutputData := ⟨nullHash, 0, index.toNat, nullHash⟩

/-- A chain of a hundred blocks with one output of amount zero in each. -/
def sampleView : ChainView where
  hfVersion := 16
  timestamps := List.replicate 100 0
  now := 0
  numOutputs := fun _ => 100
  outputKey := fun amount index =>
    if amount = 0 ∧ index < 100 then some (sampleOutput index) else none
  spent := fun _ => false
  scanTable := fun _ _ => none

/-- A transaction with one input of sixteen ring members and two outputs. -/
def sampleRingTx (first second : UInt64) : Transaction :=
  { version := 2
    vin := [.key ⟨0, first :: second :: List.replicate 14 1, nullHash⟩]
    vout := [⟨0, .key nullHash⟩, ⟨0, .key nullHash⟩]
    hash := some nullHash }

theorem sampleView_nondecreasing : HeightsNondecreasing sampleView.outputKey := by
  intro amount k l o p hkl ho hp
  simp only [sampleView] at ho hp
  split at ho
  · split at hp
    · cases ho
      cases hp
      exact UInt64.le_iff_toNat_le.mp hkl
    · cases hp
  · cases ho

theorem ring_members_old_iff_sample :
    (∀ i, .key i ∈ (sampleRingTx 0 1).vin → ∃ members, RingMembers sampleView i members ∧
        ∀ o ∈ members, o.height ≤ 15 ∧ o.height + 10 ≤ sampleView.height) ↔
      ∀ i members, .key i ∈ (sampleRingTx 0 1).vin → 2 ^ 64 ≤ offsetTotal i.keyOffsets →
        RingMembers sampleView i members →
        ∀ o ∈ members, ∃ j last, .key j ∈ (sampleRingTx 0 1).vin ∧
          RingMembers sampleView j last ∧ o.height ≤ lastHeight last :=
  ring_members_old_iff sumHash (fun _ _ => true) (fun _ _ => nullHash) sampleView
    (sampleRingTx 0 1) nullHash nullHash 15 (by decide) sampleView_nondecreasing
    (fun _ _ _ h => by cases h) rfl

/-- **A transaction with a ring member of the top block is accepted**: the second offset goes back
from output 99 to output 0, and the height reported is that of the last ring member. -/
theorem young_ring_member_accepted :
    HeightsNondecreasing sampleView.outputKey ∧
      checkTxInputsRingMembersDiff (sampleRingTx 99 (0 - 99)) sampleView.hfVersion = true ∧
      checkTxInputs sumHash (fun _ _ => true) (fun _ _ => nullHash) sampleView
        (sampleRingTx 99 (0 - 99)) nullHash = .ok (nullHash, 14) ∧
      ∃ i members, .key i ∈ (sampleRingTx 99 (0 - 99)).vin ∧ RingMembers sampleView i members ∧
        sampleOutput 99 ∈ members ∧ (sampleOutput 99).height = 99 ∧ sampleView.height = 100 := by
  refine ⟨sampleView_nondecreasing, by decide, rfl, _,
    (relativeOutputOffsetsToAbsolute (99 :: (0 - 99) :: List.replicate 14 1)).map sampleOutput,
    mem_cons_self .., ?_, by decide, by decide⟩
  have hstored : (relativeOutputOffsetsToAbsolute (99 :: (0 - 99) :: List.replicate 14 1)).all
      fun k => sampleView.outputKey 0 k = some (sampleOutput k) := by decide
  exact (forall₂_map_right_iff (f := sampleOutput)).mpr (forall₂_same.mpr fun k hk =>
    of_decide_eq_true (all_eq_true.mp hstored k hk))

end Hashmonkey.Core
