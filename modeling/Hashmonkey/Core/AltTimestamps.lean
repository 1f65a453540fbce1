import Hashmonkey.Core.Steps

/-!
# The timestamp of an alternative block (`blockchain.cpp`)

`handle_alternative_block` compares the timestamp of a block with the median of the vector that
`build_alt_chain` and `complete_timestamps_vector` collect. `handle_block_to_main_chain` checks it
with `check_block_timestamp(b)`. Both read the timestamps of the ancestors of the block, here newest
first:

* `altTimestampWindow`: the alternative blocks, all of them, filled up to 60 from the main chain.
  The genesis block is never among them;
* `altTimestampVerdict`, `mainTimestampVerdict`: the two checks, as functions of the ancestors. The
  second also bounds the timestamp by the clock, and checks nothing below height 60.

Results: `buildAltChain_timestamps` and `checkBlockTimestamp_eq` say that these are the checks of
the code. **The verdicts agree on all ancestors** exactly for blocks that are not in the future, at
height 1 or at a height of at least 61 with at most 60 alternative ancestors
(`timestamp_verdicts_agree_iff`); the last number of 64 bits passes any median.
-/

namespace Hashmonkey.Core

open Basic List

variable {P : Type} {n : Node P}

/-! ## The two checks -/

/-- The timestamps that an alternative block is compared with, for the number of alternative blocks
among its ancestors. -/
def altTimestampWindow (altLength : Nat) (ancestors : List UInt64) : List UInt64 :=
  ancestors.dropLast.take (max timestampCheckWindow altLength)

/-- The check of `handle_alternative_block`. -/
def altTimestampVerdict (altLength : Nat) (ancestors : List UInt64) (timestamp : UInt64) : Bool :=
  ¬ timestamp < median (altTimestampWindow altLength ancestors)

/-- The check of `handle_block_to_main_chain`. -/
def mainTimestampVerdict (now : UInt64) (ancestors : List UInt64) (timestamp : UInt64) : Bool :=
  if timestamp > now + blockFutureTimeLimit then false
  else if ancestors.length < timestampCheckWindow then true
  else ¬ timestamp < median (ancestors.take timestampCheckWindow)

/-- The ancestors of a block on an alternative chain, newest first. -/
def altAncestry (n : Node P) (s : Blockchain P) (altChain : List BlockExtendedInfo)
    (prevId : Hash) : List Block :=
  let splitParent := (altChain.head?.map fun bei => bei.bl.prevId).getD prevId
  altChain.reverse.map BlockExtendedInfo.bl ++ (s.upTo n splitParent).map StoredBlock.bl

theorem completeTimestampsVector_eq {s : Blockchain P} {id : Hash}
    (hexists : s.blockExists n id = true) (timestamps : List UInt64) :
    completeTimestampsVector s (s.getBlockHeight n id) timestamps =
      altTimestampWindow timestamps.length
        (timestamps ++ timestampsOf ((s.upTo n id).map StoredBlock.bl)) := by
  have hne := (topId_upTo hexists).2
  have hpos : 0 < (s.upTo n id).length := length_pos_iff.mpr hne
  have hle : (s.upTo n id).length ≤ s.height := (dropWhile_suffix _).length_le
  have hdrop := upTo_eq_drop (n := n) s id
  have hmap : timestampsOf ((s.upTo n id).map StoredBlock.bl) ≠ [] := by
    simpa [timestampsOf] using hne
  rw [altTimestampWindow, dropLast_append_of_ne_nil hmap, completeTimestampsVector,
    Blockchain.getBlockHeight]
  by_cases hfull : timestamps.length ≥ timestampCheckWindow
  · rw [if_pos (.inl hfull), max_eq_right hfull, take_left]
  have hroom : ¬ (timestamps.length ≥ timestampCheckWindow ∨
      (s.upTo n id).length - 1 ≥ s.height) := by omega
  rw [if_neg hroom]
  dsimp only
  rw [max_eq_left (Nat.le_of_not_le hfull), take_append,
    take_of_length_le (Nat.le_of_not_le hfull), dropLast_eq_take, take_take]
  congr 1
  rw [between, ← map_reverse, reverse_reverse, Nat.sub_add_cancel hpos]
  change ((s.chain.drop (s.height - (s.upTo n id).length)).take _).map _ = _
  rw [← hdrop, map_take, timestampsOf, map_map, length_map]
  congr 1
  omega

/-- **The vector of `build_alt_chain`** has the timestamps of the ancestors without the genesis
block: 60 of them, or those of all alternative blocks. -/
theorem buildAltChain_timestamps {s : Blockchain P} {prevId : Hash}
    {altChain : List BlockExtendedInfo} {timestamps : List UInt64}
    (h : buildAltChain n s prevId = some (altChain, timestamps)) :
    timestamps = altTimestampWindow altChain.length
        (timestampsOf (altAncestry n s altChain prevId)) ∧
      altChain.length < (altAncestry n s altChain prevId).length := by
  unfold buildAltChain at h
  split at h
  · cases h
  · -- the parent is on the main chain
    split at h
    · cases h
    rename_i hexists
    cases h
    have hne := (topId_upTo (not_not.mp hexists)).2
    refine ⟨completeTimestampsVector_eq (not_not.mp hexists) [], ?_⟩
    simpa [altAncestry, length_pos_iff] using hne
  · -- the parent of the oldest alternative block is
    split at h
    · cases h
    split at h
    · cases h
    rename_i hexists
    split at h
    · cases h
    cases h
    have hne := (topId_upTo (not_not.mp hexists)).2
    constructor
    · rw [completeTimestampsVector_eq (not_not.mp hexists), length_reverse, length_map]
      simp [altAncestry, timestampsOf, Function.comp_def]
    · have hpos := length_pos_iff.mpr hne
      simp only [altAncestry, head?_cons, Option.map_some, Option.getD_some,
        length_append, length_map, length_reverse]
      omega

theorem length_timestampsOf (s : Blockchain P) : (timestampsOf s.blocks).length = s.height := by
  rw [timestampsOf, length_map, Blockchain.blocks, length_map, Blockchain.height]

theorem checkBlockTimestamp_eq (s : Blockchain P) (b : Block) :
    s.checkBlockTimestamp b = mainTimestampVerdict s.now (timestampsOf s.blocks) b.timestamp := by
  rw [Blockchain.checkBlockTimestamp, mainTimestampVerdict, length_timestampsOf]
  split
  · rfl
  split
  · rfl
  rename_i hheight
  have hwindow : (between s.chain (s.height - timestampCheckWindow) s.height).map
      (fun e => e.bl.timestamp) =
      ((timestampsOf s.blocks).take timestampCheckWindow).reverse := by
    have hstart : s.height - (s.height - timestampCheckWindow) = timestampCheckWindow :=
      Nat.sub_sub_self (Nat.le_of_not_lt hheight)
    rw [between, ← Blockchain.height, Nat.sub_self, drop_zero, hstart, map_reverse,
      map_take, timestampsOf, Blockchain.blocks, map_map]
    rfl
  rw [checkTimestampMedian, hwindow, median_perm (reverse_perm _)]

/-! ## Windows with two values -/

variable {l : List UInt64} {v : UInt64}

theorem sorted_two_values {i j : Nat} (h : l.Perm (List.replicate i 0 ++ List.replicate j v)) :
    sorted l = List.replicate i 0 ++ List.replicate j v := by
  refine sorted_eq_of_perm h (pairwise_append.mpr ⟨?_, ?_, ?_⟩)
  · exact pairwise_replicate.mpr (.inr (UInt64.le_refl 0))
  · exact pairwise_replicate.mpr (.inr (UInt64.le_refl v))
  · intro a ha b _
    rw [eq_of_mem_replicate ha]
    exact UInt64.zero_le

/-- With fewer zeros than entries `v`, the median is `v`. -/
theorem median_upper {i j : Nat} (hlt : i < j)
    (h : l.Perm (List.replicate i 0 ++ List.replicate j v)) : median l = v := by
  have hlen : l.length = i + j := by simpa using h.length_eq
  have hne : ¬ l.isEmpty = true := by
    rw [isEmpty_iff_length_eq_zero]
    omega
  have hget : ∀ k, i ≤ k → k < i + j →
      (List.replicate i (0 : UInt64) ++ List.replicate j v).getD k 0 = v := by
    intro k hk hk'
    rw [getD_eq_getElem?_getD, getElem?_append_right (by simpa using hk),
      length_replicate, getElem?_replicate_of_lt (by omega), Option.getD_some]
  rw [median, if_neg hne, sorted_two_values h, hlen]
  split
  · exact hget _ (by omega) (by omega)
  rw [hget _ (by omega) (by omega), hget _ (by omega) (by omega)]
  apply UInt64.toNat_inj.mp
  rw [toNat_getMid]
  omega

/-- With as many zeros as entries `v`, the median is the average of the two. -/
theorem median_half {i : Nat} (hpos : 0 < i)
    (h : l.Perm (List.replicate i 0 ++ List.replicate i v)) : median l = getMid 0 v := by
  have hlen : l.length = i + i := by simpa using h.length_eq
  have hne : ¬ l.isEmpty = true := by
    rw [isEmpty_iff_length_eq_zero]
    omega
  have heven : ¬ (i + i) % 2 = 1 := by omega
  have hhalf : (i + i) / 2 = i := by omega
  rw [median, if_neg hne, sorted_two_values h, hlen, if_neg heven, hhalf, getD_eq_getElem?_getD,
    getD_eq_getElem?_getD, getElem?_append_left (by rw [length_replicate]; omega),
    getElem?_append_right (by simp), length_replicate,
    getElem?_replicate_of_lt (by omega), getElem?_replicate_of_lt (by omega)]
  rfl

theorem not_lt_getMid_zero (t : UInt64) : ¬ t < getMid 0 (t + 1) := by
  rw [UInt64.lt_iff_toNat_lt, toNat_getMid, UInt64.toNat_add]
  change ¬ t.toNat < (0 + (t.toNat + 1) % 2 ^ 64) / 2
  omega

variable {t : UInt64}

theorem lt_add_one (ht : t.toNat + 1 ≠ 2 ^ 64) : t < t + 1 := by
  have hlt := t.toNat_lt
  change t.toNat < (t.toNat + 1) % 2 ^ 64
  omega

/-! ## Where the checks agree -/

/-- The blocks for which the two checks agree, whatever the timestamps of the ancestors: those that
are not in the future, at height 1, or at height 61 or above with at most 60 alternative blocks
below them. The last number of 64 bits passes any median. -/
def TimestampChecksAgree (now timestamp : UInt64) (height altLength : Nat) : Prop :=
  ¬ timestamp > now + blockFutureTimeLimit ∧
    (height = 1 ∨ timestamp.toNat + 1 = 2 ^ 64 ∨
      timestampCheckWindow < height ∧ altLength ≤ timestampCheckWindow)

variable {now : UInt64} {a : Nat}

theorem TimestampChecksAgree.verdict_eq {ancestors : List UInt64}
    (h : TimestampChecksAgree now t ancestors.length a) :
    altTimestampVerdict a ancestors t = mainTimestampVerdict now ancestors t := by
  obtain ⟨hfuture, hheight | hmax | ⟨hheight, ha⟩⟩ := h
  · -- nothing but the genesis block
    obtain ⟨x, rfl⟩ := length_eq_one_iff.mp hheight
    have hwindow : altTimestampWindow a [x] = [] := take_nil
    have hzero : ¬ t < median [] := UInt64.not_lt.mpr UInt64.zero_le
    rw [altTimestampVerdict, mainTimestampVerdict, if_neg hfuture, hwindow, decide_eq_true hzero]
    rfl
  · have hle : ∀ m : UInt64, ¬ t < m := by
      intro m hm
      have hlt := m.toNat_lt
      rw [UInt64.lt_iff_toNat_lt] at hm
      omega
    rw [altTimestampVerdict, mainTimestampVerdict, if_neg hfuture]
    simp [hle]
  · have hwindow : altTimestampWindow a ancestors = ancestors.take timestampCheckWindow := by
      rw [altTimestampWindow, max_eq_left ha, dropLast_eq_take, take_take]
      congr 1
      omega
    rw [altTimestampVerdict, mainTimestampVerdict, if_neg hfuture,
      if_neg (Nat.lt_asymm hheight), hwindow]

/-- What the main chain accepts and the alternative check refuses. -/
theorem verdict_ne_of_medians {ancestors : List UInt64}
    (ht : t.toNat + 1 ≠ 2 ^ 64) (hfuture : ¬ t > now + blockFutureTimeLimit)
    (halt : median (altTimestampWindow a ancestors) = t + 1)
    (hmain : ancestors.length < timestampCheckWindow ∨
      median (ancestors.take timestampCheckWindow) = getMid 0 (t + 1)) :
    altTimestampVerdict a ancestors t ≠ mainTimestampVerdict now ancestors t := by
  have hrefused : altTimestampVerdict a ancestors t = false := by
    rw [altTimestampVerdict, halt]
    exact decide_eq_false (not_not.mpr (lt_add_one ht))
  have haccepted : mainTimestampVerdict now ancestors t = true := by
    rw [mainTimestampVerdict, if_neg hfuture]
    split
    · rfl
    rename_i hmany
    rw [hmain.resolve_left hmany]
    exact decide_eq_true (not_lt_getMid_zero t)
  rw [hrefused, haccepted]
  exact Bool.false_ne_true

/-- Elsewhere some timestamps of the ancestors tell the checks apart. -/
theorem exists_verdict_ne {h : Nat} (hlt : a < h) (hnot : ¬ TimestampChecksAgree now t h a) :
    ∃ ancestors : List UInt64, ancestors.length = h ∧
      altTimestampVerdict a ancestors t ≠ mainTimestampVerdict now ancestors t := by
  by_cases hfuture : t > now + blockFutureTimeLimit
  · -- the alternative check does not look at the clock
    have hzeros : median (altTimestampWindow a (List.replicate h 0)) = 0 := by
      rw [altTimestampWindow, dropLast_replicate, take_replicate]
      rcases Nat.eq_zero_or_pos (min (max timestampCheckWindow a) (h - 1)) with hnone | hsome
      · rw [hnone]
        rfl
      · exact median_upper hsome (List.Perm.refl _)
    refine ⟨List.replicate h 0, length_replicate, ?_⟩
    rw [altTimestampVerdict, mainTimestampVerdict, if_pos hfuture, hzeros,
      decide_eq_true (UInt64.not_lt.mpr UInt64.zero_le)]
    exact Bool.false_ne_true.symm
  · have hshape : ¬ (h = 1 ∨ t.toNat + 1 = 2 ^ 64 ∨
        timestampCheckWindow < h ∧ a ≤ timestampCheckWindow) := fun hs => hnot ⟨hfuture, hs⟩
    rw [not_or, not_or] at hshape
    obtain ⟨hone, ht, hwindow⟩ := hshape
    have hsixty : timestampCheckWindow = 60 := rfl
    rcases Nat.lt_trichotomy h timestampCheckWindow with hfew | heq | hmany
    · -- the main chain has no median yet
      refine ⟨List.replicate h (t + 1), length_replicate,
        verdict_ne_of_medians ht hfuture ?_ (.inl (by rwa [length_replicate]))⟩
      refine median_upper (i := 0) (j := h - 1) (by omega) ?_
      rw [altTimestampWindow, dropLast_replicate, take_replicate, min_eq_right (by omega)]
      exact List.Perm.refl _
    · -- the main chain counts the genesis block
      refine ⟨List.replicate 30 (t + 1) ++ List.replicate 30 0, ?_,
        verdict_ne_of_medians ht hfuture ?_ (.inr ?_)⟩
      · rw [heq]
        simp [timestampCheckWindow]
      · refine median_upper (i := 29) (j := 30) (by omega) ?_
        rw [altTimestampWindow, dropLast_append_of_ne_nil (by simp), dropLast_replicate,
          take_of_length_le (by simp [timestampCheckWindow])]
        exact perm_append_comm
      · refine median_half (i := 30) (by omega) ?_
        rw [take_of_length_le (by simp [timestampCheckWindow])]
        exact perm_append_comm
    · -- the alternative check counts all alternative blocks
      refine ⟨List.replicate 30 (t + 1) ++ List.replicate 30 0 ++ List.replicate (h - 60) (t + 1),
        ?_, verdict_ne_of_medians ht hfuture ?_ (.inr ?_)⟩
      · simp only [length_append, length_replicate]
        omega
      · refine median_upper (i := 30) (j := 30 + (a - 60)) (by omega) ?_
        rw [altTimestampWindow, max_eq_right (by omega), dropLast_eq_take, take_take,
          min_eq_left (by simp; omega), take_append, take_of_length_le (by simp; omega),
          take_replicate, min_eq_left (by simp; omega), replicate_add]
        simp only [length_append, length_replicate]
        refine (perm_append_comm.append_right _).trans ?_
        rw [append_assoc]
      · refine median_half (i := 30) (by omega) ?_
        rw [take_left' (by simp [timestampCheckWindow])]
        exact perm_append_comm

/-- **The timestamp checks of the two paths.** A block has its ancestors on an alternative chain of
one state and on the main chain of another, at one time. Each path checks the timestamps of the
ancestors in its own way, and the verdicts agree for all timestamps of that many ancestors exactly
where `TimestampChecksAgree` says. -/
theorem timestamp_verdicts_agree_iff (n : Node P) (s s' : Blockchain P) (b : Block)
    (altChain : List BlockExtendedInfo) (timestamps : List UInt64)
    (hbuild : buildAltChain n s b.prevId = some (altChain, timestamps))
    (hblocks : s'.blocks = altAncestry n s altChain b.prevId) (hnow : s'.now = s.now) :
    checkTimestampMedian timestamps b =
        altTimestampVerdict altChain.length (timestampsOf s'.blocks) b.timestamp ∧
      s'.checkBlockTimestamp b =
        mainTimestampVerdict s.now (timestampsOf s'.blocks) b.timestamp ∧
      ((∀ ancestors : List UInt64, ancestors.length = s'.height →
          altTimestampVerdict altChain.length ancestors b.timestamp =
            mainTimestampVerdict s.now ancestors b.timestamp) ↔
        TimestampChecksAgree s.now b.timestamp s'.height altChain.length) ∧
      (TimestampChecksAgree s.now b.timestamp s'.height altChain.length →
        checkTimestampMedian timestamps b = s'.checkBlockTimestamp b) := by
  obtain ⟨hwindow, hlength⟩ := buildAltChain_timestamps hbuild
  have hheight := length_timestampsOf s'
  have hlt : altChain.length < s'.height := by
    rw [← hheight, timestampsOf, length_map, hblocks]
    exact hlength
  have halt : checkTimestampMedian timestamps b =
      altTimestampVerdict altChain.length (timestampsOf s'.blocks) b.timestamp := by
    rw [hblocks, altTimestampVerdict, ← hwindow]
    rfl
  have hmain : s'.checkBlockTimestamp b =
      mainTimestampVerdict s.now (timestampsOf s'.blocks) b.timestamp := by
    rw [checkBlockTimestamp_eq, hnow]
  refine ⟨halt, hmain, ⟨?_, ?_⟩, ?_⟩
  · intro hall
    by_contra hnot
    obtain ⟨ancestors, hlen, hne⟩ := exists_verdict_ne hlt hnot
    exact hne (hall ancestors hlen)
  · intro hagree ancestors hlen
    exact TimestampChecksAgree.verdict_eq (hlen ▸ hagree)
  · intro hagree
    rw [halt, hmain]
    exact TimestampChecksAgree.verdict_eq (hheight ▸ hagree)

/-- A block for examples whose timestamp is its nonce. -/
def sampleTimed (nonce prev : UInt8) : Block :=
  { sampleBlock 1 0 nonce prev 0 with timestamp := nonce.toUInt64 }

/-- A block for examples at height 60. -/
def sampleAlternative (nonce : UInt8) : BlockExtendedInfo := ⟨sampleTimed nonce 60, 60, 0, 0, 0⟩

/-- A main chain of 61 blocks whose nonces count up, but for the last, with an alternative to it. -/
def sampleLine (last alternative : UInt8) : Blockchain Unit where
  chain := (sampleTimed last 60 ::
    (range 60).map fun i => sampleTimed (60 - UInt8.ofNat i) (59 - UInt8.ofNat i)).map
      fun bl => ⟨bl, [], 0, 0, 0, 0⟩
  altBlocks := [(Blob.fill alternative, sampleAlternative alternative)]
  txPool := ()

/-- A block on the alternative block is too old, as it is when that one is on the main chain. -/
theorem timestamp_verdicts_agree_line :
    ∃ timestamps, buildAltChain (sampleNode 0) (sampleLine 61 100) (Blob.fill 100) =
        some ([sampleAlternative 100], timestamps) ∧ timestamps.length = 60 ∧
      checkTimestampMedian timestamps (sampleTimed 20 100) =
        (sampleLine 100 61).checkBlockTimestamp (sampleTimed 20 100) ∧
      (sampleLine 100 61).checkBlockTimestamp (sampleTimed 20 100) = false := by
  refine ⟨_, rfl, by decide +kernel, ?_, by decide +kernel⟩
  obtain ⟨-, -, -, hagree⟩ := timestamp_verdicts_agree_iff (sampleNode 0) (sampleLine 61 100)
    (sampleLine 100 61) (sampleTimed 20 100) [sampleAlternative 100] _ rfl (by decide +kernel) rfl
  exact hagree ⟨by decide, .inr (.inr ⟨by decide +kernel, by decide⟩)⟩

/-- The genesis block for examples alone, with the clock at zero. -/
def sampleGenesis : Blockchain Unit :=
  sampleSubmit (sampleNode 0) { txPool := () } (sampleBlock 1 0 1 0 17592186044415)

/-- A second block for examples on it. -/
def sampleSecond : Blockchain Unit :=
  sampleSubmit (sampleNode 0) sampleGenesis (sampleBlock 1 1 2 1 17592169267200)

/-- A block for examples on the genesis block, two hours and one second ahead of the clock. -/
def sampleFutureBlock : Block := { sampleBlock 1 1 3 1 17592169267200 with timestamp := 7201 }

/-- **A block from the future** gets into the table of alternative blocks, while the main chain
refuses it on the same ancestors at the same time. -/
theorem future_block_accepted_as_alternative :
    (addNewBlock (sampleNode 0) 2 sampleSecond sampleFutureBlock []).map
        (fun r => (r.2, r.1.altBlocks.map fun x => x.2.bl.timestamp)) = some (true, [7201]) ∧
      (buildAltChain (sampleNode 0) sampleSecond sampleFutureBlock.prevId).map
        (fun r => (r.1.length, checkTimestampMedian r.2 sampleFutureBlock)) = some (0, true) ∧
      sampleGenesis.blocks = altAncestry (sampleNode 0) sampleSecond [] sampleFutureBlock.prevId ∧
      sampleGenesis.now = sampleSecond.now ∧
      sampleGenesis.checkBlockTimestamp sampleFutureBlock = false := by
  decide

end Hashmonkey.Core
