import Hashmonkey.Core.Sound

/-!
# The difficulty in every state of a node (`blockchain.cpp`)

The difficulty of the next block is computed in four places: by `get_difficulty_for_next_block` with
its two caches, which pops, reorganisations and alternative blocks reset; by
`get_next_difficulty_for_alternative_chain` from a window that is part alternative, part main chain;
and by `recalculate_difficulties`, which goes through the database from any height on.

The last is modelled here. The others are right in every state of a node by the invariant
`DifficultySound` (`Core/Sound`).

* `recalculateFrom`, `recalculateStep`, `recalculateDifficulties`: the window below the first
  height, one height, and all of it; `none` stands for an exception;
* `Recalculation.At`: what the loop has in its window and its sum when it comes to a height.

Results: in every state of a run the difficulty is `next_difficulty` of the last 735 blocks without
the genesis block, with the target of the next height, and an alternative chain of the same blocks
gets the same (`difficulty_paths_agree`). `recalculate_difficulties` finds no drift as long as the
work of the chain fits in 128 bits; `difficulty_paths_differ` shows what happens otherwise.
-/

namespace Hashmonkey.Core

open Basic Lib List StoredBlock

variable {P : Type} {n : Node P} {K : Set Block} {X : Set (Hash × Transaction)}
  {s : Blockchain P} {chain : List StoredBlock}

/-! ## Recalculating -/

/-- The local variables of `recalculate_difficulties`. -/
structure Recalculation where
  timestamps : List UInt64
  difficulties : List Nat
  lastCumDiff : Nat
  driftStartHeight : Nat := 0
  newCumulativeDifficulties : List Nat := []

/-- The windows below the start height, without the genesis block. Reading a block that is not there
throws. -/
def recalculateFrom (s : Blockchain P) (startHeight : Nat) : Option Recalculation :=
  if startHeight ≤ 1 then some { timestamps := [], difficulties := [], lastCumDiff := startHeight }
  else if startHeight > s.height then none
  else
    let window := between s.chain (max 1 (startHeight - difficultyBlocksCount)) startHeight
    let difficulties := window.map cumulativeDifficulty
    some
      { timestamps := window.map fun e => e.bl.timestamp
        difficulties
        lastCumDiff := difficulties.getLastD 0 }

/-- One turn of the loop over the heights. The sum has 256 bits, and throws if it needs more than
128. -/
def recalculateStep (n : Node P) (s : Blockchain P) (r : Recalculation) (height : Nat) :
    Option Recalculation :=
  let target := difficultyTarget (n.schedule.getIdealVersion height)
  let recalculatedDiff := nextDifficulty r.timestamps r.difficulties target
  let recalculatedCumDiff := recalculatedDiff + r.lastCumDiff
  if recalculatedCumDiff > 2 ^ 128 - 1 then none
  else
    match s.chain.reverse[height]? with
    | none => none
    | some e =>
      let driftStartHeight :=
        if r.driftStartHeight = 0 ∧ recalculatedCumDiff ≠ e.cumulativeDifficulty then height
        else r.driftStartHeight
      let timestamps := if height > 0 then r.timestamps ++ [e.bl.timestamp] else r.timestamps
      let difficulties :=
        if height > 0 then r.difficulties ++ [recalculatedCumDiff] else r.difficulties
      let full := timestamps.length > difficultyBlocksCount
      if full ∧ timestamps.length ≠ difficultyBlocksCount + 1 then none
      else
        some
          { timestamps := if full then timestamps.drop 1 else timestamps
            difficulties := if full then difficulties.drop 1 else difficulties
            lastCumDiff := recalculatedCumDiff
            driftStartHeight
            newCumulativeDifficulties :=
              if driftStartHeight > 0 then r.newCumulativeDifficulties ++ [recalculatedCumDiff]
              else r.newCumulativeDifficulties }

/-- `m_db->correct_block_cumulative_difficulties`, for the blocks up to the top. -/
def correctBlockCumulativeDifficulties (chain : List StoredBlock) (new : List Nat) :
    List StoredBlock :=
  (chain.zip new.reverse).map (fun x => { x.1 with cumulativeDifficulty := x.2 }) ++
    chain.drop new.length

/-- `recalculate_difficulties` from a given height: the state, and how many blocks were corrected.
On an empty database the first block that is read is missing. -/
def recalculateDifficulties (n : Node P) (s : Blockchain P) (startHeight : Nat) :
    Option (Blockchain P × Nat) :=
  if n.fixedDifficulty ≠ 0 then some (s, 0)
  else if s.height = 0 then none
  else
    match recalculateFrom s startHeight with
    | none => none
    | some r =>
      match (List.range' startHeight (s.height - startHeight)).foldlM (recalculateStep n s) r with
      | none => none
      | some r =>
        let new := r.newCumulativeDifficulties
        if r.driftStartHeight > 0 then
          some
            ({ s with
                chain := correctBlockCumulativeDifficulties s.chain new
                difficultyCache := { s.difficultyCache with topHash := nullHash, height := 0 } },
              new.length)
        else some (s, new.length)

/-- `push_back` and `erase` at the front of one of the vectors. -/
theorem push_trim_one {α β : Type} {f : α → β} {e : α} {x : β} (hx : f e = x) {window : List α}
    (hle : window.length ≤ difficultyBlocksCount) :
    (if window.length + 1 > difficultyBlocksCount then (window.map f ++ [x]).drop 1
      else window.map f ++ [x]) =
      ((window ++ [e]).drop (window.length + 1 - difficultyBlocksCount)).map f := by
  subst hx
  rw [map_drop, map_append, map_singleton]
  split
  · have hone : window.length + 1 - difficultyBlocksCount = 1 := by omega
    rw [hone]
  have hzero : window.length + 1 - difficultyBlocksCount = 0 := by omega
  rw [hzero, drop_zero]

/-- What the loop knows before a height: the windows and the last cumulative difficulty of the
blocks below, and no drift. -/
structure Recalculation.At (chain : List StoredBlock) (height : Nat) (r : Recalculation) :
    Prop where
  timestamps : r.timestamps = (difficultyWindowOf
    ((chain.drop (chain.length - height)).map entry)).map Prod.fst
  difficulties : r.difficulties = (difficultyWindowOf
    ((chain.drop (chain.length - height)).map entry)).map Prod.snd
  lastCumDiff :
    r.lastCumDiff = topWeight ((chain.drop (chain.length - height)).map entry)
  noDrift : r.driftStartHeight = 0 ∧ r.newCumulativeDifficulties = []

theorem at_recalculateFrom (hentry : ∀ e, s.chain.getLast? = some e → e.cumulativeDifficulty = 1)
    {startHeight : Nat} (hle : startHeight ≤ s.height) :
    ∃ r, recalculateFrom s startHeight = some r ∧ r.At s.chain startHeight := by
  have hlen : (s.chain.drop (s.chain.length - startHeight)).length = startHeight := by
    rw [length_drop]
    exact Nat.sub_sub_self hle
  unfold recalculateFrom
  split
  · rename_i hstart
    have hnone : difficultyWindowOf
        ((s.chain.drop (s.chain.length - startHeight)).map entry) = [] := by
      rw [difficultyWindowOf, dropLast_eq_take, length_map, hlen,
        Nat.sub_eq_zero_of_le hstart, take_zero, take_nil, reverse_nil]
    refine ⟨_, rfl, by rw [hnone]; rfl, by rw [hnone]; rfl, ?_, rfl, rfl⟩
    dsimp only
    rcases Nat.le_one_iff_eq_zero_or_eq_one.mp hstart with rfl | rfl
    · rw [Nat.sub_zero, drop_length]
      rfl
    -- the genesis block alone
    obtain ⟨e, he⟩ := length_eq_one_iff.mp hlen
    have hlast : s.chain.getLast? = some e := by
      rw [← take_append_drop (s.chain.length - 1) s.chain, he, getLast?_concat]
    rw [he, map_singleton, entry, topWeight, hentry e hlast]
  · rename_i hstart
    rw [if_neg (Nat.not_lt.mpr hle)]
    have hlow : max 1 (startHeight - difficultyBlocksCount) =
        if startHeight - min difficultyBlocksCount startHeight = 0 then 1
        else startHeight - min difficultyBlocksCount startHeight := by
      split <;> omega
    have hwindow : between s.chain (max 1 (startHeight - difficultyBlocksCount)) startHeight =
        difficultyWindowOf (s.chain.drop (s.chain.length - startHeight)) := by
      rw [hlow, between_window s.chain hle, difficultyWindowOf]
    refine ⟨_, rfl, ?_, ?_, ?_, rfl, rfl⟩
    · rw [hwindow, difficultyWindowOf_map, map_map]
      rfl
    · rw [hwindow, difficultyWindowOf_map, map_map]
      rfl
    · -- the last block of the window is the last one below the start height
      obtain ⟨e, lower, he⟩ := exists_cons_of_length_eq_add_one
        (hlen.trans (Nat.sub_add_cancel (Nat.le_of_lt (Nat.not_le.mp hstart))).symm)
      have hne : lower ≠ [] := by
        rintro rfl
        rw [he] at hlen
        exact hstart (Nat.le_of_eq hlen.symm)
      have hcount : difficultyBlocksCount = 734 + 1 := rfl
      dsimp only
      rw [hwindow, he, difficultyWindowOf, dropLast_cons_of_ne_nil hne, hcount, take_succ_cons,
        reverse_cons, map_append, map_singleton, getLastD_concat, map_cons]
      rfl

variable {height : Nat}

/-- The block at a height is on top of the blocks below it. -/
theorem exists_block_at (hlt : height < chain.length) :
    ∃ e, chain.reverse[height]? = some e ∧
      chain.drop (chain.length - (height + 1)) = e :: chain.drop (chain.length - height) := by
  have hindex : chain.length - (height + 1) < chain.length := by omega
  refine ⟨chain.get ⟨chain.length - (height + 1), hindex⟩, ?_, ?_⟩
  · rw [getElem?_reverse hlt, get_eq_getElem, ← getElem?_eq_getElem]
    congr 1
    change chain.length - 1 - height = chain.length - (height + 1)
    omega
  · rw [drop_eq_getElem_cons hindex]
    congr 2
    omega

section

variable (hfixed : n.fixedDifficulty = 0)
  (hstored : ∀ upper e lower, s.chain = upper ++ e :: lower → e.cumulativeDifficulty =
    requiredDifficulty n (lower.map entry) + topWeight (lower.map entry) ∧
      e.cumulativeDifficulty < 2 ^ 128)
  {r : Recalculation}

include hfixed hstored

theorem Recalculation.At.step (h : r.At s.chain height) (hlt : height < s.height) :
    ∃ r', recalculateStep n s r height = some r' ∧ r'.At s.chain (height + 1) := by
  obtain ⟨e, hget, hdrop⟩ := exists_block_at hlt
  have hlen : (s.chain.drop (s.chain.length - height)).length = height := by
    rw [length_drop]
    exact Nat.sub_sub_self (Nat.le_of_lt hlt)
  obtain ⟨hcum, hfits⟩ := hstored (s.chain.take (s.chain.length - (height + 1))) e
    (s.chain.drop (s.chain.length - height)) (by rw [← hdrop, take_append_drop])
  generalize hlower : s.chain.drop (s.chain.length - height) = lower at hdrop hlen hcum
  obtain ⟨hts, hds, hlast, hdrift, hnew⟩ := h
  rw [hlower] at hts hds hlast
  have hdiff : nextDifficulty r.timestamps r.difficulties
      (difficultyTarget (n.schedule.getIdealVersion height)) + r.lastCumDiff =
      e.cumulativeDifficulty := by
    rw [hcum, requiredDifficulty, if_neg (not_not.mpr hfixed), hts, hds, hlast, length_map, hlen]
  have hcount : r.timestamps.length ≤ difficultyBlocksCount := by
    rw [hts, length_map]
    exact length_difficultyWindowOf_le _
  unfold recalculateStep
  dsimp only
  rw [hdiff, hget, if_neg (by omega)]
  dsimp only
  have hnodrift : ¬ (r.driftStartHeight = 0 ∧ e.cumulativeDifficulty ≠ e.cumulativeDifficulty) :=
    fun hd => hd.2 rfl
  rw [if_neg hnodrift, hdrift, hnew]
  rcases Nat.eq_zero_or_pos height with rfl | hpos
  · -- the genesis block stays out of the windows
    cases length_eq_zero_iff.mp hlen
    rw [if_neg (Nat.lt_irrefl 0), if_neg (Nat.lt_irrefl 0), if_neg (by omega)]
    refine ⟨_, rfl, ?_⟩
    rw [if_neg (by omega), if_neg (by omega), if_neg (Nat.lt_irrefl 0)]
    refine ⟨?_, ?_, ?_, rfl, rfl⟩
    · rw [hdrop, hts]
      rfl
    · rw [hdrop, hds]
      rfl
    · rw [hdrop]
      rfl
  · have hne : lower.map entry ≠ [] := by
      rw [ne_eq, map_eq_nil_iff, ← length_eq_zero_iff]
      omega
    have hpush := difficultyWindowOf_push e.entry hne
    have hle := length_difficultyWindowOf_le (lower.map entry)
    have hcons : (e :: lower).map entry = e.entry :: lower.map entry := rfl
    rw [if_pos hpos, if_pos hpos, hts, hds]
    generalize difficultyWindowOf (lower.map entry) = window at hpush hle
    rw [length_append, length_singleton] at hpush
    simp only [length_append, length_map, length_singleton]
    rw [if_neg (by omega)]
    refine ⟨_, rfl, ?_, ?_, ?_, rfl, rfl⟩
    · rw [hdrop, hcons, hpush]
      exact push_trim_one (f := Prod.fst) (e := e.entry) rfl hle
    · rw [hdrop, hcons, hpush]
      exact push_trim_one (f := Prod.snd) (e := e.entry) rfl hle
    · rw [hdrop]
      rfl

/-- The loop finds no drift. -/
theorem Recalculation.At.run {k : Nat} (h : r.At s.chain height) (hle : height + k ≤ s.height) :
    ∃ r', (List.range' height k).foldlM (recalculateStep n s) r = some r' ∧
      r'.At s.chain (height + k) := by
  induction k generalizing height r with
  | zero => exact ⟨r, rfl, h⟩
  | succ k ih =>
    obtain ⟨r1, hstep, h1⟩ := Recalculation.At.step hfixed hstored h (by omega)
    obtain ⟨r', hrun, h'⟩ := ih h1 (by omega)
    refine ⟨r', ?_, ?_⟩
    · rw [List.range'_succ, foldlM_cons, hstep]
      exact hrun
    · rw [Nat.add_comm k 1, ← Nat.add_assoc]
      exact h'

end

theorem DifficultySound.stored_sum (h : DifficultySound n K s) (hfits : workOf n s.blocks < 2 ^ 128)
    (upper : List StoredBlock) (e : StoredBlock) (lower : List StoredBlock)
    (hsplit : s.chain = upper ++ e :: lower) :
    e.cumulativeDifficulty = requiredDifficulty n (lower.map entry) +
        topWeight (lower.map entry) ∧ e.cumulativeDifficulty < 2 ^ 128 := by
  have hlower : lower.map entry =
      recordedEntries n (timestampsOf (lower.map bl)) :=
    entries_of_recorded fun upper' e' lower' hs =>
      h.recorded.stored (upper ++ e :: upper') e' lower'
        (by rw [hsplit, hs, append_assoc, cons_append])
  have hwork : weight (requiredDifficulty n)
      (timestampsOf ((e :: lower).map bl)) < 2 ^ 128 := by
    refine Nat.lt_of_le_of_lt ?_ hfits
    rw [workOf, Blockchain.blocks, hsplit, timestampsOf, timestampsOf, map_append, map_append]
    exact weight_append_le _ _ _
  have hcum : e.cumulativeDifficulty = addDifficulty
      (requiredDifficulty n (lower.map entry))
      (topWeight (lower.map entry)) := by
    rw [h.recorded.stored upper e lower hsplit, hlower]
    rfl
  have hsum : requiredDifficulty n (lower.map entry) +
      topWeight (lower.map entry) < 2 ^ 128 := by
    have hlow : weight (requiredDifficulty n) (timestampsOf (lower.map bl)) < 2 ^ 128 :=
      Nat.lt_of_le_of_lt (weight_append_le _ [e.bl.timestamp] _) hwork
    rw [hlower, recordedEntries_eq_annotate n hlow, Nat.add_comm]
    exact hwork
  rw [hcum, addDifficulty, Nat.mod_eq_of_lt hsum]
  exact ⟨rfl, hsum⟩

/-- **Recalculating finds no drift** from any height up to that of the chain, if its work fits in
128 bits. -/
theorem DifficultySound.recalculate (h : DifficultySound n K s) (hfixed : n.fixedDifficulty = 0)
    (hfits : workOf n s.blocks < 2 ^ 128) (hpos : 0 < s.height) {startHeight : Nat}
    (hle : startHeight ≤ s.height) : recalculateDifficulties n s startHeight = some (s, 0) := by
  have hstored := h.stored_sum hfits
  have hgenesis : ∀ e, s.chain.getLast? = some e → e.cumulativeDifficulty = 1 := by
    intro e he
    obtain ⟨upper, hsplit⟩ := getLast?_eq_some_iff.mp he
    rw [(hstored upper e [] hsplit).1, requiredDifficulty, if_neg (not_not.mpr hfixed)]
    rfl
  obtain ⟨r, hfrom, hat⟩ := at_recalculateFrom hgenesis hle
  obtain ⟨r', hrun, hend⟩ :=
    Recalculation.At.run hfixed hstored hat (k := s.height - startHeight) (by omega)
  unfold recalculateDifficulties
  rw [if_neg (not_not.mpr hfixed), if_neg (by omega), hfrom]
  dsimp only
  rw [hrun]
  dsimp only
  rw [hend.noDrift.1, hend.noDrift.2, if_neg (Nat.lt_irrefl 0)]
  rfl

/-! ## The result -/

/-- **The difficulty is computed in one way.** In every state of a run without a fixed difficulty:
what `get_difficulty_for_next_block` returns is `next_difficulty` of the last blocks without the
genesis block, at most 735, with the target of the next height; an alternative chain with the same
top block, in any state of a run, gets the same; and recalculating from any height up to that of the
chain finds no drift, if the work of the chain fits in 128 bits. -/
theorem difficulty_paths_agree (n : Node P) (hfixed : n.fixedDifficulty = 0) (K : Set Block)
    (X : Set (Hash × Transaction)) (hK : CollisionFree n K) (s : Blockchain P)
    (hs : NodeRun n K X s) :
    let last := (s.chain.take (min difficultyBlocksCount (s.height - 1))).reverse
    (s.getDifficultyForNextBlock n).1 =
        nextDifficulty (last.map fun e => e.bl.timestamp)
          (last.map cumulativeDifficulty)
          (difficultyTarget (n.schedule.getIdealVersion s.height)) ∧
      (∀ t altChain timestamps, NodeRun n K X t →
        buildAltChain n t (s.topBlockHash n) = some (altChain, timestamps) →
        getNextDifficultyForAlternativeChain n t altChain s.height =
          (s.getDifficultyForNextBlock n).1) ∧
      (0 < s.height → workOf n s.blocks < 2 ^ 128 → ∀ startHeight ≤ s.height,
        recalculateDifficulties n s startHeight = some (s, 0)) := by
  have hsound := hs.difficultySound hK
  have hmain := (hsound.difficulty hK).1
  refine ⟨?_, ?_, ?_⟩
  · have hwindow : difficultyWindowOf s.chain =
        (s.chain.take (min difficultyBlocksCount (s.height - 1))).reverse := by
      rw [difficultyWindowOf, dropLast_eq_take, take_take]
      rfl
    rw [hmain, requiredDifficulty, if_neg (not_not.mpr hfixed), difficultyWindowOf_map, hwindow,
      map_map, map_map, length_map]
    rfl
  · intro t altChain timestamps ht hbuild
    obtain ⟨-, -, path, -, -, hpath, -, -, -, hdiff⟩ :=
      (ht.difficultySound hK).altDifficulty hK hbuild
    have hlen : path.length = s.height := by
      rw [hpath.length_eq hK hsound.recorded.path, Blockchain.blocks, length_map, Blockchain.height]
    rw [← hlen, hdiff, hmain, hsound.entries, hpath.unique hK hsound.recorded.path]
  · intro hpos hfits startHeight hle
    exact hsound.recalculate hfixed hfits hpos hle

/-- The main chain of the node for examples with the genesis block and the block that `sampleFork`
has as an alternative. -/
def sampleOther : Blockchain Unit :=
  [sampleBlock 1 0 1 0 17592186044415, sampleBlock 1 1 3 1 17592169267200].foldl
    (sampleSubmit (sampleNode 0)) { txPool := () }

/-- A block is on the main chain in one state and an alternative in another. -/
theorem difficulty_paths_agree_fork :
    (∃ altChain timestamps,
      buildAltChain (sampleNode 0) sampleFork (sampleOther.topBlockHash (sampleNode 0)) =
        some (altChain, timestamps) ∧ altChain.length = 1 ∧
      getNextDifficultyForAlternativeChain (sampleNode 0) sampleFork altChain sampleOther.height =
        (sampleOther.getDifficultyForNextBlock (sampleNode 0)).1) ∧
      recalculateDifficulties (sampleNode 0) sampleOther 1 = some (sampleOther, 0) := by
  have hrun : NodeRun (sampleNode 0) {b | b ∈ sampleBlocks} ∅ sampleOther :=
    ⟨_, ⟨rfl, rfl, rfl, rfl⟩, operations_sampleSubmit _ (by simp [sampleBlocks]) _⟩
  have hfork : NodeRun (sampleNode 0) {b | b ∈ sampleBlocks} ∅ sampleFork :=
    ⟨_, ⟨rfl, rfl, rfl, rfl⟩,
      operations_sampleSubmit _ (fun b hb => mem_of_mem_take hb) _⟩
  obtain ⟨-, halt, hdrift⟩ := difficulty_paths_agree (sampleNode 0) rfl {b | b ∈ sampleBlocks} ∅
    sampleBlocks_collisionFree sampleOther hrun
  have hbuild : (buildAltChain (sampleNode 0) sampleFork
      (sampleOther.topBlockHash (sampleNode 0))).map (fun r => r.1.length) = some 1 := by
    decide +kernel
  obtain ⟨⟨altChain, timestamps⟩, hbuild, hlen⟩ := Option.map_eq_some_iff.mp hbuild
  refine ⟨⟨altChain, timestamps, hbuild, hlen, halt _ _ _ hfork hbuild⟩, ?_⟩
  exact hdrift (by decide) (by decide) 1 (by decide)

/-- The schedule for examples that goes to version 2 after the genesis block. -/
def sampleTwoForks : Schedule where
  forks := [⟨1, 0, 0⟩, ⟨2, 1, 0⟩]
  nonempty := by decide
  versions_increase := by decide
  heights_increase := by decide
  threshold_le := by decide

/-- The node for examples with this schedule. -/
def sampleTwoForksNode : Node Unit :=
  { sampleNode 0 with
    schedule := sampleTwoForks
    forks_unvoted := ⟨by decide, by decide⟩ }

/-- Blocks for examples that all claim the time of the genesis block but the one at height 20. The
difficulty grows by a factor of 121 with each. -/
def sampleGrowth : List Block :=
  sampleBlock 1 0 1 0 17592186044415 :: (List.range 21).map fun i =>
    { sampleBlock 2 (i + 1) (UInt8.ofNat (i + 2)) (UInt8.ofNat (i + 1)) 1001 with
      timestamp := if i = 19 then 11 else 0 }

/-- The node for examples after these blocks. -/
def sampleOverflow : Blockchain Unit :=
  sampleGrowth.foldl (sampleSubmit sampleTwoForksNode) { txPool := () }

/-- The schedule for examples whose only fork is not that of the original version. -/
def sampleSecondVersion : Schedule where
  forks := [⟨2, 0, 0⟩]
  nonempty := by decide
  versions_increase := by decide
  heights_increase := by decide
  threshold_le := by decide

/-- **Where the computations differ.** On a chain of 22 blocks the cumulative difficulty wraps, and
recalculating throws; it throws as well from a height above that of the chain; and if the first fork
has not the original version, the version in force and the ideal version give different targets and
difficulties. -/
theorem difficulty_paths_differ :
    (sampleOverflow.height = 22 ∧
        (sampleOverflow.chain.take 2).map cumulativeDifficulty =
          [27859555788703183379644413907527824027, 30912680532870672635673352936887453363] ∧
        (recalculateDifficulties sampleTwoForksNode sampleOverflow 0).isNone) ∧
      (recalculateDifficulties (sampleNode 0) sampleOther 3).isNone ∧
      ((∀ f ∈ sampleSecondVersion.forks, f.threshold = 0) ∧
        nextDifficulty [0, 1] [2, 3]
            (difficultyTarget (({} : HardFork).getCurrentVersion sampleSecondVersion)) = 120 ∧
        nextDifficulty [0, 1] [2, 3]
            (difficultyTarget (sampleSecondVersion.getIdealVersion 0)) = 60) := by
  decide +kernel

end Hashmonkey.Core
