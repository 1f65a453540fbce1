import Hashmonkey.Lib.WeightedChain
import Hashmonkey.Core.Switch

/-!
# Work and required difficulty (`blockchain.cpp`)

What a block has to add to the work of its chain depends only on that chain: on the timestamps and
cumulative difficulties of its last blocks and on its height. The source computes it in three ways:
from scratch, from the caches of `get_difficulty_for_next_block`, and from an alternative chain
completed by a part of the main chain.

* `requiredDifficulty`: the difficulty that a chain requires of the next block, and with it the work
  of a chain (`Lib.weight`), as a natural number that does not wrap;
* `recordedEntries`, `recordedDifficulty`: what is recorded along a path, with sums of 128 bits that
  wrap. Below `2 ^ 128` this is the work (`recordedEntries_eq_annotate`);
* `Path`: a chain of blocks down to the genesis block. Ids determine paths (`Path.unique`), as long
  as no two of the blocks in question collide (`CollisionFree`);
* `DifficultyCache.Valid`: the difficulty that is kept is that of the path with the noted top hash,
  and the window is that of the chain.

Results: the computation for the main chain (`DifficultyCache.Valid.next`) and the one for an
alternative chain (`altDifficulty_eq`) both give `requiredDifficulty` of the chain extended.
-/

namespace Hashmonkey.Core

open Basic Lib List StoredBlock

variable {P : Type} (n : Node P)

/-! ## The required difficulty -/

/-- The window of a chain that difficulties are computed from, oldest first: the genesis block is
left out. -/
def difficultyWindowOf {α : Type} (path : List α) : List α :=
  (path.dropLast.take difficultyBlocksCount).reverse

/-- The difficulty that a chain, given by timestamps and cumulative difficulties, requires of the
next block. -/
def requiredDifficulty (path : List (UInt64 × Nat)) : Nat :=
  if n.fixedDifficulty ≠ 0 then if path.length = 0 then 1 else n.fixedDifficulty
  else
    nextDifficulty ((difficultyWindowOf path).map Prod.fst) ((difficultyWindowOf path).map Prod.snd)
      (difficultyTarget (n.schedule.getIdealVersion path.length))

/-- The timestamps of blocks. -/
def timestampsOf (blocks : List Block) : List UInt64 := blocks.map fun b => b.timestamp

/-- Blocks with the work up to each. -/
def annotated (blocks : List Block) : List (UInt64 × Nat) :=
  annotate (requiredDifficulty n) (timestampsOf blocks)

/-- The work of a chain of blocks. -/
def workOf (blocks : List Block) : Nat := weight (requiredDifficulty n) (timestampsOf blocks)

/-- The cumulative difficulties that are recorded along a path, given by its timestamps, newest
first. -/
def recordedEntries : List UInt64 → List (UInt64 × Nat)
  | [] => []
  | t :: ts =>
    let entries := recordedEntries ts
    (t, addDifficulty (requiredDifficulty n entries) (topWeight entries)) :: entries

/-- The cumulative difficulty of the last block of a path. -/
def recordedDifficulty (path : List Block) : Nat :=
  topWeight (recordedEntries n (timestampsOf path))

/-- Sums that do not wrap are the weights of the chain. -/
theorem recordedEntries_eq_annotate {ts : List UInt64}
    (h : weight (requiredDifficulty n) ts < 2 ^ 128) :
    recordedEntries n ts = annotate (requiredDifficulty n) ts := by
  induction ts with
  | nil => rfl
  | cons t ts ih =>
    have hsum : topWeight (annotate (requiredDifficulty n) ts) +
        requiredDifficulty n (annotate (requiredDifficulty n) ts) < 2 ^ 128 := h
    have hlower : weight (requiredDifficulty n) ts < 2 ^ 128 :=
      Nat.lt_of_le_of_lt (Nat.le_add_right _ _) hsum
    rw [recordedEntries, annotate, ih hlower, addDifficulty, Nat.add_comm, Nat.mod_eq_of_lt hsum]

/-- What a stored block contributes to a window. -/
def StoredBlock.entry (e : StoredBlock) : UInt64 × Nat := (e.bl.timestamp, e.cumulativeDifficulty)

/-- What an alternative block contributes to a window. -/
def BlockExtendedInfo.entry (bei : BlockExtendedInfo) : UInt64 × Nat :=
  (bei.bl.timestamp, bei.cumulativeDifficulty)

/-! ## Windows -/

section Window

variable {α : Type}

/-- A slice of a chain that leaves out the genesis block: at most `c` blocks below height `stop`. -/
theorem between_window (chain : List α) {c stop : Nat} (hstop : stop ≤ chain.length) :
    between chain (if stop - min c stop = 0 then 1 else stop - min c stop) stop =
      ((chain.drop (chain.length - stop)).dropLast.take c).reverse := by
  have hlen : (chain.drop (chain.length - stop)).length = stop := by
    rw [length_drop, Nat.sub_sub_self hstop]
  have hcount : stop - (if stop - min c stop = 0 then 1 else stop - min c stop) =
      min c (stop - 1) := by
    split <;> omega
  rw [between, hcount, dropLast_eq_take, hlen, take_take]

/-- The window of the main chain. -/
theorem between_difficultyOffset (chain : List α) :
    between chain (difficultyOffset chain.length) chain.length = difficultyWindowOf chain := by
  have h := between_window chain (c := difficultyBlocksCount) (Nat.le_refl chain.length)
  rw [Nat.sub_self, drop_zero, Nat.min_comm] at h
  exact h

theorem between_last (e : α) (chain : List α) :
    between (e :: chain) ((e :: chain).length - 1) (e :: chain).length = [e] := by
  rw [between, Nat.sub_self, length_cons, Nat.add_sub_cancel, Nat.add_sub_cancel_left]
  rfl

theorem difficultyWindowOf_map {β : Type} (f : α → β) (path : List α) :
    difficultyWindowOf (path.map f) = (difficultyWindowOf path).map f := by
  rw [difficultyWindowOf, difficultyWindowOf, ← map_dropLast, ← map_take, ← map_reverse]

/-- A window moves on by one block. -/
theorem difficultyWindowOf_push (e : α) {path : List α} (hne : path ≠ []) :
    difficultyWindowOf (e :: path) = (difficultyWindowOf path ++ [e]).drop
      ((difficultyWindowOf path ++ [e]).length - difficultyBlocksCount) := by
  rw [difficultyWindowOf, difficultyWindowOf, dropLast_cons_of_ne_nil hne, ← reverse_cons,
    ← take_succ_cons, drop_reverse, length_reverse, take_take, reverse_inj, take_eq_take_iff,
    length_take, length_cons]
  omega

/-- The window of a chain whose last part is given oldest first. -/
theorem difficultyWindowOf_append (alt : List α) {base : List α} (hbase : base ≠ []) :
    difficultyWindowOf (alt.reverse ++ base) =
      if alt.length < difficultyBlocksCount then
        (base.dropLast.take (difficultyBlocksCount - alt.length)).reverse ++ alt
      else alt.drop (alt.length - difficultyBlocksCount) := by
  rw [difficultyWindowOf, dropLast_append_of_ne_nil hbase, take_append, length_reverse]
  split
  · rw [take_of_length_le (by rw [length_reverse]; omega), reverse_append,
      reverse_reverse]
  · rename_i hlong
    rw [Nat.sub_eq_zero_of_le (Nat.not_lt.mp hlong), take_zero, append_nil,
      take_reverse, reverse_reverse]

theorem length_difficultyWindowOf_le (path : List α) :
    (difficultyWindowOf path).length ≤ difficultyBlocksCount := by
  rw [difficultyWindowOf, length_reverse]
  exact length_take_le _ _

/-- `push_back` and the loop that erases at the front, on a full window of one of the vectors. -/
theorem push_trim {β : Type} (f : α → β) (e : α) {path : List α}
    (hfull : difficultyBlocksCount ≤ (difficultyWindowOf path).length) :
    ((difficultyWindowOf path).map f ++ [f e]).drop
        (((difficultyWindowOf path).map f ++ [f e]).length - difficultyBlocksCount) =
      (difficultyWindowOf (e :: path)).map f := by
  have hne : path ≠ [] := by
    rintro rfl
    exact absurd hfull (by simp [difficultyWindowOf, difficultyBlocksCount])
  rw [difficultyWindowOf_push e hne, map_drop, map_append, map_singleton, length_append,
    length_append, length_map]
  rfl

end Window

/-! ## Paths -/

variable {n} {K : Set Block}

/-- No two of the blocks in `K` share an id unless they have the same header, and none has the null
hash as its id. -/
structure CollisionFree (n : Node P) (K : Set Block) : Prop where
  header_eq : ∀ b ∈ K, ∀ b' ∈ K, n.getBlockHash b = n.getBlockHash b' →
    b.toBlockHeader = b'.toBlockHeader
  ne_null : ∀ b ∈ K, n.getBlockHash b ≠ nullHash

theorem CollisionFree.determined (hK : CollisionFree n K) :
    Determined n.getBlockHash (fun b => b.prevId) (fun b => b.timestamp) nullHash K where
  prev_eq b hb b' hb' h := congrArg BlockHeader.prevId (hK.header_eq b hb b' hb' h)
  label_eq b hb b' hb' h := congrArg BlockHeader.timestamp (hK.header_eq b hb b' hb' h)
  ne_root := hK.ne_null

/-- Blocks of `K`, newest first, that lead from the id `top` down to a genesis block. -/
structure Path (n : Node P) (K : Set Block) (path : List Block) (top : Hash) : Prop where
  linked : Segment n.getBlockHash (fun b => b.prevId) path top nullHash
  known : ∀ b ∈ path, b ∈ K

theorem Path.nil : Path n K [] nullHash := ⟨rfl, forall_mem_nil _⟩

variable {path : List Block}

theorem Path.cons {b : Block} (h : Path n K path b.prevId) (hb : b ∈ K) :
    Path n K (b :: path) (n.getBlockHash b) :=
  ⟨⟨rfl, h.linked⟩, forall_mem_cons.mpr ⟨hb, h.known⟩⟩

variable {top : Hash}

theorem Path.tail {b : Block} (h : Path n K (b :: path) top) :
    n.getBlockHash b = top ∧ Path n K path b.prevId :=
  ⟨h.linked.1, h.linked.2, fun x hx => h.known x (mem_cons_of_mem b hx)⟩

variable {chain : List StoredBlock}

theorem Path.top_eq (h : Path n K (chain.map bl) top) : top = topId n chain := by
  cases chain with
  | nil => exact h.linked
  | cons e chain => exact h.linked.1.symm

/-- The lower part of a stored path is a path. -/
theorem Path.lower {upper lower : List StoredBlock}
    (h : Path n K ((upper ++ lower).map bl) top) :
    Path n K (lower.map bl) (topId n lower) := by
  rw [map_append] at h
  obtain ⟨mid, hmid⟩ := h.linked.of_append
  have hlower : Path n K (lower.map bl) mid :=
    ⟨hmid, fun b hb => h.known b (mem_append_right _ hb)⟩
  exact hlower.top_eq ▸ hlower

theorem Path.drop (h : Path n K (chain.map bl) top) (k : Nat) :
    Path n K ((chain.drop k).map bl) (topId n (chain.drop k)) := by
  rw [← take_append_drop k chain] at h
  exact h.lower

variable {path' : List Block}

/-- **An id determines its path**, as far as difficulties are concerned. -/
theorem Path.unique (hK : CollisionFree n K) (h : Path n K path top) (h' : Path n K path' top) :
    timestampsOf path = timestampsOf path' :=
  segment_unique hK.determined h.linked h'.linked h.known h'.known

theorem Path.length_eq (hK : CollisionFree n K)
    (h : Path n K path top) (h' : Path n K path' top) : path.length = path'.length := by
  have heq := congrArg List.length (h.unique hK h')
  rwa [timestampsOf, timestampsOf, length_map, length_map] at heq

/-- No id is met twice on a path. -/
theorem Path.nodup (hK : CollisionFree n K)
    (h : Path n K path top) : (path.map n.getBlockHash).Nodup := by
  induction path generalizing top with
  | nil => exact nodup_nil
  | cons b path ih =>
    obtain ⟨rfl, hpath⟩ := h.tail
    rw [map_cons, nodup_cons]
    refine ⟨fun hmem => ?_, ih hpath⟩
    obtain ⟨c, hc, hid⟩ := mem_map.mp hmem
    obtain ⟨upper, lower, rfl⟩ := append_of_mem hc
    obtain ⟨mid, hmid⟩ := hpath.linked.of_append
    have hlower : Path n K (c :: lower) (n.getBlockHash b) :=
      ⟨⟨hid, hmid.2⟩, fun x hx => hpath.known x (mem_append_right _ hx)⟩
    have hlen := h.length_eq hK hlower
    rw [length_cons, length_append, length_cons] at hlen
    omega

/-- No two of the blocks in `K` share an id, and none has the null hash as its id. -/
structure DistinctIds (n : Node P) (K : Set Block) : Prop where
  block_eq : ∀ b ∈ K, ∀ b' ∈ K, n.getBlockHash b = n.getBlockHash b' → b = b'
  ne_null : ∀ b ∈ K, n.getBlockHash b ≠ nullHash

theorem DistinctIds.collisionFree (hK : DistinctIds n K) : CollisionFree n K :=
  ⟨fun b hb b' hb' h => congrArg Block.toBlockHeader (hK.block_eq b hb b' hb' h), hK.ne_null⟩

/-- An id determines the blocks of its path. -/
theorem DistinctIds.path_eq (hK : DistinctIds n K)
    (h : Path n K path top) (h' : Path n K path' top) : path = path' := by
  have hdet : Determined n.getBlockHash (fun b => b.prevId) (fun b => b) nullHash K :=
    ⟨fun b hb b' hb' heq => congrArg (fun b => b.prevId) (hK.block_eq b hb b' hb' heq),
      hK.block_eq, hK.ne_null⟩
  have heq := segment_unique hdet h.linked h'.linked h.known h'.known
  rwa [map_id'', map_id''] at heq
  · exact fun _ => rfl
  · exact fun _ => rfl

/-! ## Caches -/

/-- The window that `get_difficulty_for_next_block` keeps, unless it is to be reset, is that of the
chain at the noted height. -/
def DifficultyCache.Window (c : DifficultyCache) (chain : List StoredBlock) : Prop :=
  c.reset = false → c.height ≠ 0 → c.height ≤ chain.length ∧
    c.timestamps = (difficultyWindowOf
      ((chain.drop (chain.length - c.height)).map entry)).map Prod.fst ∧
    c.difficulties = (difficultyWindowOf
      ((chain.drop (chain.length - c.height)).map entry)).map Prod.snd

variable {c : DifficultyCache}

theorem DifficultyCache.Window.extend
    (h : c.Window chain) (e : StoredBlock) : c.Window (e :: chain) := by
  intro hreset hheight
  obtain ⟨hle, hts, hds⟩ := h hreset hheight
  have hsub : (e :: chain).length - c.height = chain.length - c.height + 1 := by
    rw [length_cons]
    omega
  rw [hsub, drop_succ_cons]
  exact ⟨hle.trans (Nat.le_succ _), hts, hds⟩

/-- Both ways to bring the window up to the top block give the window of the chain. -/
theorem DifficultyCache.Window.fill (h : c.Window chain) :
    (c.fill chain).timestamps =
        (difficultyWindowOf (chain.map entry)).map Prod.fst ∧
      (c.fill chain).difficulties =
        (difficultyWindowOf (chain.map entry)).map Prod.snd ∧
      (c.fill chain).height = chain.length := by
  unfold DifficultyCache.fill
  dsimp only
  generalize htd : (if c.reset = true then 0 else c.height) = tdHeight
  split
  · rename_i hcond
    obtain ⟨hheight, hlen, hfull⟩ := hcond
    -- the window is not to be reset, and ends just below the top block
    have hreset : c.reset = false := by
      by_contra hr
      rw [if_pos (Bool.of_not_eq_false hr)] at htd
      exact hheight htd.symm
    rw [hreset, if_neg Bool.false_ne_true] at htd
    subst htd
    obtain ⟨-, hts, hds⟩ := h hreset hheight
    obtain ⟨e, chain, rfl⟩ := exists_cons_of_length_eq_add_one hlen
    have hdrop : (e :: chain).drop ((e :: chain).length - c.height) = chain := by
      rw [hlen, Nat.add_sub_cancel_left, drop_one, tail_cons]
    rw [hdrop] at hts hds
    rw [hts, length_map] at hfull
    rw [between_last, hts, hds, map_singleton, map_singleton, map_cons]
    dsimp only
    exact ⟨push_trim Prod.fst e.entry hfull, push_trim Prod.snd e.entry hfull, rfl⟩
  · rw [between_difficultyOffset, difficultyWindowOf_map, map_map, map_map]
    exact ⟨rfl, rfl, rfl⟩

/-- **The difficulty of the next block on the main chain** is the one its entries require, whatever
the window holds, as long as the difficulty kept for the top block, if it is that, is right. What is
kept afterwards is what was kept before, or the difficulty for the top block. -/
theorem DifficultyCache.Window.next {version : UInt8} (h : c.Window chain)
    (hver : version = n.schedule.getIdealVersion chain.length)
    (hkept : n.fixedDifficulty = 0 → topId n chain = c.topHash →
      c.forNextBlock = requiredDifficulty n (chain.map entry)) :
    (c.next n chain version).1 = requiredDifficulty n (chain.map entry) ∧
      (c.next n chain version).2.Window chain ∧
      ((c.next n chain version).2 = c ∨
        (c.next n chain version).2.topHash = topId n chain ∧
        (c.next n chain version).2.forNextBlock =
          requiredDifficulty n (chain.map entry)) := by
  unfold DifficultyCache.next
  split
  · rename_i hfixed
    rw [requiredDifficulty, if_pos hfixed, length_map]
    exact ⟨rfl, h, .inl rfl⟩
  rename_i hfixed
  split
  · rename_i htop
    exact ⟨hkept (not_not.mp hfixed) htop, h, .inl rfl⟩
  obtain ⟨hts, hds, hheight⟩ := h.fill
  have hdiff : nextDifficulty (c.fill chain).timestamps (c.fill chain).difficulties
      (difficultyTarget version) = requiredDifficulty n (chain.map entry) := by
    rw [requiredDifficulty, if_neg hfixed, length_map, ← hver, hts, hds]
  refine ⟨hdiff, fun _ _ => ?_, .inr ⟨rfl, hdiff⟩⟩
  rw [hheight, Nat.sub_self, drop_zero]
  exact ⟨Nat.le_refl _, hts, hds⟩

/-- What `get_difficulty_for_next_block` keeps: the difficulty that the path with the noted top hash
requires, given what is recorded along it, and the window. -/
structure DifficultyCache.Valid (n : Node P) (K : Set Block) (c : DifficultyCache)
    (chain : List StoredBlock) : Prop where
  known : ∃ path, Path n K path c.topHash ∧
    c.forNextBlock = requiredDifficulty n (recordedEntries n (timestampsOf path))
  window : c.Window chain

theorem DifficultyCache.valid_init : DifficultyCache.Valid n K {} [] := by
  refine ⟨⟨[], Path.nil, ?_⟩, nofun⟩
  unfold requiredDifficulty
  split <;> rfl

theorem DifficultyCache.Valid.invalidate (h : c.Valid n K chain) (chain' : List StoredBlock) :
    c.invalidate.Valid n K chain' :=
  ⟨h.known, nofun⟩

/-- Clearing the difficulty window after a batch leaves the caches valid. -/
theorem cleanup_valid {s : Blockchain P} (h : s.difficultyCache.Valid n K s.chain) :
    (cleanupHandleIncomingBlocks s).difficultyCache.Valid n K s.chain := by
  unfold cleanupHandleIncomingBlocks
  dsimp only
  split
  · exact ⟨h.known, fun _ hheight => absurd rfl hheight⟩
  · exact h

/-- **The difficulty of the next block on the main chain** is the one its entries require, if these
are the recorded ones, and the caches stay valid. -/
theorem DifficultyCache.Valid.next (hK : CollisionFree n K) {version : UInt8}
    (h : c.Valid n K chain) (hpath : Path n K (chain.map bl) (topId n chain))
    (hentries : chain.map entry = recordedEntries n (timestampsOf (chain.map bl)))
    (hver : version = n.schedule.getIdealVersion chain.length) :
    (c.next n chain version).1 = requiredDifficulty n (chain.map entry) ∧
      (c.next n chain version).2.Valid n K chain := by
  obtain ⟨path, hp, hdiff⟩ := h.known
  obtain ⟨hnext, hwindow, hkept⟩ := h.window.next (n := n) hver fun _ htop => by
    rw [hdiff, hp.unique hK (htop ▸ hpath), ← hentries]
  refine ⟨hnext, ?_, hwindow⟩
  rcases hkept with hsame | ⟨htop, hnew⟩
  · rw [hsame]
    exact ⟨path, hp, hdiff⟩
  · exact ⟨_, htop ▸ hpath, hentries ▸ hnew⟩

/-! ## Alternative chains -/

/-- **The difficulty on an alternative chain** is the one required by the alternative blocks and the
part of the main chain below them. -/
theorem altDifficulty_eq {s : Blockchain P} {altChain : List BlockExtendedInfo} {height stop : Nat}
    (hstop : (altChain.head?.map BlockExtendedInfo.height).getD height = stop) (hpos : 0 < stop)
    (hle : stop ≤ s.height) (hheight : altChain.length + stop = height) :
    getNextDifficultyForAlternativeChain n s altChain height =
      requiredDifficulty n ((altChain.map BlockExtendedInfo.entry).reverse ++
        (s.chain.drop (s.height - stop)).map entry) := by
  have hbase : ((s.chain.drop (s.height - stop)).map entry).length = stop := by
    rw [length_map, length_drop]
    exact Nat.sub_sub_self hle
  have hne : (s.chain.drop (s.height - stop)).map entry ≠ [] :=
    ne_nil_of_length_pos (hbase.symm ▸ hpos)
  have hlen : ((altChain.map BlockExtendedInfo.entry).reverse ++
      (s.chain.drop (s.height - stop)).map entry).length = height := by
    rw [length_append, length_reverse, length_map, hbase, hheight]
  unfold getNextDifficultyForAlternativeChain requiredDifficulty
  rw [hlen]
  by_cases hfixed : n.fixedDifficulty ≠ 0
  · rw [if_pos hfixed, if_pos hfixed, if_neg (by omega), if_neg (by omega)]
  rw [if_neg hfixed, if_neg hfixed, difficultyWindowOf_append _ hne, length_map]
  dsimp only
  rw [hstop]
  split
  · have hmin : min difficultyBlocksCount altChain.length = altChain.length := by omega
    have hmain := between_window s.chain (c := difficultyBlocksCount - altChain.length) hle
    have hmainLe := length_take_le (difficultyBlocksCount - altChain.length)
      (s.chain.drop (s.chain.length - stop)).dropLast
    rw [hmin, hmain, length_reverse, if_neg (by omega), ← map_dropLast, ← map_take, ← map_reverse,
      map_append, map_append, map_map, map_map, map_map, map_map]
    rfl
  · rw [← map_drop, map_map, map_map]
    rfl

end Hashmonkey.Core
