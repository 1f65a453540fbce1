import Hashmonkey.Core.HardFork

/-!
# Runs of the hard fork state (`cryptonote_basic/hardfork.cpp`)

`init`, which restores the state from the database, and `on_block_popped` for several blocks. The
blocks of the database are given from the genesis block on.

* `init`, `rescanFromBlockHeight`: the window is read again from the votes of the last blocks, and
  the index in force from the version that is stored for the top block;
* `onBlocksPopped`: for each popped block the window loses its last vote and gets the version that
  is stored for the popped height in front;
* `VoteWindow`: the window together with the counters `last_versions`, operation by operation;
* `Run`: the states of the object, kept in step with the database.

Results: **without votes the version in force is the ideal one** in every state of a run
(`current_version_ideal`). With votes, **a popped block leaves a wrong window**
(`popped_window_differs`). `versions` is meant as the rolling window of the last blocks' versions,
and `init` and `add` keep it so (`inStep_init`, `InStep.add`). Popping takes the version that goes
in front from the popped height, where the one a window below it is due, and it does not shorten a
window that is not full: a slip. That it does not take voting into account when it sets the index is
by design. `popped_eq_init_iff` is the condition under which all three are what `init` finds.
-/

namespace Hashmonkey.Core

open Basic List HardFork Function

namespace HardFork

variable (t : Schedule) (f : HardFork)

/-! ## Restoring and popping -/

/-- The search of `rescan_from_block_height` for the fork with the given version: the last one if
there is none. -/
def scanFrom (lastVersion : UInt8) : List HardForkEntry → Nat
  | [] => 0
  | [_] => 0
  | e :: e' :: es => if e.version = lastVersion then 0 else scanFrom lastVersion (e' :: es) + 1

/-- `rescan_from_block_height`. -/
def rescanFromBlockHeight (blocks : List BlockHeader) (height : Nat) : HardFork :=
  if height ≥ blocks.length then f
  else
    raise t
      { f with
        versions := (blocks.drop height).map fun b => t.getEffectiveVersion (getBlockVote b)
        currentForkIndex := scanFrom (f.dbVersion (blocks.length - 1)) t.forks }
      blocks.length

/-- `rescan_from_chain_height`. -/
def rescanFromChainHeight (blocks : List BlockHeader) (height : Nat) : HardFork :=
  if height = 0 then f else f.rescanFromBlockHeight t blocks (height - 1)

/-- `init`. -/
def init (blocks : List BlockHeader) : HardFork :=
  let height := if blocks.length > t.windowSize then blocks.length - (t.windowSize - 1) else 1
  rescanFromChainHeight t { f with versions := [], currentForkIndex := 0 } blocks height

/-- The loop of `on_block_popped` over the window, for that many popped blocks. -/
def shiftVotes (dbVersion : Nat → UInt8) (newChainHeight : Nat) : Nat → List UInt8 → List UInt8
  | 0, versions => versions
  | k + 1, versions =>
    shiftVotes dbVersion newChainHeight k (dbVersion (newChainHeight + k) :: versions.dropLast)

/-- `on_block_popped(nblocks)`, when the chain has the given height again: it throws if there are
no blocks, and without a genesis block its loop does not end. -/
def onBlocksPopped (newChainHeight nblocks : Nat) : Option HardFork :=
  if nblocks = 0 ∨ newChainHeight = 0 then none
  else
    some
      { f with
        versions := shiftVotes f.dbVersion newChainHeight nblocks f.versions
        currentForkIndex := t.idealIndex newChainHeight }

end HardFork

/-! ## The version of a height -/

namespace Schedule

variable {t : Schedule}

/-- A fork whose height is reached is not after the one in force. -/
theorem le_idealIndex {h n : Nat} (hn : n < t.forks.length) (hh : t.height n ≤ h) :
    n ≤ t.idealIndex h := by
  have key : ∀ m, n ≤ m → n ≤ t.idealFrom h m := by
    intro m hm
    induction m with
    | zero => exact hm
    | succ m ih =>
      rw [idealFrom]
      split
      · exact hm
      rename_i hnot
      rcases Nat.eq_or_lt_of_le hm with rfl | hlt
      · exact absurd hh hnot
      · exact ih (Nat.le_of_lt_succ hlt)
  exact key _ (Nat.le_sub_one_of_lt hn)

theorem height_idealIndex_le {h : Nat} (hpos : t.idealIndex h ≠ 0) :
    t.height (t.idealIndex h) ≤ h := by
  have key : ∀ m, t.idealFrom h m ≠ 0 → t.height (t.idealFrom h m) ≤ h := by
    intro m hm
    induction m with
    | zero => exact absurd rfl hm
    | succ m ih =>
      rw [idealFrom] at hm ⊢
      split
      · assumption
      rename_i hnot
      rw [if_neg hnot] at hm
      exact ih hm
  exact key _ hpos

/-- The version of the last fork whose height is at most the given one, the original version below
the first. -/
def VersionAt (t : Schedule) (h : Nat) (v : UInt8) : Prop :=
  (∃ e ∈ t.forks, e.height ≤ h ∧ (∀ e' ∈ t.forks, e'.height ≤ h → e'.height ≤ e.height) ∧
    v = e.version) ∨
  ((∀ e ∈ t.forks, h < e.height) ∧ v = t.originalVersion)

theorem height_eq {n : Nat} (hn : n < t.forks.length) : t.height n = t.forks[n].height := by
  rw [height, getD_eq_getElem _ _ hn]

theorem height_mono {m n : Nat} (hmn : m ≤ n) (hn : n < t.forks.length) :
    t.height m ≤ t.height n := by
  rcases Nat.eq_or_lt_of_le hmn with rfl | hlt
  · exact Nat.le_refl _
  · exact Nat.le_of_lt (height_lt hlt hn)

theorem Unvoted.versionAt (ht : t.Unvoted) (h : Nat) : VersionAt t h (t.getIdealVersion h) := by
  have hlt := t.idealIndex_lt h
  rw [ht.getIdealVersion_eq]
  by_cases hfirst : t.height 0 ≤ h
  · have hle : t.height (t.idealIndex h) ≤ h := by
      by_cases h0 : t.idealIndex h = 0
      · rw [h0]
        exact hfirst
      · exact height_idealIndex_le h0
    refine .inl ⟨t.forks[t.idealIndex h], getElem_mem hlt, ?_, ?_, ?_⟩
    · rwa [← height_eq]
    · intro e' he' hh'
      obtain ⟨n, hn, rfl⟩ := mem_iff_getElem.mp he'
      rw [← height_eq] at hh' ⊢
      rw [← height_eq]
      exact height_mono (le_idealIndex hn hh') hlt
    · rw [version, getD_eq_getElem _ _ hlt]
  · refine .inr ⟨?_, ?_⟩
    · intro e he
      obtain ⟨n, hn, rfl⟩ := mem_iff_getElem.mp he
      rw [← height_eq]
      exact Nat.lt_of_lt_of_le (Nat.not_le.mp hfirst) (height_mono (Nat.zero_le n) hn)
    · rw [idealIndex_of_lt (Nat.not_le.mp hfirst), ht.first_version]

end Schedule

/-! ## Runs without votes -/

namespace HardFork

variable {t : Schedule} {f f' : HardFork} {blocks : List BlockHeader}

/-- The search finds a fork by its version. -/
theorem scanFrom_getElem {forks : List HardForkEntry}
    (hinc : forks.Pairwise fun e e' => e.version < e'.version) {n : Nat} (hn : n < forks.length) :
    scanFrom forks[n].version forks = n := by
  induction forks generalizing n with
  | nil => exact absurd hn (Nat.not_lt_zero n)
  | cons e es ih =>
    rw [pairwise_cons] at hinc
    cases es with
    | nil =>
      exact (Nat.lt_one_iff.mp hn).symm
    | cons e' es =>
      rw [scanFrom]
      cases n with
      | zero => exact if_pos rfl
      | succ n =>
        rw [length_cons, Nat.succ_lt_succ_iff] at hn
        rw [getElem_cons_succ, if_neg, ih hinc.2 hn]
        exact (UInt8.ne_of_lt (hinc.1 _ (getElem_mem hn)))

theorem scanFrom_version {n : Nat} (hn : n < t.forks.length) :
    scanFrom (t.version n) t.forks = n := by
  rw [Schedule.version, getD_eq_getElem _ _ hn]
  exact scanFrom_getElem t.versions_increase hn

/-- A rescan finds the index in force from what is stored, whatever the index was. -/
theorem inForce_rescan (ht : t.Unvoted) {height : Nat} (hlt : height < blocks.length)
    (hstored : ∀ h, h < blocks.length → f.dbVersion h = t.version (t.idealIndex h)) :
    InForce t (f.rescanFromBlockHeight t blocks height) blocks.length := by
  obtain ⟨m, hm⟩ : ∃ m, blocks.length = m + 1 := ⟨blocks.length - 1, by omega⟩
  unfold rescanFromBlockHeight
  rw [if_neg (Nat.not_le.mpr hlt)]
  refine ⟨?_, hstored⟩
  rw [hm]
  refine raise_index ht ?_
  rw [Nat.add_sub_cancel, hstored m (by omega), scanFrom_version (t.idealIndex_lt m)]

theorem init_nil : f.init t [] = { f with versions := [], currentForkIndex := 0 } := by
  unfold init rescanFromChainHeight
  rfl

/-- `init` is a rescan. -/
theorem init_eq_rescan :
    f.init t blocks =
      rescanFromBlockHeight t { f with versions := [], currentForkIndex := 0 } blocks
        (blocks.length - max t.windowSize 1) := by
  unfold init rescanFromChainHeight
  rw [if_neg (by split <;> omega)]
  congr 1
  split <;> omega

theorem InForce.init (ht : t.Unvoted) (h : InForce t f blocks.length) :
    InForce t (f.init t blocks) blocks.length := by
  by_cases hne : blocks = []
  · subst hne
    exact ⟨Schedule.idealIndex_zero.symm, h.stored⟩
  · have hpos := length_pos_iff.mpr hne
    rw [init_eq_rescan]
    exact inForce_rescan ht (by omega) h.stored

theorem InForce.popped {m k : Nat} (h : InForce t f (m + k))
    (hpop : f.onBlocksPopped t m k = some f') : InForce t f' m := by
  unfold onBlocksPopped at hpop
  split at hpop
  · cases hpop
  cases hpop
  exact ⟨rfl, fun j hj => h.stored j (Nat.lt_add_right k hj)⟩

/-- The states of the object in step with the blocks of the database, from an empty database on. -/
inductive Run (t : Schedule) : List BlockHeader → HardFork → Prop
  | start (f : HardFork) : Run t [] (f.init t [])
  | init {blocks : List BlockHeader} {f : HardFork} (h : Run t blocks f) :
      Run t blocks (f.init t blocks)
  | add {blocks : List BlockHeader} {f : HardFork} (h : Run t blocks f) (b : BlockHeader)
      (hb : f.check t b = true) : Run t (blocks ++ [b]) (f.add t b blocks.length)
  | pop {blocks popped : List BlockHeader} {f f' : HardFork} (h : Run t (blocks ++ popped) f)
      (hpop : f.onBlocksPopped t blocks.length popped.length = some f') : Run t blocks f'
  | reorganize {blocks : List BlockHeader} {f : HardFork} (h : Run t blocks f) (height : Nat) :
      Run t blocks (f.reorganizeFromBlockHeight t blocks height)

/-- The run lemma: each operation keeps the fork of the height in force, and the blocks conform. -/
theorem Run.inForce (ht : t.Unvoted) (h : Run t blocks f) :
    InForce t f blocks.length ∧ Conforms t blocks := by
  induction h with
  | start f =>
    exact ⟨⟨Schedule.idealIndex_zero.symm, fun h hh => absurd hh (Nat.not_lt_zero h)⟩, nofun⟩
  | init _ ih => exact ⟨ih.1.init ht, ih.2⟩
  | add _ b hb ih =>
    rw [length_append, length_singleton]
    refine ⟨ih.1.add ht hb, ih.2.concat ?_⟩
    rwa [check, ih.1.index] at hb
  | pop _ hpop ih =>
    rw [length_append] at ih
    exact ⟨ih.1.popped hpop, ih.2.of_append⟩
  | reorganize _ height ih => exact ⟨ih.1.reorganizeFromBlockHeight ht ih.2 height, ih.2⟩

/-- A block header of the given version, which it also votes for. -/
def sampleHeader (version : UInt8) : BlockHeader where
  majorVersion := version
  minorVersion := version
  timestamp := 0
  prevId := nullHash
  nonce := 0

/-- **Without votes the version in force is the ideal one of the height** in every state of a run:
the one of the last fork whose height is reached, and `check` is `check_for_height` at the height of
the database. -/
theorem current_version_ideal (t : Schedule) (ht : t.Unvoted) (blocks : List BlockHeader)
    (f : HardFork) (h : Run t blocks f) :
    f.getCurrentVersion t = t.getIdealVersion blocks.length ∧
      t.VersionAt blocks.length (t.getIdealVersion blocks.length) ∧
      ∀ b, f.check t b = f.checkForHeight t b blocks.length := by
  have hforce := (h.inForce ht).1
  refine ⟨hforce.getCurrentVersion_eq ht, ht.versionAt _, fun b => ?_⟩
  rw [check, checkForHeight, getVotedForkIndex_eq ht hforce.index (Nat.le_refl _), hforce.index]

/-- Three blocks are added, one is popped, and the state is restored and reorganised. -/
theorem current_version_ideal_popped :
    ∃ f, Run mainnetHardForks [sampleHeader 1, sampleHeader 1] f ∧
      f.getCurrentVersion mainnetHardForks = 2 ∧
      ∀ b, f.check mainnetHardForks b = f.checkForHeight mainnetHardForks b 2 := by
  have hrun : Run mainnetHardForks ([sampleHeader 1, sampleHeader 1] ++ [sampleHeader 2]) _ :=
    .add (.add (.add (.start {}) (sampleHeader 1) (by decide)) (sampleHeader 1) (by decide))
      (sampleHeader 2) (by decide)
  have hend := Run.reorganize (Run.init (Run.pop hrun rfl)) 0
  obtain ⟨hversion, -, hcheck⟩ :=
    current_version_ideal mainnetHardForks mainnetHardForks_unvoted _ _ hend
  exact ⟨_, hend, hversion, hcheck⟩

end HardFork

/-! ## The counters -/

/-- The window with `last_versions`, which counts the votes in it in 32 bits. -/
structure VoteWindow where
  versions : List UInt8 := []
  lastVersions : UInt8 → UInt32 := fun _ => 0

namespace VoteWindow

/-- `versions.push_back(v); last_versions[v]++`. -/
def pushBack (w : VoteWindow) (v : UInt8) : VoteWindow :=
  ⟨w.versions ++ [v], update w.lastVersions v (w.lastVersions v + 1)⟩

/-- `versions.push_front(v); last_versions[v]++`. -/
def pushFront (w : VoteWindow) (v : UInt8) : VoteWindow :=
  ⟨v :: w.versions, update w.lastVersions v (w.lastVersions v + 1)⟩

/-- `last_versions[versions.back()]--; versions.pop_back()`. -/
def popBack (w : VoteWindow) : VoteWindow :=
  match w.versions.getLast? with
  | none => w
  | some v => ⟨w.versions.dropLast, update w.lastVersions v (w.lastVersions v - 1)⟩

/-- `last_versions[versions.front()]--; versions.pop_front()`. -/
def popFront (w : VoteWindow) : VoteWindow :=
  match w.versions with
  | [] => w
  | v :: vs => ⟨vs, update w.lastVersions v (w.lastVersions v - 1)⟩

/-- `while (versions.size() >= window_size)` of `add`, with the size of the window as the bound. -/
def trim (windowSize : Nat) : Nat → VoteWindow → VoteWindow
  | 0, w => w
  | fuel + 1, w => if w.versions.length ≥ windowSize then trim windowSize fuel w.popFront else w

/-- What `add` does to the window. -/
def addVote (w : VoteWindow) (windowSize : Nat) (v : UInt8) : VoteWindow :=
  (trim windowSize w.versions.length w).pushBack v

/-- What a rescan does to the window: it is cleared and filled again. -/
def scan (votes : List UInt8) : VoteWindow := votes.foldl pushBack {}

/-- What `on_block_popped` does to the window. -/
def shift (dbVersion : Nat → UInt8) (newChainHeight : Nat) : Nat → VoteWindow → VoteWindow
  | 0, w => w
  | k + 1, w =>
    shift dbVersion newChainHeight k (w.popBack.pushFront (dbVersion (newChainHeight + k)))

/-- The counters are the numbers of votes. -/
def Counted (w : VoteWindow) : Prop := ∀ v, w.lastVersions v = UInt32.ofNat (w.versions.count v)

variable {w : VoteWindow}

section Counting

variable (h : w.Counted) {v : UInt8} {vs : List UInt8}

include h

/-- One vote more, wherever it stands. -/
theorem Counted.push (hvs : vs.Perm (v :: w.versions)) :
    Counted ⟨vs, update w.lastVersions v (w.lastVersions v + 1)⟩ := by
  intro x
  dsimp only
  rw [hvs.count_eq, count_cons]
  by_cases hx : x = v
  · rw [hx, update_self, beq_self_eq_true, if_pos rfl, h, UInt32.ofNat_add]
    rfl
  · rw [update_of_ne hx, if_neg (by simpa using Ne.symm hx), h]
    rfl

/-- One vote less. -/
theorem Counted.pop (hvs : w.versions.Perm (v :: vs)) :
    Counted ⟨vs, update w.lastVersions v (w.lastVersions v - 1)⟩ := by
  intro x
  have hcount := h x
  rw [hvs.count_eq, count_cons] at hcount
  dsimp only
  by_cases hx : x = v
  · subst hx
    rw [update_self, hcount, beq_self_eq_true, if_pos rfl, UInt32.ofNat_add]
    exact UInt32.add_sub_cancel _ _
  · rw [update_of_ne hx, hcount, if_neg (by simpa using Ne.symm hx)]
    rfl

theorem Counted.pushBack (v : UInt8) : (w.pushBack v).Counted := h.push (perm_append_singleton v _)

theorem Counted.pushFront (v : UInt8) : (w.pushFront v).Counted := h.push (.refl _)

theorem Counted.popBack : w.popBack.Counted := by
  unfold VoteWindow.popBack
  split
  · exact h
  rename_i v hlast
  have hperm := perm_append_singleton v w.versions.dropLast
  rw [dropLast_append_getLast? v hlast] at hperm
  exact h.pop hperm

theorem Counted.popFront : w.popFront.Counted := by
  unfold VoteWindow.popFront
  split
  · exact h
  rename_i v vs hvs
  exact h.pop (hvs ▸ .refl _)

end Counting

theorem versions_popBack : w.popBack.versions = w.versions.dropLast := by
  unfold VoteWindow.popBack
  split
  · rename_i hnone
    rw [getLast?_eq_none_iff.mp hnone]
    rfl
  · rfl

theorem versions_popFront : w.popFront.versions = w.versions.tail := by
  unfold VoteWindow.popFront
  split
  · rename_i hnil
    rw [hnil]
    rfl
  · rename_i hvs
    rw [hvs]
    rfl

theorem counted_scan (votes : List UInt8) :
    (scan votes).versions = votes ∧ (scan votes).Counted := by
  have key : ∀ w : VoteWindow, w.Counted → (votes.foldl VoteWindow.pushBack w).versions =
      w.versions ++ votes ∧ (votes.foldl VoteWindow.pushBack w).Counted := by
    induction votes with
    | nil => exact fun w h => ⟨(append_nil _).symm, h⟩
    | cons v votes ih =>
      intro w h
      obtain ⟨hv, hc⟩ := ih _ (h.pushBack v)
      refine ⟨hv.trans ?_, hc⟩
      rw [VoteWindow.pushBack, append_assoc]
      rfl
  exact key {} fun _ => rfl

theorem counted_shift (h : w.Counted) (dbVersion : Nat → UInt8) (newChainHeight k : Nat) :
    (w.shift dbVersion newChainHeight k).versions =
        shiftVotes dbVersion newChainHeight k w.versions ∧
      (w.shift dbVersion newChainHeight k).Counted := by
  induction k generalizing w with
  | zero => exact ⟨rfl, h⟩
  | succ k ih =>
    obtain ⟨hv, hc⟩ := ih (h.popBack.pushFront (dbVersion (newChainHeight + k)))
    refine ⟨hv.trans ?_, hc⟩
    rw [shiftVotes, VoteWindow.pushFront, versions_popBack]

/-- `add` trims the window to one vote less than its size, then adds the vote. -/
theorem counted_addVote (h : w.Counted) (windowSize : Nat) (v : UInt8) :
    (w.addVote windowSize v).versions =
        w.versions.drop (w.versions.length + 1 - windowSize) ++ [v] ∧
      (w.addVote windowSize v).Counted := by
  have key : ∀ fuel (w : VoteWindow), w.Counted → w.versions.length ≤ fuel →
      (trim windowSize fuel w).versions = w.versions.drop (w.versions.length + 1 - windowSize) ∧
        (trim windowSize fuel w).Counted := by
    intro fuel w hw hlen
    induction fuel generalizing w with
    | zero =>
      have hnil := eq_nil_of_length_eq_zero (Nat.le_zero.mp hlen)
      exact ⟨by rw [trim, hnil, drop_nil], hw⟩
    | succ fuel ih =>
      rw [trim]
      split
      · rename_i hge
        obtain ⟨hv, hc⟩ := ih w.popFront hw.popFront (by rw [versions_popFront]; simp; omega)
        refine ⟨hv.trans ?_, hc⟩
        rw [versions_popFront, length_tail]
        cases hvs : w.versions with
        | nil => simp
        | cons v vs =>
          rw [hvs, length_cons] at hge
          rw [tail_cons, length_cons, Nat.add_sub_cancel,
            Nat.succ_sub (by omega : windowSize ≤ vs.length + 1), drop_succ_cons]
      · rw [Nat.sub_eq_zero_of_le (by omega)]
        exact ⟨rfl, hw⟩
  obtain ⟨hv, hc⟩ := key _ w h (Nat.le_refl _)
  refine ⟨?_, hc.pushBack v⟩
  rw [addVote, VoteWindow.pushBack, hv]

end VoteWindow

/-! ## Popping against restoring -/

namespace HardFork

variable {t : Schedule} {f : HardFork}

/-- The vote of a block as the window keeps it. -/
def effectiveVote (t : Schedule) (b : BlockHeader) : UInt8 := t.getEffectiveVersion (getBlockVote b)

/-- The votes of the last blocks of a chain, as many as the window holds. -/
def windowVotes (t : Schedule) (blocks : List BlockHeader) : List UInt8 :=
  (blocks.drop (blocks.length - t.windowSize)).map (effectiveVote t)

theorem versions_init (hw : 0 < t.windowSize) (blocks : List BlockHeader) :
    (f.init t blocks).versions = windowVotes t blocks := by
  by_cases hne : blocks = []
  · subst hne
    rw [init_nil, windowVotes, drop_nil]
    rfl
  · have hpos := length_pos_iff.mpr hne
    rw [init_eq_rescan, rescanFromBlockHeight, if_neg (by omega), Nat.max_eq_left hw]
    rfl

theorem votedFrom_congr {f' : HardFork} (h : f.versions = f'.versions) (height n votes : Nat) :
    f.votedFrom t height n votes = f'.votedFrom t height n votes := by
  induction n generalizing votes with
  | zero => rfl
  | succ n ih =>
    simp only [votedFrom, h, ih]

theorem index_init {blocks : List BlockHeader} (hw : 0 < t.windowSize) (hne : blocks ≠ []) :
    (f.init t blocks).currentForkIndex =
      max (scanFrom (f.dbVersion (blocks.length - 1)) t.forks)
        ((votedFrom t { f with versions := windowVotes t blocks } blocks.length
          t.forks.length 0).getD (scanFrom (f.dbVersion (blocks.length - 1)) t.forks)) := by
  have hpos := length_pos_iff.mpr hne
  rw [init_eq_rescan, rescanFromBlockHeight, if_neg (by omega), Nat.max_eq_left hw, raise]
  dsimp only
  rw [getVotedForkIndex]
  congr 2
  refine votedFrom_congr ?_ _ _ _
  rfl

theorem shiftVotes_eq {dbVersion : Nat → UInt8} {m k : Nat} {versions : List UInt8}
    (hne : versions ≠ []) :
    shiftVotes dbVersion m k versions =
      ((List.range k).map (fun i => dbVersion (m + i)) ++ versions).take versions.length := by
  induction k generalizing versions with
  | zero => simp [shiftVotes]
  | succ k ih =>
    have hpos := length_pos_iff.mpr hne
    rw [shiftVotes, ih (cons_ne_nil _ _), length_cons, length_dropLast,
      Nat.sub_add_cancel hpos, range_succ, map_append, append_assoc]
    -- the vote that is dropped lies beyond what is kept
    have hcut : dbVersion (m + k) :: versions.dropLast =
        (dbVersion (m + k) :: versions).take versions.length := by
      rw [take_cons hpos, dropLast_eq_take]
    rw [hcut, take_append, take_append, take_take, Nat.min_eq_left (Nat.sub_le _ _)]
    rfl

theorem length_windowVotes (blocks : List BlockHeader) :
    (windowVotes t blocks).length = min blocks.length t.windowSize := by
  rw [windowVotes, length_map, length_drop]
  omega

theorem getElem?_windowVotes (blocks : List BlockHeader) (i : Nat) :
    (windowVotes t blocks)[i]? =
      blocks[blocks.length - t.windowSize + i]?.map (effectiveVote t) := by
  rw [windowVotes, getElem?_map, getElem?_drop]

/-- An entry of the shifted window of a full chain: a stored version, or still the right vote. -/
theorem getElem?_shiftVotes {kept : List BlockHeader} (popped : List BlockHeader)
    (dbVersion : Nat → UInt8) (hfull : t.windowSize ≤ kept.length) {i : Nat}
    (hi : i < t.windowSize) :
    (shiftVotes dbVersion kept.length popped.length (windowVotes t (kept ++ popped)))[i]? =
      if i < popped.length then some (dbVersion (kept.length + i))
      else (windowVotes t kept)[i]? := by
  have hlen : (windowVotes t (kept ++ popped)).length = t.windowSize := by
    rw [length_windowVotes, length_append]
    omega
  have hne : windowVotes t (kept ++ popped) ≠ [] := length_pos_iff.mp (by omega)
  rw [shiftVotes_eq hne, hlen, getElem?_take_of_lt hi]
  split
  · rename_i hip
    rw [getElem?_append_left (by simpa using hip), getElem?_map, getElem?_range hip]
    rfl
  rename_i hip
  rw [getElem?_append_right (by simpa using hip), length_map, length_range,
    getElem?_windowVotes, getElem?_windowVotes, length_append]
  have hpos : kept.length + popped.length - t.windowSize + (i - popped.length) =
      kept.length - t.windowSize + i := by omega
  rw [hpos, getElem?_append_left (by omega)]

/-- **When the shifted window is the one of the shorter chain**: the window is full, and the
versions stored for the popped heights repeat the votes one window below. -/
theorem shiftVotes_eq_windowVotes_iff (dbVersion : Nat → UInt8) (kept : List BlockHeader)
    {popped : List BlockHeader} (hw : 0 < t.windowSize) (hpopped : popped ≠ []) :
    shiftVotes dbVersion kept.length popped.length (windowVotes t (kept ++ popped)) =
        windowVotes t kept ↔
      t.windowSize ≤ kept.length ∧ ∀ i b, i < popped.length → i < t.windowSize →
        kept[kept.length - t.windowSize + i]? = some b →
        dbVersion (kept.length + i) = effectiveVote t b := by
  have hp := length_pos_iff.mpr hpopped
  have hlen := length_windowVotes (t := t) (kept ++ popped)
  rw [length_append] at hlen
  have hne : windowVotes t (kept ++ popped) ≠ [] := length_pos_iff.mp (by omega)
  have hshift : (shiftVotes dbVersion kept.length popped.length
      (windowVotes t (kept ++ popped))).length =
      min (kept.length + popped.length) t.windowSize := by
    rw [shiftVotes_eq hne, length_take, length_append, hlen]
    omega
  constructor
  · intro heq
    have hfull : t.windowSize ≤ kept.length := by
      have hsize := congrArg List.length heq
      rw [hshift, length_windowVotes] at hsize
      omega
    refine ⟨hfull, fun i b hi hiw hb => ?_⟩
    have hget := getElem?_shiftVotes popped dbVersion hfull hiw
    rw [heq, if_pos hi, getElem?_windowVotes, hb] at hget
    exact (Option.some_inj.mp hget).symm
  · rintro ⟨hfull, hall⟩
    refine ext_getElem? fun i => ?_
    by_cases hi : i < t.windowSize
    · rw [getElem?_shiftVotes popped dbVersion hfull hi]
      split
      · rename_i hip
        rw [getElem?_windowVotes, getElem?_eq_getElem (by omega), Option.map_some,
          hall i _ hip hi (getElem?_eq_getElem (by omega))]
      · rfl
    · rw [getElem?_eq_none (by omega), getElem?_eq_none]
      rw [length_windowVotes]
      omega

theorem votedFrom_some {height k votes n : Nat} (h : f.votedFrom t height k votes = some n)
    (hk : k ≤ t.forks.length) : n < t.forks.length ∧ t.height n ≤ height := by
  induction k generalizing votes with
  | zero => cases h
  | succ k ih =>
    rw [votedFrom] at h
    split at h
    · rename_i hreached
      cases h
      exact ⟨hk, hreached.1⟩
    · exact ih h (Nat.le_of_succ_le hk)

/-- The fork that the height selects is the one of the version stored for the top block, or it is a
later one and has the votes of the window. -/
def SelectedByVotes (t : Schedule) (f : HardFork) (blocks : List BlockHeader) : Prop :=
  let top := scanFrom (f.dbVersion (blocks.length - 1)) t.forks
  let ideal := t.idealIndex blocks.length
  top = ideal ∨ top < ideal ∧
    votedFrom t { f with versions := windowVotes t blocks } blocks.length t.forks.length 0 =
      some ideal

theorem ideal_eq_index_init_iff {blocks : List BlockHeader} (hw : 0 < t.windowSize)
    (hne : blocks ≠ []) :
    t.idealIndex blocks.length = (f.init t blocks).currentForkIndex ↔
      SelectedByVotes t f blocks := by
  rw [index_init hw hne, SelectedByVotes]
  cases hvoted : votedFrom t { f with versions := windowVotes t blocks } blocks.length
      t.forks.length 0 with
  | none =>
    rw [Option.getD_none, Nat.max_self]
    constructor
    · exact fun h => .inl h.symm
    · rintro (h | h)
      · exact h.symm
      · cases h.2
  | some n =>
    have hle : n ≤ t.idealIndex blocks.length := by
      obtain ⟨hn, hreached⟩ := votedFrom_some hvoted (Nat.le_refl _)
      exact Schedule.le_idealIndex hn hreached
    rw [Option.getD_some, Option.some_inj]
    omega

end HardFork

/-- The object with its counters. -/
structure HardForkObject where
  fork : HardFork
  lastVersions : UInt8 → UInt32

namespace HardForkObject

variable (t : Schedule) (o : HardForkObject)

def window : VoteWindow := ⟨o.fork.versions, o.lastVersions⟩

/-- `init`: the counters are cleared, and count the votes that are read. -/
def init (blocks : List BlockHeader) : HardForkObject :=
  ⟨o.fork.init t blocks, (VoteWindow.scan (o.fork.init t blocks).versions).lastVersions⟩

/-- `on_block_popped(nblocks)`. -/
def onBlocksPopped (newChainHeight nblocks : Nat) : Option HardForkObject :=
  (o.fork.onBlocksPopped t newChainHeight nblocks).map fun f =>
    ⟨f, (o.window.shift o.fork.dbVersion newChainHeight nblocks).lastVersions⟩

/-- `add`. -/
def add (b : BlockHeader) (height : Nat) : HardForkObject :=
  if o.fork.check t b then
    ⟨o.fork.add t b height,
      (o.window.addVote t.windowSize (effectiveVote t b)).lastVersions⟩
  else o

/-- The window holds the votes of the last blocks, and the counters their numbers. -/
structure InStep (blocks : List BlockHeader) : Prop where
  versions : o.fork.versions = windowVotes t blocks
  counted : o.window.Counted

variable {t o} {blocks : List BlockHeader}

theorem inStep_init (hw : 0 < t.windowSize) : (o.init t blocks).InStep t blocks :=
  ⟨versions_init hw blocks, by
    obtain ⟨hv, hc⟩ := VoteWindow.counted_scan (o.fork.init t blocks).versions
    intro v
    have hcount := hc v
    rw [hv] at hcount
    exact hcount⟩

/-- Adding block after block leaves the window and the counters that `init` finds. -/
theorem InStep.add (hw : 0 < t.windowSize) (h : o.InStep t blocks) {b : BlockHeader}
    (hb : o.fork.check t b = true) (height : Nat) :
    (o.add t b height).InStep t (blocks ++ [b]) := by
  obtain ⟨hv, hc⟩ := VoteWindow.counted_addVote h.counted t.windowSize
    (effectiveVote t b)
  have hadd : (o.add t b height).fork.versions = (o.window.addVote t.windowSize
      (effectiveVote t b)).versions := by
    rw [hv, HardForkObject.add, if_pos hb, HardFork.add, if_pos hb]
    rfl
  refine ⟨?_, ?_⟩
  · rw [hadd, hv, window, h.versions, length_windowVotes, windowVotes,
      windowVotes, length_append, length_singleton, ← map_drop,
      drop_drop, drop_append_of_le_length (by omega), map_append]
    have hpos : blocks.length - t.windowSize + (min blocks.length t.windowSize + 1 - t.windowSize) =
        blocks.length + 1 - t.windowSize := by omega
    rw [hpos]
    rfl
  · intro v
    have hcount := hc v
    rw [window, hadd, ← hcount, HardForkObject.add, if_pos hb]

/-- **When popping leaves what restoring from the shorter chain gives**: the window is full, the
versions stored for the popped heights repeat the votes one window below them, and the fork of the
height is in force by the votes too. -/
theorem popped_eq_init_iff (t : Schedule) (hw : 0 < t.windowSize) (kept popped : List BlockHeader)
    (hkept : kept ≠ []) (hpopped : popped ≠ []) (o : HardForkObject)
    (ho : o.InStep t (kept ++ popped)) :
    ∃ o', o.onBlocksPopped t kept.length popped.length = some o' ∧
      (o'.fork.versions = (o.init t kept).fork.versions ∧
          o'.lastVersions = (o.init t kept).lastVersions ∧
          o'.fork.currentForkIndex = (o.init t kept).fork.currentForkIndex ↔
        t.windowSize ≤ kept.length ∧
          (∀ i b, i < popped.length → i < t.windowSize →
            kept[kept.length - t.windowSize + i]? = some b →
            o.fork.dbVersion (kept.length + i) = effectiveVote t b) ∧
          HardFork.SelectedByVotes t o.fork kept) := by
  have hk : ¬ (popped.length = 0 ∨ kept.length = 0) := by
    rw [length_eq_zero_iff, length_eq_zero_iff]
    exact not_or.mpr ⟨hpopped, hkept⟩
  have hinit : (o.init t kept).InStep t kept := inStep_init hw
  obtain ⟨hshift, hcounted⟩ := VoteWindow.counted_shift ho.counted o.fork.dbVersion kept.length
    popped.length
  have hwindow := shiftVotes_eq_windowVotes_iff o.fork.dbVersion kept hw hpopped
  have hindex := ideal_eq_index_init_iff (f := o.fork) hw hkept
  rw [onBlocksPopped, HardFork.onBlocksPopped, if_neg hk]
  refine ⟨_, rfl, ?_⟩
  rw [ho.versions, hinit.versions, ← and_assoc, ← and_assoc, ← hwindow, ← hindex]
  refine and_congr ⟨fun h => h.1, fun h => ⟨h, ?_⟩⟩ Iff.rfl
  -- equal windows have equal counters
  funext v
  have hbefore : o.window.versions = windowVotes t (kept ++ popped) := ho.versions
  have hafter : (o.init t kept).window.versions = windowVotes t kept := hinit.versions
  have hv := hcounted v
  rw [hshift, hbefore, h, ← hafter] at hv
  exact hv.trans (hinit.counted v).symm

/-- The schedule of the main network with a window of one vote. -/
def sampleSchedule : Schedule := { mainnetHardForks with windowSize := 1 }

/-- An object whose database keeps the version 1 for all heights but the third. -/
def sampleObject : HardForkObject := ⟨{ dbVersion := fun h => if h = 2 then 2 else 1 }, fun _ => 0⟩

/-- A block popped from a chain of two, with a window of one vote. -/
theorem popped_eq_init_iff_two :
    ∃ o', (sampleObject.init sampleSchedule [sampleHeader 1,
        sampleHeader 1]).onBlocksPopped sampleSchedule 1 1 = some o' ∧
      o'.fork.versions = [1] ∧ o'.fork.currentForkIndex = 0 := by
  obtain ⟨o', hpop, hiff⟩ := popped_eq_init_iff sampleSchedule (by decide)
    [sampleHeader 1] [sampleHeader 1] (by decide) (by decide)
    (sampleObject.init sampleSchedule [sampleHeader 1, sampleHeader 1])
    (inStep_init (by decide))
  have hvotes : ∀ i b, i < 1 → i < sampleSchedule.windowSize →
      [sampleHeader 1][1 - sampleSchedule.windowSize + i]? = some b →
      (sampleObject.init sampleSchedule [sampleHeader 1,
        sampleHeader 1]).fork.dbVersion (1 + i) =
        effectiveVote sampleSchedule b := by
    intro i b hi _ hb
    rw [Nat.lt_one_iff.mp hi] at hb ⊢
    cases hb
    decide
  obtain ⟨hversions, -, hindex⟩ := hiff.mpr ⟨by decide, hvotes, .inl (by decide)⟩
  exact ⟨o', hpop, hversions.trans (by decide), hindex.trans (by decide)⟩

/-- **A popped block leaves a wrong window**: on the main network the window of a chain with the
versions 1, 1 and 2 keeps three votes when the last block is popped, and gets the version of the
popped height in front. -/
theorem popped_window_differs :
    ∃ o o' : HardForkObject,
      o.InStep mainnetHardForks ([sampleHeader 1, sampleHeader 1] ++
        [sampleHeader 2]) ∧
      o.onBlocksPopped mainnetHardForks 2 1 = some o' ∧ o'.fork.versions = [2, 1, 1] ∧
      (o.init mainnetHardForks [sampleHeader 1, sampleHeader 1]).fork.versions =
        [1, 1] := by
  exact ⟨sampleObject.init mainnetHardForks _, _, inStep_init (by decide), rfl, by decide,
    by decide⟩

end HardForkObject

end Hashmonkey.Core
