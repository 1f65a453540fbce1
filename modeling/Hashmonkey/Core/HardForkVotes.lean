import Hashmonkey.Core.HardFork
import Mathlib.Data.List.Nodup

/-!
# Votes for versions that are not scheduled (`cryptonote_basic/hardfork.cpp`)

`HardFork::get_voted_fork_index` counts a vote for a later fork as a vote for the earlier ones: it
adds up `last_versions` from the last fork down. It adds only the versions in the table, where
`get_voting_info` adds all versions from the given one on. A vote between two scheduled versions is
lost to the fork below.

* `listedVotes`, `votingInfoVotes`: the two ways to count;
* `HighestOr`: the highest fork whose height is reached and that meets a condition, or the one in
  force. The loop finds it for the listed votes (`votedFrom_spec`).

Result: **`voted_index_iff`**, the index is the highest one whose votes, as `get_voting_info` counts
them, are enough, exactly when no fork has enough votes in one way of counting only;
`enoughListed_iff`: without votes in gaps there is none. `gap_votes_lost` are two votes in a gap.
-/

namespace Hashmonkey.Core.HardFork

open List

variable (t : Schedule) (versions : List UInt8)

/-- `votes` of `get_voting_info`. -/
def votingInfoVotes (version : UInt8) : ℕ :=
  ((List.range' version.toNat (256 - version.toNat)).map fun n =>
    versions.count (UInt8.ofNat n)).sum % 2 ^ 32

/-- The votes for the fork `n` and the later ones in the table, in 32 bits. -/
def listedVotes (n : ℕ) : ℕ :=
  ((t.forks.drop n).map fun e => versions.count e.version).sum % 2 ^ 32

/-- The fork `n` has `ceil(window_size * threshold / 100)` votes in `get_voting_info`. -/
def EnoughVotes (n : ℕ) : Prop :=
  (t.windowSize * (t.forks.getD n ⟨1, 0, 0⟩).threshold + 99) / 100 ≤
    votingInfoVotes versions (t.version n)

/-- The fork `n` has enough listed votes for its threshold in 32 bits. -/
def EnoughListed (n : ℕ) : Prop :=
  neededVotes t (t.forks.getD n ⟨1, 0, 0⟩) ≤ listedVotes t versions n

/-- `r` is the highest fork below `n` whose height is reached and that meets a condition. -/
def HighestBelow (enough : ℕ → Prop) (h n r : ℕ) : Prop :=
  r < n ∧ t.height r ≤ h ∧ enough r ∧ ∀ m, r < m → m < n → ¬ (t.height m ≤ h ∧ enough m)

/-- The highest fork that meets a condition, or `current` if there is none. -/
def HighestOr (enough : ℕ → Prop) (h current r : ℕ) : Prop :=
  HighestBelow t enough h t.forks.length r ∨
    ((∀ m < t.forks.length, ¬ (t.height m ≤ h ∧ enough m)) ∧ r = current)

variable {t versions}

/-- The loop finds the highest fork with enough listed votes. -/
theorem votedFrom_spec {f : HardFork} (h : ℕ) {n : ℕ} (hn : n ≤ t.forks.length) :
    match f.votedFrom t h n (listedVotes t f.versions n) with
    | some r => HighestBelow t (EnoughListed t f.versions) h n r
    | none => ∀ m < n, ¬ (t.height m ≤ h ∧ EnoughListed t f.versions m) := by
  induction n with
  | zero => exact fun m hm => absurd hm (Nat.not_lt_zero m)
  | succ n ih =>
    have hget : t.forks.getD n ⟨1, 0, 0⟩ = t.forks.get ⟨n, hn⟩ := List.getD_eq_getElem _ _ hn
    have hvotes : (listedVotes t f.versions (n + 1) +
        f.versions.count (t.forks.getD n ⟨1, 0, 0⟩).version) % 2 ^ 32 =
          listedVotes t f.versions n := by
      have hdrop : t.forks.drop n = t.forks.get ⟨n, hn⟩ :: t.forks.drop (n + 1) :=
        List.drop_eq_getElem_cons hn
      rw [listedVotes, listedVotes, Nat.mod_add_mod, hdrop, List.map_cons, List.sum_cons, hget,
        Nat.add_comm]
    unfold votedFrom
    dsimp only
    rw [hvotes]
    split_ifs with hpass
    · exact ⟨Nat.lt_succ_self n, hpass.1, hpass.2, fun m hlt hle => by omega⟩
    have hrest := ih (Nat.le_of_succ_le hn)
    cases hres : f.votedFrom t h n (listedVotes t f.versions n) with
    | none =>
      rw [hres] at hrest
      exact Nat.forall_lt_succ_right.mpr ⟨hrest, hpass⟩
    | some r =>
      rw [hres] at hrest
      obtain ⟨hlt, hheight, henough, habove⟩ := hrest
      refine ⟨Nat.lt_succ_of_lt hlt, hheight, henough, fun m hr hm => ?_⟩
      exact Nat.forall_lt_succ_right.mpr ⟨fun m hm hr => habove m hr hm, fun _ => hpass⟩ m hm hr

theorem getVotedForkIndex_spec (f : HardFork) (h : ℕ) :
    HighestOr t (EnoughListed t f.versions) h f.currentForkIndex (f.getVotedForkIndex t h) := by
  have hspec := votedFrom_spec (f := f) h t.forks.length.le_refl
  have hzero : listedVotes t f.versions t.forks.length = 0 := by simp [listedVotes]
  rw [hzero] at hspec
  unfold getVotedForkIndex
  cases hres : f.votedFrom t h t.forks.length 0 with
  | none =>
    rw [hres] at hspec
    exact Or.inr ⟨hspec, rfl⟩
  | some r =>
    rw [hres] at hspec
    exact Or.inl hspec

theorem HighestOr.unique {enough : ℕ → Prop} {h current r r' : ℕ}
    (hr : HighestOr t enough h current r) (hr' : HighestOr t enough h current r') : r = r' := by
  rcases hr with hr | ⟨hnone, rfl⟩
  · rcases hr' with hr' | ⟨hnone, -⟩
    · rcases Nat.lt_trichotomy r r' with hlt | heq | hgt
      · exact absurd ⟨hr'.2.1, hr'.2.2.1⟩ (hr.2.2.2 r' hlt hr'.1)
      · exact heq
      · exact absurd ⟨hr.2.1, hr.2.2.1⟩ (hr'.2.2.2 r hgt hr.1)
    · exact absurd ⟨hr.2.1, hr.2.2.1⟩ (hnone r hr.1)
  · rcases hr' with hr' | ⟨-, rfl⟩
    · exact absurd ⟨hr'.2.1, hr'.2.2.1⟩ (hnone r' hr'.1)
    · rfl

/-- At the height of a fork, the fork is the highest one if it has enough votes, and it is not if
it has not. -/
theorem highestOr_at {enough : ℕ → Prop} {n r : ℕ} (hn : n < t.forks.length)
    (hr : HighestOr t enough (t.height n) (n + 1) r) : r = n ↔ enough n := by
  constructor
  · rintro rfl
    rcases hr with hr | ⟨-, hcur⟩
    · exact hr.2.2.1
    · omega
  · intro henough
    refine hr.unique (Or.inl ⟨hn, le_rfl, henough, fun m hlt hm hreach => ?_⟩)
    exact absurd hreach.1 (Nat.not_le.mpr (Schedule.height_lt hlt hm))

/-! ## Both ways of counting -/

/-- Counting one list in the other is symmetric. -/
theorem sum_count_comm (l l' : List UInt8) :
    (l.map fun a => l'.count a).sum = (l'.map fun a => l.count a).sum := by
  induction l' with
  | nil => simp
  | cons x l' ih =>
    rw [map_cons, sum_cons, ← ih]
    clear ih
    induction l with
    | nil => rfl
    | cons a l ih =>
      rw [map_cons, sum_cons, ih, map_cons, sum_cons, count_cons, count_cons, BEq.comm]
      omega

/-- A vote counts once from its version on. -/
theorem count_range (version v : UInt8) :
    ((range' version.toNat (256 - version.toNat)).map UInt8.ofNat).count v =
      if version ≤ v then 1 else 0 := by
  have hlt := v.toNat_lt
  have hmem : ∀ a ∈ range' version.toNat (256 - version.toNat), (UInt8.ofNat a).toNat = a := by
    intro a ha
    rw [mem_range'_1] at ha
    rw [UInt8.toNat_ofNat', Nat.mod_eq_of_lt (by omega)]
  have hnodup : ((range' version.toNat (256 - version.toNat)).map UInt8.ofNat).Nodup := by
    refine Nodup.map_on (fun a ha b hb hab => ?_) nodup_range'
    rw [← hmem a ha, hab, hmem b hb]
  rw [hnodup.count]
  refine if_congr (mem_map.trans ⟨?_, fun h => ⟨v.toNat, ?_, UInt8.ofNat_toNat⟩⟩) rfl rfl
  · rintro ⟨a, ha, rfl⟩
    rw [UInt8.le_iff_toNat_le, hmem a ha]
    exact (mem_range'_1.mp ha).1
  · exact mem_range'_1.mpr ⟨UInt8.le_iff_toNat_le.mp h, by omega⟩

/-- **Without votes in gaps both ways of counting agree**: the window is of fewer than `2^32` votes,
and those for the version of the fork or more are for it or a later one in the table. -/
theorem enoughListed_iff (hsize : t.windowSize < 2 ^ 32) {n : ℕ} (hn : n < t.forks.length)
    (hvotes : ∀ v ∈ versions, t.version n ≤ v → v ∈ (t.forks.drop n).map fun e => e.version) :
    EnoughListed t versions n ↔ EnoughVotes t versions n := by
  have hget : t.forks.getD n ⟨1, 0, 0⟩ = t.forks[n] := List.getD_eq_getElem _ _ hn
  have hneeded : neededVotes t t.forks[n] = (t.windowSize * t.forks[n].threshold + 99) / 100 := by
    have hmul := Nat.mul_le_mul_left t.windowSize (t.threshold_le _ (getElem_mem hn))
    rw [neededVotes, Nat.mod_eq_of_lt (by omega), Nat.mod_eq_of_lt (by omega)]
  have hincrease := t.versions_increase.sublist (drop_sublist n _)
  have hnodup : ((t.forks.drop n).map fun e => e.version).Nodup :=
    pairwise_map.mpr (hincrease.imp UInt8.ne_of_lt)
  have hcount : ∀ v ∈ versions, ((t.forks.drop n).map fun e => e.version).count v =
      ((range' (t.version n).toNat (256 - (t.version n).toNat)).map UInt8.ofNat).count v := by
    intro v hv
    rw [count_range, hnodup.count]
    refine if_congr ⟨fun hmem => ?_, hvotes v hv⟩ rfl rfl
    obtain ⟨e, he, rfl⟩ := mem_map.mp hmem
    rw [drop_eq_getElem_cons hn] at he hincrease
    rw [Schedule.version, hget]
    rcases mem_cons.mp he with rfl | he
    · exact UInt8.le_refl _
    · exact UInt8.le_of_lt (rel_of_pairwise_cons hincrease he)
  have hall := sum_count_comm ((range' (t.version n).toNat (256 - (t.version n).toNat)).map
    UInt8.ofNat) versions
  have hlisted := sum_count_comm ((t.forks.drop n).map fun e => e.version) versions
  rw [map_congr_left hcount, ← hall, map_map, map_map] at hlisted
  have hsum : listedVotes t versions n = votingInfoVotes versions (t.version n) :=
    congrArg (· % 2 ^ 32) hlisted
  rw [EnoughListed, EnoughVotes, hget, hneeded, hsum]

/-- **`get_voted_fork_index` follows the votes of `get_voting_info`**, whatever the height and the
index in force, exactly when every fork has enough of these votes iff it has enough listed votes. -/
theorem voted_index_iff (t : Schedule) (versions : List UInt8) :
    (∀ (f : HardFork) (h : ℕ), f.versions = versions →
      HighestOr t (EnoughVotes t versions) h f.currentForkIndex (f.getVotedForkIndex t h)) ↔
    ∀ n < t.forks.length, EnoughListed t versions n ↔ EnoughVotes t versions n := by
  constructor
  · intro hlaw n hn
    have hcode := getVotedForkIndex_spec (t := t) ⟨versions, n + 1, fun _ => 0⟩ (t.height n)
    have hspec := hlaw ⟨versions, n + 1, fun _ => 0⟩ (t.height n) rfl
    exact (highestOr_at hn hcode).symm.trans (highestOr_at hn hspec)
  · rintro hsame f h rfl
    rcases getVotedForkIndex_spec f h with hr | ⟨hnone, hcur⟩
    · refine Or.inl ⟨hr.1, hr.2.1, (hsame _ hr.1).mp hr.2.2.1, fun m hlt hm hreach => ?_⟩
      exact hr.2.2.2 m hlt hm ⟨hreach.1, (hsame m hm).mpr hreach.2⟩
    refine Or.inr ⟨fun m hm hreach => ?_, hcur⟩
    exact hnone m hm ⟨hreach.1, (hsame m hm).mpr hreach.2⟩

/-- The versions 1, 2 and 5, the last two with all votes of a window of two. -/
def gapSchedule : Schedule where
  forks := [⟨1, 0, 0⟩, ⟨2, 1, 100⟩, ⟨5, 9, 100⟩]
  nonempty := by decide
  versions_increase := by decide
  heights_increase := by decide
  threshold_le := by decide
  windowSize := 2

/-- Two blocks of version 1 that vote for version 3. -/
def gapVotes : HardFork :=
  addAll gapSchedule {} 0 [⟨1, 3, 0, nullHash, 0⟩, ⟨1, 3, 0, nullHash, 0⟩]

/-- Two votes for version 3 are enough for version 2 in `get_voting_info`, and none in
`get_voted_fork_index`. -/
theorem gap_votes_lost :
    gapVotes.versions = [3, 3] ∧ gapVotes.getVotedForkIndex gapSchedule 1 = 0 ∧
      votingInfoVotes gapVotes.versions (gapSchedule.version 1) = 2 ∧
      ¬ HighestOr gapSchedule (EnoughVotes gapSchedule gapVotes.versions) 1
        gapVotes.currentForkIndex (gapVotes.getVotedForkIndex gapSchedule 1) := by
  have hzero : gapVotes.getVotedForkIndex gapSchedule 1 = 0 := by decide
  have hvotes : votingInfoVotes gapVotes.versions (gapSchedule.version 1) = 2 := by decide +kernel
  have hreach : gapSchedule.height 1 ≤ 1 ∧ EnoughVotes gapSchedule gapVotes.versions 1 :=
    ⟨by decide, le_trans (by decide : (2 * 100 + 99) / 100 ≤ 2) hvotes.ge⟩
  refine ⟨by decide, hzero, hvotes, ?_⟩
  rintro (hr | ⟨hnone, -⟩)
  · exact hr.2.2.2 1 (by decide) (by decide) hreach
  · exact hnone 1 (by decide) hreach

end Hashmonkey.Core.HardFork
