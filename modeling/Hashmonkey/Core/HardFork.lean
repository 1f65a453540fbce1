import Mathlib.Data.List.GetD
import Mathlib.Order.Nat
import Hashmonkey.Basic.Transaction

/-!
# Hard forks (`cryptonote_basic/hardfork.cpp`)

`HardFork` decides which version a block must have. A fork is voted in by the blocks of a window,
at or above its height; with a threshold of zero, as in all tables of `hardforks.cpp`, the height
decides alone.

* `Schedule`: the table `heights` with what `add_fork` checks of it, the original version and the
  size of the window. `Schedule.Unvoted` is what the tables add to that: thresholds of zero, and the
  original version first;
* `HardFork`: the vote window, the index in force, and the versions that the database keeps by
  height. The counters `last_versions` are the numbers of votes in the window;
* `add`, `onBlockPopped`, `reorganizeFromChainHeight`: the operations on the blocks of the chain,
  which are given from the genesis block on.

Results: for such a table the votes do not matter (`getVotedForkIndex_eq`), and the index in force
at a height is `Schedule.idealIndex`, whatever was popped and added (`InForce.add`,
`InForce.onBlockPopped`, `InForce.reorganize`).
-/

namespace Hashmonkey.Core

open Basic List

/-- `hardfork_t`. The time is only read for warnings. -/
structure HardForkEntry where
  version : UInt8
  height : Nat
  threshold : Nat
  deriving DecidableEq

/-- The table `heights`, as `add_fork` builds it, with the other parameters of a `HardFork`. -/
structure Schedule where
  forks : List HardForkEntry
  nonempty : forks ≠ []
  versions_increase : forks.Pairwise fun f g => f.version < g.version
  heights_increase : forks.Pairwise fun f g => f.height < g.height
  threshold_le : ∀ f ∈ forks, f.threshold ≤ 100
  originalVersion : UInt8 := 1
  /-- `DEFAULT_WINDOW_SIZE` -/
  windowSize : Nat := 10080

/-- `HardFork`. -/
structure HardFork where
  /-- the votes of the last blocks, oldest first -/
  versions : List UInt8 := []
  currentForkIndex : Nat := 0
  /-- `db.get_hard_fork_version` -/
  dbVersion : Nat → UInt8 := fun _ => 0

/-- `get_block_vote`. -/
def getBlockVote (b : BlockHeader) : UInt8 :=
  if b.minorVersion = 0 then 1 else b.minorVersion

namespace Schedule

variable (t : Schedule)

/-- `heights[n].version`; an index in force is always inside the table. -/
def version (n : Nat) : UInt8 := (t.forks.getD n ⟨1, 0, 0⟩).version

/-- `heights[n].height`. -/
def height (n : Nat) : Nat := (t.forks.getD n ⟨1, 0, 0⟩).height

/-- The search from the entry `n` down to the second for one whose height is reached. -/
def idealFrom (height : Nat) : Nat → Nat
  | 0 => 0
  | n + 1 => if t.height (n + 1) ≤ height then n + 1 else idealFrom height n

/-- The last fork whose height is reached, or the first. -/
def idealIndex (height : Nat) : Nat := t.idealFrom height (t.forks.length - 1)

/-- `get_ideal_version(height)`. -/
def getIdealVersion (height : Nat) : UInt8 :=
  if t.idealIndex height = 0 then t.originalVersion else t.version (t.idealIndex height)

/-- `get_effective_version`. -/
def getEffectiveVersion (vote : UInt8) : UInt8 :=
  let maxVersion := t.version (t.forks.length - 1)
  if vote > maxVersion then maxVersion else vote

end Schedule

namespace HardFork

variable (t : Schedule) (f : HardFork)

/-- The votes that a fork needs, from the size of the window in 64 bits, kept in 32. -/
def neededVotes (e : HardForkEntry) : Nat :=
  (t.windowSize * e.threshold + 99) % 2 ^ 64 / 100 % 2 ^ 32

/-- The loop of `get_voted_fork_index` from entry `n - 1` down, with the votes counted so far, in 32
bits. -/
def votedFrom (height : Nat) : Nat → Nat → Option Nat
  | 0, _ => none
  | n + 1, votes =>
    let e := t.forks.getD n ⟨1, 0, 0⟩
    let votes := (votes + f.versions.count e.version) % 2 ^ 32
    if height ≥ e.height ∧ votes ≥ neededVotes t e then some n else votedFrom height n votes

/-- `get_voted_fork_index`. -/
def getVotedForkIndex (height : Nat) : Nat :=
  (f.votedFrom t height t.forks.length 0).getD f.currentForkIndex

/-- `get_current_version`. -/
def getCurrentVersion : UInt8 := t.version f.currentForkIndex

/-- `do_check` for the fork with index `n`. -/
def doCheck (n : Nat) (b : BlockHeader) : Bool :=
  b.majorVersion = t.version n ∧ getBlockVote b ≥ t.version n

/-- `check`. -/
def check (b : BlockHeader) : Bool := doCheck t f.currentForkIndex b

/-- `check_for_height`. -/
def checkForHeight (b : BlockHeader) (height : Nat) : Bool :=
  doCheck t (f.getVotedForkIndex t height) b

/-- The vote window after one more vote. -/
def pushVote (vote : UInt8) : List UInt8 :=
  f.versions.drop (f.versions.length + 1 - t.windowSize) ++ [t.getEffectiveVersion vote]

/-- `if (voted > current_fork_index) current_fork_index = voted`. -/
def raise (height : Nat) : HardFork :=
  { f with currentForkIndex := max f.currentForkIndex (f.getVotedForkIndex t height) }

/-- `add`, for a block that becomes the one with the given height. -/
def add (b : BlockHeader) (height : Nat) : HardFork :=
  if f.check t b then
    raise t
      { f with
        versions := f.pushVote t (getBlockVote b)
        dbVersion := Function.update f.dbVersion height (f.getCurrentVersion t) }
      (height + 1)
  else f

/-- `on_block_popped(1)`, when the chain has the given height again. -/
def onBlockPopped (newChainHeight : Nat) : HardFork :=
  { f with
    versions := f.dbVersion newChainHeight :: f.versions.dropLast
    currentForkIndex := t.idealIndex newChainHeight }

/-- `while (current_fork_index > 0 && heights[current_fork_index].version > start_version)`. -/
def lowerFrom (startVersion : UInt8) : Nat → Nat
  | 0 => 0
  | n + 1 => if t.version (n + 1) > startVersion then lowerFrom startVersion n else n + 1

/-- `add` for the blocks of the chain from the given height on. -/
def addAll : HardFork → Nat → List BlockHeader → HardFork
  | f, _, [] => f
  | f, height, b :: bs => addAll (f.add t b height) (height + 1) bs

/-- `reorganize_from_block_height`, on the chain with the given blocks from the genesis block on. -/
def reorganizeFromBlockHeight (blocks : List BlockHeader) (height : Nat) : HardFork :=
  if height ≥ blocks.length then f
  else
    let startVersion := if height = 0 then t.originalVersion else f.dbVersion height
    let scanned := (blocks.take (height + 1)).drop (height - (t.windowSize - 1))
    let f := raise t
      { f with
        versions := scanned.map fun b => t.getEffectiveVersion (getBlockVote b)
        currentForkIndex := lowerFrom t startVersion f.currentForkIndex }
      (height + 1)
    addAll t f (height + 1) (blocks.drop (height + 1))

/-- `reorganize_from_chain_height`. -/
def reorganizeFromChainHeight (blocks : List BlockHeader) (height : Nat) : HardFork :=
  if height = 0 then f else f.reorganizeFromBlockHeight t blocks (height - 1)

end HardFork

/-! ## Forks by height -/

namespace Schedule

/-- Nobody votes, and the first fork has the original version. -/
structure Unvoted (t : Schedule) : Prop where
  threshold_zero : ∀ f ∈ t.forks, f.threshold = 0
  first_version : t.version 0 = t.originalVersion

variable {t : Schedule}

theorem length_pos (t : Schedule) : 0 < t.forks.length :=
  length_pos_iff.mpr t.nonempty

theorem height_lt {m n : Nat} (hmn : m < n) (hn : n < t.forks.length) :
    t.height m < t.height n := by
  have hm : m < t.forks.length := hmn.trans hn
  rw [height, height, getD_eq_getElem _ _ hm, getD_eq_getElem _ _ hn]
  exact pairwise_iff_getElem.mp t.heights_increase m n hm hn hmn

theorem version_lt {m n : Nat} (hmn : m < n) (hn : n < t.forks.length) :
    t.version m < t.version n := by
  have hm : m < t.forks.length := hmn.trans hn
  rw [version, version, getD_eq_getElem _ _ hm, getD_eq_getElem _ _ hn]
  exact pairwise_iff_getElem.mp t.versions_increase m n hm hn hmn

theorem idealFrom_le (h n : Nat) : t.idealFrom h n ≤ n := by
  induction n with
  | zero => exact Nat.le_refl 0
  | succ n ih =>
    rw [idealFrom]
    split
    · exact Nat.le_refl _
    · exact ih.trans (Nat.le_succ n)

theorem idealIndex_lt (h : Nat) : t.idealIndex h < t.forks.length := by
  have hle : t.idealIndex h ≤ t.forks.length - 1 := idealFrom_le ..
  have := t.length_pos
  omega

theorem idealFrom_mono {h h' : Nat} (hh : h ≤ h') (n : Nat) :
    t.idealFrom h n ≤ t.idealFrom h' n := by
  induction n with
  | zero => exact Nat.le_refl 0
  | succ n ih =>
    rw [idealFrom, idealFrom]
    by_cases hn : t.height (n + 1) ≤ h
    · rw [if_pos hn, if_pos (hn.trans hh)]
    rw [if_neg hn]
    split
    · exact (idealFrom_le h n).trans (Nat.le_succ n)
    · exact ih

theorem idealIndex_mono {h h' : Nat} (hh : h ≤ h') : t.idealIndex h ≤ t.idealIndex h' :=
  idealFrom_mono hh _

theorem idealIndex_eq_zero {h : Nat} (hlater : ∀ n, 0 < n → n < t.forks.length → h < t.height n) :
    t.idealIndex h = 0 := by
  have key : ∀ n, n < t.forks.length → t.idealFrom h n = 0 := by
    intro n hn
    induction n with
    | zero => rfl
    | succ n ih =>
      rw [idealFrom, if_neg (Nat.not_le.mpr (hlater _ (Nat.succ_pos n) hn))]
      exact ih (Nat.lt_of_succ_lt hn)
  exact key _ (Nat.sub_lt t.length_pos Nat.one_pos)

/-- No fork but the first is in force for the genesis block. -/
theorem idealIndex_zero : t.idealIndex 0 = 0 :=
  idealIndex_eq_zero fun _ hpos hn => Nat.zero_lt_of_lt (height_lt hpos hn)

/-- Below the height of the first fork, the first fork is in force. -/
theorem idealIndex_of_lt {h : Nat} (hh : h < t.height 0) : t.idealIndex h = 0 :=
  idealIndex_eq_zero fun _ hpos hn => hh.trans (height_lt hpos hn)

theorem Unvoted.getIdealVersion_eq (ht : t.Unvoted) (h : Nat) :
    t.getIdealVersion h = t.version (t.idealIndex h) := by
  rw [getIdealVersion]
  split
  · rename_i h0
    rw [h0, ht.first_version]
  · rfl

end Schedule

namespace HardFork

variable {t : Schedule} {f : HardFork}

variable {n : Nat}

theorem votedFrom_eq (ht : t.Unvoted) (height : Nat) (hn : n < t.forks.length) (votes : Nat) :
    f.votedFrom t height (n + 1) votes =
      if t.height 0 ≤ height then some (t.idealFrom height n) else none := by
  have hzero : ∀ m, m < t.forks.length → neededVotes t (t.forks.getD m ⟨1, 0, 0⟩) = 0 := by
    intro m hm
    have hnone := ht.threshold_zero _ (getElem_mem hm)
    rw [getD_eq_getElem _ _ hm]
    simp [neededVotes, hnone]
  induction n generalizing votes with
  | zero =>
    rw [votedFrom, hzero 0 hn]
    by_cases hle : t.height 0 ≤ height
    · rw [if_pos hle]
      exact if_pos ⟨hle, Nat.zero_le _⟩
    rw [if_neg hle]
    exact if_neg fun hc => hle hc.1
  | succ n ih =>
    rw [votedFrom, Schedule.idealFrom, hzero _ hn]
    by_cases hle : t.height (n + 1) ≤ height
    · have hfirst : t.height 0 ≤ height :=
        (Nat.le_of_lt (Schedule.height_lt (Nat.succ_pos n) hn)).trans hle
      rw [if_pos hle, if_pos hfirst]
      exact if_pos ⟨hle, Nat.zero_le _⟩
    · rw [if_neg hle, if_neg fun hc => hle hc.1]
      exact ih (Nat.lt_of_succ_lt hn) _

/-- **With thresholds of zero the votes do not matter**, from any state where the index in force is
the one of a height up to the given one. -/
theorem getVotedForkIndex_eq (ht : t.Unvoted) {height : Nat}
    (h : f.currentForkIndex = t.idealIndex n) (hle : n ≤ height) :
    f.getVotedForkIndex t height = t.idealIndex height := by
  have hlen : t.forks.length - 1 + 1 = t.forks.length := Nat.sub_add_cancel t.length_pos
  rw [getVotedForkIndex, ← hlen, votedFrom_eq ht _ (Nat.sub_lt t.length_pos Nat.one_pos)]
  by_cases hfirst : t.height 0 ≤ height
  · rw [if_pos hfirst]
    rfl
  have hlt : height < t.height 0 := Nat.not_le.mp hfirst
  rw [if_neg hfirst, Option.getD_none, h, Schedule.idealIndex_of_lt hlt,
    Schedule.idealIndex_of_lt (Nat.lt_of_le_of_lt hle hlt)]

/-- The fork in force on a chain with `n` blocks, and the versions kept for its blocks. -/
structure InForce (t : Schedule) (f : HardFork) (n : Nat) : Prop where
  index : f.currentForkIndex = t.idealIndex n
  stored : ∀ h, h < n → f.dbVersion h = t.version (t.idealIndex h)

/-- The blocks of a chain, from the genesis block on, have the versions of their heights. -/
def Conforms (t : Schedule) (blocks : List BlockHeader) : Prop :=
  ∀ h b, blocks[h]? = some b → doCheck t (t.idealIndex h) b = true

variable {blocks : List BlockHeader}

theorem Conforms.concat {b : BlockHeader} (h : Conforms t blocks)
    (hb : doCheck t (t.idealIndex blocks.length) b = true) : Conforms t (blocks ++ [b]) := by
  intro k b' hk
  rcases Nat.lt_or_ge k blocks.length with hlt | hge
  · rw [List.getElem?_append_left hlt] at hk
    exact h k b' hk
  rw [getElem?_append_right hge, getElem?_singleton] at hk
  split at hk
  · cases hk
    rwa [Nat.le_antisymm (Nat.le_of_sub_eq_zero ‹_›) hge]
  · cases hk

theorem Conforms.of_append {blocks' : List BlockHeader}
    (h : Conforms t (blocks ++ blocks')) : Conforms t blocks := by
  intro k b hk
  have hlt : k < blocks.length := (List.getElem?_eq_some_iff.mp hk).1
  exact h k b (by rwa [List.getElem?_append_left hlt])

theorem InForce.getCurrentVersion_eq (ht : t.Unvoted) (h : InForce t f n) :
    f.getCurrentVersion t = t.getIdealVersion n := by
  rw [getCurrentVersion, h.index, ht.getIdealVersion_eq]

theorem inForce_init : InForce t {} 0 :=
  ⟨Schedule.idealIndex_zero.symm, fun _ h => absurd h (Nat.not_lt_zero _)⟩

theorem raise_index (ht : t.Unvoted) (h : f.currentForkIndex = t.idealIndex n) :
    (f.raise t (n + 1)).currentForkIndex = t.idealIndex (n + 1) := by
  rw [raise, getVotedForkIndex_eq ht h (Nat.le_succ n), h]
  exact Nat.max_eq_right (Schedule.idealIndex_mono (Nat.le_succ n))

theorem InForce.add (ht : t.Unvoted) (h : InForce t f n) {b : BlockHeader}
    (hb : f.check t b = true) : InForce t (f.add t b n) (n + 1) := by
  rw [HardFork.add, if_pos hb]
  refine ⟨raise_index ht h.index, fun k hk => ?_⟩
  rw [raise]
  dsimp only
  by_cases hkn : k = n
  · rw [hkn, Function.update_self, getCurrentVersion, h.index]
  rw [Function.update_of_ne hkn]
  exact h.stored k (by omega)

theorem InForce.onBlockPopped (h : InForce t f (n + 1)) : InForce t (f.onBlockPopped t n) n :=
  ⟨rfl, fun k hk => h.stored k (Nat.lt_succ_of_lt hk)⟩

theorem lowerFrom_eq {m : Nat} (hmn : m ≤ n) (hn : n < t.forks.length) :
    lowerFrom t (t.version m) n = m := by
  induction n with
  | zero => rw [Nat.le_zero.mp hmn, lowerFrom]
  | succ n ih =>
    rw [lowerFrom]
    rcases Nat.eq_or_lt_of_le hmn with rfl | hlt
    · exact if_neg (UInt8.lt_irrefl _)
    rw [if_pos (Schedule.version_lt hlt hn)]
    exact ih (Nat.le_of_lt_succ hlt) (Nat.lt_of_succ_lt hn)

theorem InForce.addAll (ht : t.Unvoted) {bs : List BlockHeader} (h : InForce t f n)
    (hbs : ∀ k b, bs[k]? = some b → doCheck t (t.idealIndex (n + k)) b = true) :
    InForce t (addAll t f n bs) (n + bs.length) := by
  induction bs generalizing f n with
  | nil => exact h
  | cons b bs ih =>
    have hb : f.check t b = true := by
      rw [check, h.index]
      exact hbs 0 b rfl
    have := ih (h.add ht hb) fun k b' hk => by
      rw [Nat.add_assoc, Nat.add_comm 1]
      exact hbs (k + 1) b' hk
    rwa [Nat.add_assoc, Nat.add_comm 1] at this

/-- **Reorganising from a height finds the fork in force again.** -/
theorem InForce.reorganizeFromBlockHeight (ht : t.Unvoted) (h : InForce t f blocks.length)
    (hc : Conforms t blocks) (k : Nat) :
    InForce t (f.reorganizeFromBlockHeight t blocks k) blocks.length := by
  unfold HardFork.reorganizeFromBlockHeight
  split
  · exact h
  rename_i hge
  have hle : k + 1 ≤ blocks.length := Nat.not_le.mp hge
  have hstart : (if k = 0 then t.originalVersion else f.dbVersion k) =
      t.version (t.idealIndex k) := by
    split
    · rename_i h0
      rw [h0, Schedule.idealIndex_zero, ht.first_version]
    · exact h.stored k hle
  dsimp only
  rw [hstart, h.index, lowerFrom_eq (Schedule.idealIndex_mono (Nat.le_of_succ_le hle))
    (Schedule.idealIndex_lt _)]
  have hraised : InForce t (raise t
      { f with
        versions := ((blocks.take (k + 1)).drop (k - (t.windowSize - 1))).map
          fun b => t.getEffectiveVersion (getBlockVote b)
        currentForkIndex := t.idealIndex k } (k + 1)) (k + 1) :=
    ⟨raise_index ht rfl, fun j hj => h.stored j (Nat.lt_of_lt_of_le hj hle)⟩
  have hlater : ∀ j b, (blocks.drop (k + 1))[j]? = some b →
      doCheck t (t.idealIndex (k + 1 + j)) b = true := fun j b hj => by
    rw [getElem?_drop] at hj
    exact hc _ b hj
  have hall := hraised.addAll ht hlater
  rwa [length_drop, Nat.add_sub_cancel' hle] at hall

theorem InForce.reorganizeFromChainHeight (ht : t.Unvoted) (h : InForce t f blocks.length)
    (hc : Conforms t blocks) (height : Nat) :
    InForce t (f.reorganizeFromChainHeight t blocks height) blocks.length := by
  unfold HardFork.reorganizeFromChainHeight
  split
  · exact h
  · exact h.reorganizeFromBlockHeight ht hc (height - 1)

end HardFork

/-- `mainnet_hard_forks`: one fork at each of the first sixteen heights. -/
def mainnetHardForks : Schedule where
  forks := (List.range 16).map fun n => ⟨UInt8.ofNat (n + 1), n + 1, 0⟩
  nonempty := by decide
  versions_increase := by decide
  heights_increase := by decide
  threshold_le := by decide

theorem mainnetHardForks_unvoted : mainnetHardForks.Unvoted :=
  ⟨by decide, by decide⟩

end Hashmonkey.Core
