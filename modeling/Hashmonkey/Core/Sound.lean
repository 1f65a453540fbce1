import Hashmonkey.Core.Recorded

/-!
# The invariant of a node (`blockchain.cpp`)

`DifficultySound` holds in every state of a node. The main chain and the table of alternative blocks
record the cumulative difficulties of paths, with sums of 128 bits that wrap; the forks in force are
those of the height of the chain, and the caches of the difficulty are right. Every step of a node
keeps it (`DifficultySound.step`).

`Sound` adds that no sum has wrapped: the work of the main chain and that of every alternative block
fit in 128 bits, so what is recorded with a block is the work of its path (`Sound.top_work`,
`BlockPath`). This is what the choice between chains relies on. A block that gets into the table
keeps it if its own sum does not wrap (`Sound.filed`).
-/

namespace Hashmonkey.Core

open Basic Lib List StoredBlock

variable {P : Type} {n : Node P} {K : Set Block} {X : Set (Hash × Transaction)}
  {s s' : Blockchain P}

/-! ## Forks -/

/-- The forks in force are those of the height, and the blocks conform to the schedule. -/
structure ForksSound (n : Node P) (s : Blockchain P) : Prop where
  forks : HardFork.InForce n.schedule s.hardFork s.height
  conforms : HardFork.Conforms n.schedule (s.chain.reverse.map fun e => e.bl.toBlockHeader)

namespace ForksSound

theorem congr (h : ForksSound n s) (hchain : s'.chain = s.chain)
    (hfork : s'.hardFork = s.hardFork) : ForksSound n s' := by
  refine ⟨?_, hchain ▸ h.conforms⟩
  rw [hfork, Blockchain.height, hchain]
  exact h.forks

theorem added (h : ForksSound n s) {b : Block} {r : BlockReport} (hadd : Added n s b s' r) :
    ForksSound n s' := by
  obtain ⟨e, hchain, rfl, -⟩ := hadd.chain
  have hheight : s'.height = s.height + 1 := by
    rw [Blockchain.height, hchain]
    rfl
  refine ⟨?_, ?_⟩
  · rw [hadd.hardFork, hheight]
    exact h.forks.add n.forks_unvoted hadd.version
  · rw [hchain, reverse_cons, map_append, map_singleton]
    refine h.conforms.concat ?_
    rw [length_map, length_reverse]
    exact h.forks.index ▸ hadd.version

theorem popped (h : ForksSound n s) {e : StoredBlock} (hpop : Popped n s e s') :
    ForksSound n s' := by
  obtain ⟨hforks, hconforms⟩ := h
  rw [hpop.chain, reverse_cons, map_append] at hconforms
  rw [Blockchain.height, hpop.chain, length_cons] at hforks
  refine ⟨?_, hconforms.of_append⟩
  rw [hpop.hardFork]
  exact hforks.onBlockPopped

theorem reorganizeForks (h : ForksSound n s) (height : Nat) :
    ForksSound n (s.reorganizeForks n height) := by
  have hlen : (s.chain.reverse.map fun e => e.bl.toBlockHeader).length = s.height := by
    rw [length_map, length_reverse]
    rfl
  have hforks := h.forks
  rw [← hlen] at hforks
  have hre := hforks.reorganizeFromChainHeight n.forks_unvoted h.conforms height
  rw [hlen] at hre
  exact ⟨hre, h.conforms⟩

end ForksSound

/-! ## What is recorded -/

/-- The invariant of a node that has seen blocks of `K` only. -/
structure DifficultySound (n : Node P) (K : Set Block) (s : Blockchain P) : Prop where
  recorded : Recorded n K cumulativeDifficulty BlockExtendedInfo.cumulativeDifficulty
    (recordedDifficulty n) s
  forks : ForksSound n s
  cache : s.difficultyCache.Valid n K s.chain

/-- The entries of blocks of any kind, above those of a path, when the number in an entry is that of
the path up to it. -/
theorem recordedEntries_above {α : Type} {f : α → Block} {d : α → Nat} {l : List α} {b : List Block}
    (h : ∀ upper x lower, l = upper ++ x :: lower →
      d x = recordedDifficulty n (f x :: (lower.map f ++ b))) :
    l.map (fun x => ((f x).timestamp, d x)) ++ recordedEntries n (timestampsOf b) =
      recordedEntries n (timestampsOf (l.map f ++ b)) := by
  induction l with
  | nil => rfl
  | cons x l ih =>
    have hlower := ih fun upper y lower hsplit => h (x :: upper) y lower (by rw [hsplit]; rfl)
    rw [map_cons, cons_append, h [] x l rfl, hlower]
    rfl

theorem entries_of_recorded {chain : List StoredBlock}
    (h : ∀ upper e lower, chain = upper ++ e :: lower →
      e.cumulativeDifficulty = recordedDifficulty n (e.bl :: lower.map bl)) :
    chain.map entry = recordedEntries n (timestampsOf (chain.map bl)) := by
  have habove := recordedEntries_above (n := n) (f := bl) (d := cumulativeDifficulty) (b := [])
    fun upper e lower hsplit => by
      rw [append_nil]
      exact h upper e lower hsplit
  rwa [append_nil, timestampsOf, map_nil, recordedEntries, append_nil] at habove

theorem DifficultySound.fresh (h : Fresh s) : DifficultySound n K s := by
  refine ⟨Recorded.fresh h, ⟨?_, ?_⟩, ?_⟩
  · rw [h.hardFork, Blockchain.height, h.chain]
    exact HardFork.inForce_init
  · rw [h.chain]
    intro i b hb
    cases hb
  · rw [h.difficultyCache, h.chain]
    exact DifficultyCache.valid_init

namespace DifficultySound

variable (h : DifficultySound n K s)

include h

theorem entries : s.chain.map entry = recordedEntries n (timestampsOf s.blocks) :=
  entries_of_recorded h.recorded.stored

theorem topCumulativeDifficulty_eq :
    s.topCumulativeDifficulty = recordedDifficulty n s.blocks := by
  have hstored := h.recorded.stored
  rw [Blockchain.topCumulativeDifficulty, Blockchain.blocks]
  cases hc : s.chain with
  | nil => rfl
  | cons e rest => exact hstored [] e rest hc

theorem hfVersion : s.hfVersion n = n.schedule.getIdealVersion s.height :=
  h.forks.forks.getCurrentVersion_eq n.forks_unvoted

/-- **The difficulty of the next block** is the one required by the timestamps and cumulative
difficulties of the chain, and asking for it keeps the caches right. -/
theorem difficulty (hK : CollisionFree n K) :
    (s.getDifficultyForNextBlock n).1 = requiredDifficulty n (s.chain.map entry) ∧
      (s.getDifficultyForNextBlock n).2.Valid n K s.chain :=
  h.cache.next hK h.recorded.path h.entries h.hfVersion

/-! ## The steps of a node -/

theorem popped {e : StoredBlock} (hpop : Popped n s e s') : DifficultySound n K s' :=
  ⟨h.recorded.popped hpop, h.forks.popped hpop, hpop.difficultyCache ▸ h.cache.invalidate _⟩

variable (hK : CollisionFree n K)

include hK

theorem added {b : Block} {r : BlockReport} (hb : b ∈ K) (hadd : Added n s b s' r) :
    DifficultySound n K s' := by
  obtain ⟨hdiff, hvalid⟩ := h.difficulty hK
  obtain ⟨e, hchain, rfl, hcum, -⟩ := hadd.chain
  have hrecorded := h.recorded.added hadd hb fun e' he' => by
    cases (List.cons.inj (hchain.symm.trans he')).1
    rw [hcum, hadd.difficulty, hdiff, h.topCumulativeDifficulty_eq, h.entries]
    rfl
  have hforks := h.forks.added hadd
  refine ⟨hrecorded, hforks, ?_⟩
  rw [hadd.difficultyCache]
  exact (DifficultyCache.Valid.next hK ⟨hvalid.known, hchain ▸ hvalid.window.extend e⟩
    hrecorded.path (entries_of_recorded hrecorded.stored)
    (hforks.forks.getCurrentVersion_eq n.forks_unvoted)).2

/-- **The difficulty on an alternative chain** is the one required along the path that it ends, and
what is recorded with its last block is the cumulative difficulty of the path. -/
theorem altDifficulty {prevId : Hash} {altChain : List BlockExtendedInfo}
    {timestamps : List UInt64}
    (hbuild : buildAltChain n s prevId = some (altChain, timestamps)) :
    ∃ stop base path, AltBase n s prevId altChain stop ∧
      path = altChain.reverse.map BlockExtendedInfo.bl ++ base ∧ Path n K path prevId ∧
      path.length = altChain.length + stop ∧ (parentData n s altChain prevId).1 + 1 = path.length ∧
      (parentData n s altChain prevId).2.1 = recordedDifficulty n path ∧
      getNextDifficultyForAlternativeChain n s altChain path.length =
        requiredDifficulty n (recordedEntries n (timestampsOf path)) := by
  obtain ⟨stop, hbase⟩ := buildAltChain_some h.recorded.altFiled hbuild
  obtain ⟨path, rfl, hpath, hlen, hheight, hparent, hvalues⟩ :=
    h.recorded.altBase hK
      (fun _ _ _ hp hp' => congrArg (topWeight ∘ recordedEntries n) (hp.unique hK hp'))
      (fun d => d.2.1) (fun _ _ => rfl) (fun _ => rfl) hbase
  have hlower := @entries_of_recorded P n (s.chain.drop (s.height - stop)) <| by
    intro upper e lower hsplit
    refine h.recorded.stored (s.chain.take (s.height - stop) ++ upper) e lower ?_
    rw [append_assoc, ← hsplit, take_append_drop]
  refine ⟨stop, _, _, hbase, rfl, hpath, hlen, hheight, hparent, ?_⟩
  rw [hbase.difficulty hlen.symm, ← map_reverse, hlower]
  exact congrArg (requiredDifficulty n) (recordedEntries_above hvalues)

theorem filed {b : Block} {a : AltBlock} (hb : b ∈ K) (hst : AltStored n s b s' a) :
    DifficultySound n K s' := by
  obtain ⟨timestamps, hbuild⟩ := hst.build
  obtain ⟨-, -, path, -, -, hpath, -, hheight, hparent, hdiff⟩ := h.altDifficulty hK hbuild
  have hlen : path.length = a.bei.height := hheight.symm.trans hst.height.symm
  have hrecorded := h.recorded.file hst (hpath.cons hb) hlen <| by
    rw [hst.cumulativeDifficulty, hst.prevCumulativeDifficulty, hst.currentDiff, ← hlen, hparent,
      hdiff, addDifficulty, Nat.add_comm]
    rfl
  exact ⟨hrecorded, h.forks.congr hst.kept.chain hst.kept.hardFork,
    hst.kept.difficultyCache ▸ h.cache.invalidate _⟩

/-- The step lemma. -/
theorem step (hstep : NodeStep n K X s s') : DifficultySound n K s' := by
  cases hstep with
  | add hb _ hadd => exact h.added hK hb (handleBlockToMainChain_ok hadd)
  | pop hpop => exact h.popped hpop
  | forks height => exact ⟨h.recorded.congr rfl rfl, h.forks.reorganizeForks height, h.cache⟩
  | file hb hst => exact h.filed hK hb hst
  | unfile p => exact ⟨h.recorded.unfile p, h.forks.congr rfl rfl, h.cache⟩
  | reset => exact ⟨h.recorded.congr rfl rfl, h.forks.congr rfl rfl, h.cache.invalidate _⟩
  | query => exact ⟨h.recorded.congr rfl rfl, h.forks.congr rfl rfl, (h.difficulty hK).2⟩
  | cleanup => exact ⟨h.recorded.congr rfl rfl, h.forks.congr rfl rfl, cleanup_valid h.cache⟩
  | other hchain halt hfork hcache =>
    exact ⟨h.recorded.congr hchain halt, h.forks.congr hchain hfork, hcache ▸ hchain ▸ h.cache⟩

theorem steps (hsteps : NodeSteps n K X s s') : DifficultySound n K s' := by
  induction hsteps with
  | refl => exact h
  | tail _ hone ih => exact ih.step hK hone

end DifficultySound

theorem NodeRun.difficultySound (hK : CollisionFree n K) (h : NodeRun n K X s) :
    DifficultySound n K s :=
  h.invariant (fun _ => DifficultySound.fresh) fun _ _ hstep hs => hs.step hK hstep

/-! ## Sums that do not wrap -/

/-- The block ends a path of the given height and work. -/
def BlockPath (n : Node P) (K : Set Block) (b : Block) (height work : Nat) : Prop :=
  ∃ path, Path n K (b :: path) (n.getBlockHash b) ∧ path.length = height ∧
    workOf n (b :: path) = work ∧ work < 2 ^ 128

variable {b : Block} {height work : Nat}

theorem BlockPath.known (h : BlockPath n K b height work) : b ∈ K := by
  obtain ⟨path, hpath, -⟩ := h
  exact hpath.known b mem_cons_self

/-- Blocks with the same id end paths of the same height and work. -/
theorem BlockPath.unique (hK : CollisionFree n K) (h : BlockPath n K b height work)
    {path : List Block} (hpath : Path n K path (n.getBlockHash b)) :
    path.length = height + 1 ∧ workOf n path = work ∧ work < 2 ^ 128 := by
  obtain ⟨path', hpath', rfl, rfl, hlt⟩ := h
  refine ⟨hpath.length_eq hK hpath', ?_, hlt⟩
  rw [workOf, workOf, hpath.unique hK hpath']

/-- What is noted with a block of the table is the height and the work of its path. -/
theorem DifficultySound.noted (h : DifficultySound n K s) (hK : CollisionFree n K)
    {x : Hash × BlockExtendedInfo} (hx : x ∈ s.altBlocks)
    (hb : BlockPath n K x.2.bl height work) :
    x.2.height = height ∧ x.2.cumulativeDifficulty = work := by
  obtain ⟨hid, -, path, hpath, hlen, hcum⟩ := h.recorded.filed x hx
  obtain ⟨hheight, rfl, hlt⟩ := hb.unique hK (hid ▸ hpath)
  exact ⟨hlen.symm.trans (Nat.succ.inj hheight),
    hcum.trans (congrArg topWeight (recordedEntries_eq_annotate n hlt))⟩

/-- The invariant of a node in which no sum of difficulties has wrapped. -/
structure Sound (n : Node P) (K : Set Block) (s : Blockchain P) : Prop
    extends DifficultySound n K s where
  fits : workOf n s.blocks < 2 ^ 128
  alt : ∀ x ∈ s.altBlocks, BlockPath n K x.2.bl x.2.height x.2.cumulativeDifficulty

namespace Sound

variable (h : Sound n K s)

include h

theorem annotated_eq : s.chain.map entry = annotated n s.blocks :=
  h.entries.trans (recordedEntries_eq_annotate n h.fits)

/-- The cumulative difficulty of the top block is the work of the main chain. -/
theorem top_work : s.topCumulativeDifficulty = workOf n s.blocks :=
  h.topCumulativeDifficulty_eq.trans (congrArg topWeight (recordedEntries_eq_annotate n h.fits))

/-- A block of the main chain ends the path below it, with no more work than the tip. -/
theorem blockPath_of_split {upper lower : List StoredBlock} {e : StoredBlock}
    (hsplit : s.chain = upper ++ e :: lower) :
    BlockPath n K e.bl lower.length e.cumulativeDifficulty ∧
      e.cumulativeDifficulty ≤ s.topCumulativeDifficulty := by
  have hle : workOf n (e.bl :: lower.map bl) ≤ workOf n s.blocks := by
    rw [Blockchain.blocks, hsplit, map_append, workOf, workOf, timestampsOf, timestampsOf,
      map_append]
    exact weight_append_le _ _ _
  have hfits := hle.trans_lt h.fits
  have hcum : e.cumulativeDifficulty = workOf n (e.bl :: lower.map bl) :=
    (h.recorded.stored upper e lower hsplit).trans
      (congrArg topWeight (recordedEntries_eq_annotate n hfits))
  have hpath := h.recorded.path
  rw [Blockchain.blocks, hsplit] at hpath
  rw [h.top_work, hcum]
  exact ⟨⟨lower.map bl, hpath.lower, length_map _, rfl, hfits⟩, hle⟩

variable (hK : CollisionFree n K)

include hK

/-- Steps that leave the main chain as it is and put nothing into the table. -/
theorem steps (hsteps : NodeSteps n K X s s') (hblocks : s'.blocks = s.blocks)
    (halt : s'.altBlocks ⊆ s.altBlocks) : Sound n K s' :=
  ⟨h.toDifficultySound.steps hK hsteps, hblocks ▸ h.fits, fun x hx => h.alt x (halt hx)⟩

/-- The path that an alternative block extends has not wrapped. -/
theorem parent_fits {prevId : Hash} {altChain : List BlockExtendedInfo} {stop : Nat}
    (hbase : AltBase n s prevId altChain stop) {path : List Block} (hpath : Path n K path prevId) :
    workOf n path < 2 ^ 128 := by
  obtain ⟨b, height, work, hb, rfl⟩ : ∃ b height work, BlockPath n K b height work ∧
      n.getBlockHash b = prevId := by
    have hlinked := hbase.linked
    rcases hbase.parentData_cases with ⟨prev, older, holder, -⟩ | ⟨rfl, e, below, hbelow, -⟩
    · have hmem : prev ∈ altChain := by
        rw [← mem_reverse, holder]
        exact mem_cons_self
      rw [holder] at hlinked
      exact ⟨_, _, _, h.alt _ (hbase.filed prev hmem), hlinked.1⟩
    · have hsplit : s.chain = s.chain.take (s.height - stop) ++ e :: below := by
        rw [← hbelow, take_append_drop]
      rw [hbelow] at hlinked
      exact ⟨_, _, _, (h.blockPath_of_split hsplit).1, hlinked.symm⟩
  obtain ⟨-, rfl, hlt⟩ := hb.unique hK hpath
  exact hlt

variable {a : AltBlock}

/-- A block that gets into the table ends a path with the height and the work that are noted with
it, if its sum does not wrap. -/
theorem blockPath_of_stored (hst : AltStored n s b s' a) (hb : b ∈ K)
    (hfits : a.prevCumulativeDifficulty + a.currentDiff < 2 ^ 128) :
    BlockPath n K b a.bei.height a.bei.cumulativeDifficulty := by
  obtain ⟨timestamps, hbuild⟩ := hst.build
  obtain ⟨stop, -, path, hbase, -, hpath, -, hheight, hparent, hdiff⟩ := h.altDifficulty hK hbuild
  have hlen : path.length = a.bei.height := hheight.symm.trans hst.height.symm
  have hexact := recordedEntries_eq_annotate n (h.parent_fits hK hbase hpath)
  have hwork : workOf n (b :: path) = a.prevCumulativeDifficulty + a.currentDiff := by
    rw [hst.prevCumulativeDifficulty, hst.currentDiff, hparent, ← hlen, hdiff, recordedDifficulty,
      hexact]
    rfl
  rw [hst.cumulativeDifficulty, addDifficulty, Nat.mod_eq_of_lt hfits, ← hwork]
  exact ⟨path, hpath.cons hb, hlen, rfl, hwork ▸ hfits⟩

theorem filed (hst : AltStored n s b s' a)
    (hb : BlockPath n K b a.bei.height a.bei.cumulativeDifficulty) : Sound n K s' := by
  refine ⟨h.toDifficultySound.filed hK hb.known hst, ?_, ?_⟩
  · rw [Blockchain.blocks, hst.kept.chain]
    exact h.fits
  · rw [hst.altBlocks]
    exact forall_mem_cons.mpr ⟨hst.bl.symm ▸ hb, h.alt⟩

end Sound

end Hashmonkey.Core
