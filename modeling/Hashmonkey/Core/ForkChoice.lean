import Hashmonkey.Core.Sound

/-!
# The choice between chains (`blockchain.cpp`)

`add_new_block` over whole runs: blocks of any kind come in, and the node extends its main chain,
files alternative blocks, switches to a chain with more work, or fails to.

* `Reaches`: the states of a node, from an empty database on. A step submits a block, or is
  `cleanup_handle_incoming_blocks`, or asks for the difficulty of the next block, or changes what
  the choice does not depend on (the pool, the clock, the tables of
  `prepare_handle_incoming_blocks`);
* `Submission`: what is asked of a submitted block. Cumulative difficulties stay below `2 ^ 128`,
  and no checkpoint lies in the range that the block reorganises.

Results: every call returns, with at most two switches nested, and **the work of the tip never
decreases; it grows whenever the main chain is replaced** (`tip_work_mono`). Without the first
condition it can decrease (`tip_work_wraps`). What a node has noted is exact (`reached_exact`).
-/

namespace Hashmonkey.Core

open Basic Lib List Blockchain Relation

variable {P : Type} {n : Node P} {K : Set Block} {s s' : Blockchain P}

/-! ## A switch -/

variable {b : Block}

/-- The blocks that a switch takes off the main chain. -/
theorem Sound.popped_blockPath (h : Sound n K s) {s1 : Blockchain P} {popped : List StoredBlock}
    (hpops : Pops n s.invalidateDifficulty popped s1)
    (hb : b ∈ (popped.map StoredBlock.bl).reverse) :
    ∃ height work, BlockPath n K b height work ∧ s1.height ≤ height ∧ height < s.height ∧
      work ≤ s.topCumulativeDifficulty := by
  obtain ⟨e, he, rfl⟩ := mem_map.mp (mem_reverse.mp hb)
  obtain ⟨upper, lower, rfl⟩ := append_of_mem he
  have hsplit : s.chain = upper ++ e :: (lower ++ s1.chain) := by
    have hc : s.chain = (upper ++ e :: lower) ++ s1.chain := hpops.chain
    rw [hc, append_assoc, cons_append]
  obtain ⟨hpath, hwork⟩ := h.blockPath_of_split hsplit
  have hlen := congrArg List.length hsplit
  rw [length_append, length_cons] at hlen
  refine ⟨_, _, hpath, ?_, ?_, hwork⟩
  · rw [length_append]
    exact Nat.le_add_left _ _
  · rw [height]
    omega

section Switch

variable (hK : CollisionFree n K) (h : Sound n K s)

include hK h

/-- The part of the main chain that ends in an existing block is as long as its path. -/
theorem Sound.length_upTo {height work : Nat}
    (hb : BlockPath n K b height work) (hparent : s.blockExists n b.prevId = true) :
    (s.upTo n b.prevId).length = height := by
  obtain ⟨htop, -⟩ := topId_upTo hparent
  obtain ⟨path, hpath, hlen, -⟩ := hb
  have hlower := h.recorded.path_drop (s.height - (s.upTo n b.prevId).length)
  rw [← upTo_eq_drop, htop] at hlower
  have heq := hlower.length_eq hK hpath.tail.2
  rwa [length_map, hlen] at heq

/-- A switch that connected all its blocks is on a chain with the work of the last one. -/
theorem Sound.connected {s1 s2 : Blockchain P} {popped : List StoredBlock}
    {beis : List BlockExtendedInfo} {last : BlockExtendedInfo} {height work : Nat}
    (hpops : Pops n s.invalidateDifficulty popped s1)
    (hadds : Adds n (s1.updateNextCumulativeWeightLimit n) (beis.map fun bei => bei.bl) s2)
    (hbeis : ∀ bei ∈ beis, bei.bl ∈ K) (hlast : beis.getLast? = some last)
    (hb : BlockPath n K last.bl height work) :
    Sound n K s2 ∧ s2.topCumulativeDifficulty = work := by
  have hlow : NodeSteps n K ∅ s (s1.updateNextCumulativeWeightLimit n) :=
    (ReflTransGen.head (.reset s) hpops.steps).tail (.other rfl rfl rfl rfl)
  have hs2 := h.toDifficultySound.steps hK (hlow.trans (hadds.steps (forall_mem_map.mpr hbeis)))
  have hid : n.getBlockHash last.bl = s2.topBlockHash n := by
    obtain ⟨older, rfl⟩ := getLast?_eq_some_iff.mp hlast
    have hpath := hs2.recorded.path
    rw [hadds.blocks, map_append, reverse_append] at hpath
    exact hpath.tail.1
  obtain ⟨-, hwork, hlt⟩ := hb.unique hK (hid ▸ hs2.recorded.path)
  have halt : s2.altBlocks = s.altBlocks := hadds.altBlocks.trans hpops.altBlocks
  have hsound : Sound n K s2 := ⟨hs2, hwork ▸ hlt, halt ▸ h.alt⟩
  exact ⟨hsound, hsound.top_work.trans hwork⟩

/-- A block goes to the table, or is refused, and nothing else happens. -/
structure Filed (n : Node P) (K : Set Block) (s s' : Blockchain P) : Prop where
  sound : Sound n K s'
  chain : s'.chain = s.chain
  panics : s'.panics = s.panics
  subset : s.altBlocks ⊆ s'.altBlocks

/-- A block that comes off the main chain goes back to the table. It has no more work than the new
tip and is no checkpoint, so it starts no switch of its own. -/
theorem handleAlternativeBlock_files
    {height work : Nat} (hb : BlockPath n K b height work)
    (hwork : work ≤ s.topCumulativeDifficulty) (hcp : n.checkpoints.lookup height = none)
    (fuel : Nat) :
    ∃ s' r, handleAlternativeBlock n (fuel + 1) s b [] = some (s', r) ∧ Filed n K s s' := by
  rw [handleAlternativeBlock]
  split
  · rename_i s1 e hacc
    obtain ⟨hkept, halt⟩ := acceptAlternative_error hacc
    refine ⟨s1, _, rfl, ?_, hkept.chain, hkept.panics, halt ▸ Subset.refl _⟩
    exact h.steps (X := ∅) hK (hkept.steps halt) (congrArg (map _) hkept.chain)
      (halt ▸ Subset.refl _)
  rename_i s1 a hacc
  have hst := acceptAlternative_stored hacc
  have hmem : (n.getBlockHash b, a.bei) ∈ s1.altBlocks := hst.altBlocks ▸ mem_cons_self
  -- the work that is noted is that of the path the block had on the main chain
  obtain ⟨hheight, hcum⟩ := (h.toDifficultySound.filed hK hb.known hst).noted hK hmem
    (hst.bl.symm ▸ hb)
  have hnocp : ¬ a.isACheckpoint = true := by
    rw [hst.checkpoint, hheight, hcp]
    exact Bool.false_ne_true
  have htop : s1.topCumulativeDifficulty = s.topCumulativeDifficulty := by
    rw [topCumulativeDifficulty, hst.kept.chain]
    rfl
  rw [if_neg hnocp, if_neg (by rw [hcum, htop]; exact Nat.not_lt.mpr hwork)]
  refine ⟨s1, true, rfl, h.filed hK hst (hheight.symm ▸ hcum.symm ▸ hb), hst.kept.chain,
    hst.kept.panics, ?_⟩
  rw [hst.altBlocks]
  exact subset_cons_self _ _

theorem pushDisconnected_files {bs : List Block}
    (hbs : ∀ b ∈ bs, ∃ height work, BlockPath n K b height work ∧
      work ≤ s.topCumulativeDifficulty ∧ n.checkpoints.lookup height = none) (fuel : Nat) :
    ∃ s', pushDisconnected (fun s b => handleAlternativeBlock n (fuel + 1) s b []) bs s = some s' ∧
      Filed n K s s' := by
  induction bs generalizing s with
  | nil => exact ⟨s, rfl, h, rfl, rfl, fun _ hx => hx⟩
  | cons b bs ih =>
    rw [forall_mem_cons] at hbs
    obtain ⟨⟨height, work, hb, hwork, hcp⟩, hbs⟩ := hbs
    obtain ⟨s1, r, hone, hfiled⟩ := handleAlternativeBlock_files hK h hb hwork hcp fuel
    have htop : s1.topCumulativeDifficulty = s.topCumulativeDifficulty := by
      rw [topCumulativeDifficulty, hfiled.chain]
      rfl
    obtain ⟨s', hrest, hfiled'⟩ := ih hfiled.sound (htop ▸ hbs)
    refine ⟨s', ?_, hfiled'.sound, hfiled'.chain.trans hfiled.chain,
      hfiled'.panics.trans hfiled.panics, fun x hx => hfiled'.subset (hfiled.subset hx)⟩
    rw [pushDisconnected, hone]
    exact hrest

/-- The end of a switch that connected all its blocks. -/
theorem Sound.finishSwitch
    {altChain : List BlockExtendedInfo} {disconnected : List Block} {splitHeight : Nat}
    (hdisc : ∀ b ∈ disconnected, ∃ height work, BlockPath n K b height work ∧
      work ≤ s.topCumulativeDifficulty ∧ n.checkpoints.lookup height = none)
    (hnodup : (altIds n altChain).Nodup)
    (hfiled : ∀ bei ∈ altChain, (n.getBlockHash bei.bl, bei) ∈ s.altBlocks)
    (fuel : Nat) :
    ∃ s', finishSwitch n (fun s b => handleAlternativeBlock n (fuel + 1) s b []) altChain false
        disconnected splitHeight s = some (s', true) ∧
      Sound n K s' ∧ s'.chain = s.chain := by
  obtain ⟨s1, hpush, hfiled1⟩ := pushDisconnected_files hK h hdisc fuel
  obtain ⟨s2, hrem⟩ := exists_removeAltBlocks (s := s1) hnodup fun bei hbei =>
    hfiled1.subset (hfiled bei hbei)
  have hs2 := removeAltBlocks_some hrem
  refine ⟨s2.reorganizeForks n splitHeight, ?_, ?_, ?_⟩
  · rw [Core.finishSwitch, if_neg Bool.false_ne_true, hpush]
    dsimp only
    rw [hrem]
  · rw [hs2]
    exact hfiled1.sound.steps (X := ∅) hK (.tail (.single (.unfile s1 _)) (.forks _ splitHeight))
      rfl filter_sublist.subset
  · rw [hs2]
    exact hfiled1.chain

end Switch

/-- An alternative chain that a switch can start from: its blocks are in the table, no two share an
id, and its first block has its parent on the main chain. -/
structure Switchable (n : Node P) (s : Blockchain P) (front : BlockExtendedInfo)
    (rest : List BlockExtendedInfo) : Prop where
  filed : ∀ bei ∈ front :: rest, (n.getBlockHash bei.bl, bei) ∈ s.altBlocks
  nodup : (altIds n (front :: rest)).Nodup
  parent : s.blockExists n front.bl.prevId = true

/-- **A switch to a chain with more work** returns. Without a panic it keeps the invariant, and it
ends on the new chain with its work, or on the old one. -/
theorem Sound.switch (hK : CollisionFree n K) (h : Sound n K s) {front last : BlockExtendedInfo}
    {rest : List BlockExtendedInfo} (hsw : Switchable n s front rest)
    (hlast : (front :: rest).getLast? = some last)
    (hmore : s.topCumulativeDifficulty < last.cumulativeDifficulty)
    (hcp : ∀ height, front.height ≤ height → height < s.height →
      n.checkpoints.lookup height = none) (fuel : Nat) :
    ∃ s' r, switchToAlternativeBlockchain n
        (fun s b => handleAlternativeBlock n (fuel + 1) s b []) s (front :: rest) false =
        some (s', r) ∧
      (s'.panics = s.panics → Sound n K s' ∧
        (s'.topCumulativeDifficulty = last.cumulativeDifficulty ∨ s'.blocks = s.blocks)) := by
  have hpath : ∀ bei ∈ front :: rest,
      BlockPath n K bei.bl bei.height bei.cumulativeDifficulty :=
    fun bei hbei => h.alt _ (hsw.filed bei hbei)
  have hknown : ∀ bei ∈ front :: rest, bei.bl ∈ K := fun bei hbei => (hpath bei hbei).known
  have hfrontPos := (h.recorded.altFiled _ (hsw.filed front mem_cons_self)).2
  obtain ⟨popped, s1, hpops, hup, hcases⟩ := switch_cases
    (fun s b => handleAlternativeBlock n (fuel + 1) s b []) rest false hsw.parent
  -- the split is at the height of the first alternative block
  have hsplit : s1.height = front.height := by
    rw [height, hup]
    exact h.length_upTo hK (hpath front mem_cons_self) hsw.parent
  rcases hcases with ⟨s2, hadds, hend⟩ | ⟨good, bad, after, t, s2, e, hgood, hadds, herr, hend⟩
  · -- all blocks are connected
    obtain ⟨hs2, htop⟩ :=
      h.connected hK hpops hadds hknown hlast (hpath last (mem_of_getLast? hlast))
    have hdisc : ∀ b ∈ (popped.map StoredBlock.bl).reverse, ∃ height work,
        BlockPath n K b height work ∧ work ≤ s2.topCumulativeDifficulty ∧
        n.checkpoints.lookup height = none := by
      intro b hb
      obtain ⟨height, work, hbp, hlo, hhi, hle⟩ := h.popped_blockPath hpops hb
      exact ⟨height, work, hbp, htop ▸ hle.trans (Nat.le_of_lt hmore),
        hcp height (hsplit ▸ hlo) hhi⟩
    have halt : s2.altBlocks = s.altBlocks := hadds.altBlocks.trans hpops.altBlocks
    obtain ⟨s', hfinish, hsound, hchain⟩ := hs2.finishSwitch hK hdisc hsw.nodup
      (halt ▸ hsw.filed) fuel
    refine ⟨s', true, hend.trans hfinish, fun _ => ⟨hsound, .inl ?_⟩⟩
    rw [← htop, topCumulativeDifficulty, hchain]
    rfl
  · -- a block is refused
    have hun := handleBlockToMainChain_error herr
    have halt : s2.altBlocks = s.altBlocks :=
      hun.altBlocks.trans (hadds.altBlocks.trans hpops.altBlocks)
    have hle : s1.height ≤ s2.height := hadds.height_le.trans_eq (congrArg length hun.chain.symm)
    have hpos : 0 < s1.height := hsplit.symm ▸ hfrontPos
    have hnodup : (altIds n (bad :: after)).Nodup := by
      have hall := hsw.nodup
      rw [hgood, altIds, map_append] at hall
      exact (nodup_append.mp hall).2.1
    have hfiled : ∀ bei ∈ bad :: after, (n.getBlockHash bei.bl, bei) ∈ s2.altBlocks :=
      fun bei hbei => halt ▸ hsw.filed bei (hgood ▸ mem_append_right good hbei)
    obtain ⟨s', hfail⟩ := exists_failSwitch hpos hle hnodup hfiled
    refine ⟨s', false, hend.trans hfail, fun hagain => ?_⟩
    obtain ⟨hblocks, hless⟩ := failSwitch_restores hpops hadds hun hfail hagain
    have hsteps : NodeSteps n K ∅ s s' := switch_steps
      (fun _ _ _ _ hs hb h => handleAlternativeBlock_steps hs hb h) h.recorded.known hknown
      (hend.trans hfail)
    exact ⟨h.steps hK hsteps hblocks (hless ▸ filter_sublist.subset), .inr hblocks⟩

/-! ## One call -/

/-- The alternative block that `add_new_block` decides on: the one that got into the table. -/
def decidedAlternative (n : Node P) (s : Blockchain P) (b : Block)
    (sup : List (Hash × Transaction)) : Option AltBlock :=
  if s.haveBlock n (n.getBlockHash b) ∨ b.prevId = s.topBlockHash n then none
  else (acceptAlternative n s b sup).2.toOption

/-- What is asked of a block that is submitted: it is one of `K`, neither way to compute its
cumulative difficulty wraps, and if it makes the node switch, there is no checkpoint from the split
to the higher of the two tips. -/
@[mk_iff]
structure Submission (n : Node P) (K : Set Block) (s : Blockchain P) (b : Block)
    (sup : List (Hash × Transaction)) : Prop where
  known : b ∈ K
  fits_main : s.haveBlock n (n.getBlockHash b) = false → b.prevId = s.topBlockHash n →
    s.topCumulativeDifficulty + (s.getDifficultyForNextBlock n).1 < 2 ^ 128
  fits_alt : ∀ a ∈ decidedAlternative n s b sup,
    a.prevCumulativeDifficulty + a.currentDiff < 2 ^ 128
  no_checkpoint : ∀ a ∈ decidedAlternative n s b sup,
    a.isACheckpoint ∨ s.topCumulativeDifficulty < a.bei.cumulativeDifficulty →
    ∀ c ∈ n.checkpoints, ¬ (a.splitHeight ≤ c.1 ∧ c.1 < max s.height (a.bei.height + 1))

instance (known : List Block) (b : Block) (sup : List (Hash × Transaction)) :
    Decidable (Submission n {b | b ∈ known} s b sup) :=
  decidable_of_iff _ (submission_iff n {b | b ∈ known} s b sup).symm

theorem lookup_eq_none {points : List (Nat × Hash)} {height : Nat}
    (h : ∀ c ∈ points, c.1 ≠ height) : points.lookup height = none :=
  lookup_eq_none_iff.mpr fun c hc => bne_iff_ne.mpr (h c hc).symm

/-- The blocks that lead to a block that got into the table are what a switch needs. -/
theorem Sound.switchable (hK : CollisionFree n K) (h : Sound n K s) {a : AltBlock} (hb : b ∈ K)
    (hst : AltStored n s b s' a) {front : BlockExtendedInfo} {rest : List BlockExtendedInfo}
    (hchain : a.altChain ++ [a.bei] = front :: rest) :
    Switchable n s' front rest ∧ front.height = a.splitHeight ∧ a.splitHeight ≤ a.bei.height := by
  obtain ⟨timestamps, hbuild⟩ := hst.build
  obtain ⟨stop, base, path, hbase, hsplit, hpath, hlen, hparent, -⟩ := h.altDifficulty hK hbuild
  have hfront : s.blockExists n front.bl.prevId = true ∧ front.height = a.splitHeight ∧
      a.splitHeight ≤ a.bei.height := by
    rw [AltBlock.splitHeight]
    cases hc : a.altChain with
    | nil =>
      rw [hc, nil_append] at hchain
      cases hchain
      exact ⟨hst.bl ▸ (hbase.of_nil hc).1, rfl, Nat.le_refl _⟩
    | cons first others =>
      rw [hc, cons_append] at hchain
      cases hchain
      obtain ⟨hstop, hexists⟩ := hbase.of_cons _ _ hc
      refine ⟨hexists, rfl, ?_⟩
      rw [head?_cons, Option.getD_some, hst.height]
      omega
  refine ⟨⟨?_, ?_, ?_⟩, hfront.2⟩
  · intro bei hbei
    rw [← hchain, mem_append, mem_singleton] at hbei
    rw [hst.altBlocks]
    rcases hbei with hbei | rfl
    · exact mem_cons_of_mem _ (hbase.filed bei hbei)
    rw [hst.bl]
    exact mem_cons_self
  · -- read backwards, the ids are the upper part of a path
    have hnodup := (hpath.cons hb).nodup hK
    rw [hsplit, ← hst.bl, ← cons_append, map_append] at hnodup
    have hids : altIds n (front :: rest) =
        ((a.bei.bl :: a.altChain.reverse.map BlockExtendedInfo.bl).map n.getBlockHash).reverse := by
      rw [← hchain, altIds]
      simp
    rw [hids]
    exact nodup_reverse.mpr (nodup_append.mp hnodup).1
  · rw [blockExists, hst.kept.upTo]
    exact hfront.1

/-- **An alternative block.** The call returns; without a panic it keeps the invariant, and the main
chain is the same or has more work. -/
theorem Sound.handleAlternative (hK : CollisionFree n K) (h : Sound n K s)
    {sup : List (Hash × Transaction)} (hb : b ∈ K)
    (hfits : ∀ a ∈ (acceptAlternative n s b sup).2.toOption,
      a.prevCumulativeDifficulty + a.currentDiff < 2 ^ 128)
    (hcp : ∀ a ∈ (acceptAlternative n s b sup).2.toOption,
      a.isACheckpoint ∨ s.topCumulativeDifficulty < a.bei.cumulativeDifficulty →
      ∀ c ∈ n.checkpoints, ¬ (a.splitHeight ≤ c.1 ∧ c.1 < max s.height (a.bei.height + 1)))
    (fuel : Nat) :
    ∃ s' r, handleAlternativeBlock n (fuel + 2) s b sup = some (s', r) ∧
      (s'.panics = s.panics → Sound n K s' ∧
        (s.topCumulativeDifficulty < s'.topCumulativeDifficulty ∨ s'.blocks = s.blocks)) := by
  rw [handleAlternativeBlock]
  generalize hacc : acceptAlternative n s b sup = accepted at hfits hcp
  obtain ⟨s1, e | a⟩ := accepted
  · obtain ⟨hkept, halt⟩ := acceptAlternative_error hacc
    have hblocks : s1.blocks = s.blocks := congrArg (map StoredBlock.bl) hkept.chain
    exact ⟨s1, _, rfl, fun _ =>
      ⟨h.steps (X := ∅) hK (hkept.steps halt) hblocks (halt ▸ Subset.refl _), .inr hblocks⟩⟩
  have ha := acceptAlternative_stored hacc
  have hsound := h.filed hK ha (h.blockPath_of_stored hK ha hb (hfits a rfl))
  have hblocks : s1.blocks = s.blocks := congrArg (map StoredBlock.bl) ha.kept.chain
  have hheight : s1.height = s.height := congrArg length ha.kept.chain
  have htop : s1.topCumulativeDifficulty = s.topCumulativeDifficulty := by
    rw [topCumulativeDifficulty, topCumulativeDifficulty, ha.kept.chain]
  obtain ⟨front, rest, hchain⟩ : ∃ front rest, a.altChain ++ [a.bei] = front :: rest :=
    exists_cons_of_ne_nil (append_ne_nil_of_right_ne_nil _ (cons_ne_nil _ _))
  obtain ⟨hsw, hfront, hle⟩ := h.switchable hK hb ha hchain
  have hnotcp : a.isACheckpoint = false := by
    rw [Bool.eq_false_iff]
    intro hset
    have hnone : n.checkpoints.lookup a.bei.height = none := by
      refine lookup_eq_none fun c hc heq => hcp a rfl (.inl hset) c hc ?_
      exact ⟨heq ▸ hle, heq ▸ Nat.le_max_right _ _⟩
    rw [ha.checkpoint, hnone] at hset
    cases hset
  dsimp only
  rw [hnotcp, if_neg Bool.false_ne_true, htop]
  split
  · rename_i hmore
    have hlast : (front :: rest).getLast? = some a.bei := by
      rw [← hchain, getLast?_concat]
    have hfree : ∀ height, front.height ≤ height → height < s1.height →
        n.checkpoints.lookup height = none := fun height hle hlt =>
      lookup_eq_none fun c hc heq => hcp a rfl (.inr hmore) c hc ⟨by omega, by omega⟩
    obtain ⟨s', r, hswitch, hend⟩ := hsound.switch hK hsw hlast (htop ▸ hmore) hfree fuel
    refine ⟨s', r, hchain ▸ hswitch, fun hpanics => ?_⟩
    obtain ⟨hsound', hwork | hsame⟩ := hend (hpanics.trans ha.kept.panics.symm)
    · exact ⟨hsound', .inl (hwork ▸ hmore)⟩
    · exact ⟨hsound', .inr (hsame.trans hblocks)⟩
  · exact ⟨s1, true, rfl, fun _ => ⟨hsound, .inr hblocks⟩⟩

/-- How a call may move the tip: not to less work, and to a chain that does not extend the old one
only with more. -/
def TipMoves (s s' : Blockchain P) : Prop :=
  s.topCumulativeDifficulty ≤ s'.topCumulativeDifficulty ∧
    (¬ s.blocks <:+ s'.blocks → s.topCumulativeDifficulty < s'.topCumulativeDifficulty)

theorem Sound.tipMoves_of_blocks (h : Sound n K s) (h' : Sound n K s')
    (hblocks : s.blocks <:+ s'.blocks) : TipMoves s s' := by
  refine ⟨?_, fun hnot => absurd hblocks hnot⟩
  obtain ⟨upper, hupper⟩ := hblocks
  rw [h.top_work, h'.top_work, ← hupper, workOf, workOf, timestampsOf, timestampsOf, map_append]
  exact weight_append_le _ _ _

/-- **A submitted block.** The call returns; without a panic it keeps the invariant and moves the
tip as it may. -/
theorem Sound.addNewBlock (hK : CollisionFree n K) (h : Sound n K s)
    {sup : List (Hash × Transaction)} (hsub : Submission n K s b sup) (fuel : Nat) :
    ∃ s' r, addNewBlock n (fuel + 2) s b sup = some (s', r) ∧
      (s'.panics = s.panics → Sound n K s' ∧ TipMoves s s') := by
  unfold Core.addNewBlock
  split
  · exact ⟨s, false, rfl, fun _ => ⟨h, h.tipMoves_of_blocks h (suffix_refl _)⟩⟩
  rename_i hnew
  split
  · rename_i hprev
    have hdecided : decidedAlternative n s b sup = (acceptAlternative n s b sup).2.toOption :=
      if_neg (not_or.mpr ⟨hnew, hprev⟩)
    obtain ⟨s', r, hrun, hend⟩ := h.handleAlternative hK hsub.known (hdecided ▸ hsub.fits_alt)
      (hdecided ▸ hsub.no_checkpoint) fuel
    refine ⟨s', r, hrun, fun hpanics => ?_⟩
    obtain ⟨hsound, hmore | hsame⟩ := hend hpanics
    · exact ⟨hsound, hmore.le, fun _ => hmore⟩
    · exact ⟨hsound, h.tipMoves_of_blocks hsound (hsame ▸ suffix_refl _)⟩
  · rename_i hprev
    split
    · rename_i s' r hadd
      have hadded := handleBlockToMainChain_ok hadd
      have hfits := hsub.fits_main (Bool.eq_false_iff.mpr hnew) (not_not.mp hprev)
      rw [h.top_work, (h.difficulty hK).1, h.annotated_eq] at hfits
      obtain ⟨e, hchain, -⟩ := hadded.chain
      have hblocks : s'.blocks = e.bl :: s.blocks := congrArg (map StoredBlock.bl) hchain
      have hsound : Sound n K s' := ⟨h.toDifficultySound.added hK hsub.known hadded,
        by rw [hblocks]; exact hfits, hadded.altBlocks ▸ h.alt⟩
      exact ⟨s', true, rfl, fun _ =>
        ⟨hsound, h.tipMoves_of_blocks hsound (hblocks ▸ suffix_cons _ _)⟩⟩
    · rename_i s' e hrefused
      have hun := handleBlockToMainChain_error hrefused
      have hblocks : s'.blocks = s.blocks := congrArg (map StoredBlock.bl) hun.chain
      have hsound := h.steps (X := ∅) hK hun.steps hblocks (hun.altBlocks ▸ Subset.refl _)
      exact ⟨s', false, rfl, fun _ =>
        ⟨hsound, h.tipMoves_of_blocks hsound (hblocks ▸ suffix_refl _)⟩⟩

/-! ## Runs -/

/-- The states of a node. No step of a run panics: blocks that were on the main chain are accepted
again. -/
inductive Reaches (n : Node P) (K : Set Block) : Blockchain P → Prop
  | init (s : Blockchain P) (hchain : s.chain = []) (halt : s.altBlocks = [])
      (hfork : s.hardFork = {}) (hcache : s.difficultyCache = {}) : Reaches n K s
  | submit {s s' : Blockchain P} (b : Block) (sup : List (Hash × Transaction)) (fuel : Nat)
      {r : Bool} (h : Reaches n K s) (hsub : Submission n K s b sup)
      (hrun : addNewBlock n (fuel + 2) s b sup = some (s', r)) (hpanics : s'.panics = s.panics) :
      Reaches n K s'
  | cleanup {s : Blockchain P} (h : Reaches n K s) : Reaches n K (cleanupHandleIncomingBlocks s)
  | difficulty {s : Blockchain P} (h : Reaches n K s) :
      Reaches n K { s with difficultyCache := (s.getDifficultyForNextBlock n).2 }
  | other {s s' : Blockchain P} (h : Reaches n K s) (hchain : s'.chain = s.chain)
      (halt : s'.altBlocks = s.altBlocks) (hfork : s'.hardFork = s.hardFork)
      (hcache : s'.difficultyCache = s.difficultyCache) : Reaches n K s'

theorem Reaches.sound (hK : CollisionFree n K) (h : Reaches n K s) : Sound n K s := by
  induction h with
  | init s hchain halt hfork hcache =>
    refine ⟨.fresh ⟨hchain, halt, hfork, hcache⟩, ?_, ?_⟩
    · rw [blocks, hchain]
      exact Nat.two_pow_pos 128
    · rw [halt]
      exact forall_mem_nil _
  | submit b sup fuel _ hsub hrun hpanics ih =>
    obtain ⟨s', r, hrun', hend⟩ := ih.addNewBlock hK hsub fuel
    cases hrun.symm.trans hrun'
    exact (hend hpanics).1
  | cleanup _ ih => exact ih.steps (X := ∅) hK (.single (.cleanup _)) rfl (Subset.refl _)
  | difficulty _ ih => exact ih.steps (X := ∅) hK (.single (.query _)) rfl (Subset.refl _)
  | other _ hchain halt hfork hcache ih =>
    exact ih.steps (X := ∅) hK (.single (.other hchain halt hfork hcache))
      (congrArg (map StoredBlock.bl) hchain) (halt ▸ Subset.refl _)

/-! ## Nodes and blocks for examples -/

theorem addNewBlock_sampleSubmit {n : Node Unit} {s : Blockchain Unit} {r : Bool}
    (h : (addNewBlock n 2 s b []).map Prod.snd = some r) :
    addNewBlock n 2 s b [] = some (sampleSubmit n s b, r) := by
  obtain ⟨⟨s', r'⟩, hrun, rfl⟩ := Option.map_eq_some_iff.mp h
  rw [sampleSubmit, hrun, Option.getD_some]

theorem Reaches.sampleSubmit {n : Node Unit} {s : Blockchain Unit} (h : Reaches n K s)
    (hsub : Submission n K s b []) (hpanics : (Core.sampleSubmit n s b).panics = s.panics) :
    Reaches n K (Core.sampleSubmit n s b) := by
  revert hpanics
  unfold Core.sampleSubmit
  cases hrun : addNewBlock n 2 s b [] with
  | none => exact fun _ => h
  | some r => exact fun hpanics => .submit b [] 0 h hsub hrun hpanics

theorem sampleFork_reaches : Reaches (sampleNode 0) {b | b ∈ sampleBlocks} sampleFork := by
  refine Reaches.sampleSubmit (Reaches.sampleSubmit (Reaches.sampleSubmit ?_ ?_ ?_) ?_ ?_) ?_ ?_
  · exact .init _ rfl rfl rfl rfl
  all_goals decide

/-- **What a node has noted is exact** in every state: the work of the tip, the difficulty and the
version for the next block, the version of every block, and the height and work of every
alternative block. -/
theorem reached_exact (hK : CollisionFree n K) (h : Reaches n K s) :
    s.topCumulativeDifficulty = workOf n s.blocks ∧
      (s.getDifficultyForNextBlock n).1 = requiredDifficulty n (annotated n s.blocks) ∧
      s.hfVersion n = n.schedule.getIdealVersion s.height ∧
      (∀ k e, s.chain.reverse[k]? = some e →
        e.bl.majorVersion = n.schedule.getIdealVersion k) ∧
      ∀ x ∈ s.altBlocks, BlockPath n K x.2.bl x.2.height x.2.cumulativeDifficulty := by
  have hs := h.sound hK
  refine ⟨hs.top_work, hs.annotated_eq ▸ (hs.difficulty hK).1, hs.hfVersion, fun k e hk => ?_,
    hs.alt⟩
  have hcheck := hs.forks.conforms k e.bl.toBlockHeader (by rw [getElem?_map, hk]; rfl)
  rw [n.forks_unvoted.getIdealVersion_eq]
  exact (of_decide_eq_true hcheck).1

/-- The work of a chain of two blocks. -/
theorem reached_exact_fork :
    sampleFork.topCumulativeDifficulty = workOf (sampleNode 0) sampleFork.blocks :=
  (reached_exact sampleBlocks_collisionFree sampleFork_reaches).1

/-! ## The work of the tip -/

/-- **The work of the tip never decreases**, and it grows whenever the main chain is replaced: a
submission to any state of a node returns, and if the blocks that were on the main chain are
accepted again, it moves the tip as it may. -/
theorem tip_work_mono (n : Node P) (K : Set Block) (hK : CollisionFree n K) (s : Blockchain P)
    (hs : Reaches n K s) (b : Block) (sup : List (Hash × Transaction))
    (hsub : Submission n K s b sup) (fuel : Nat) :
    ∃ s' r, addNewBlock n (fuel + 2) s b sup = some (s', r) ∧
      (s'.panics = s.panics →
        s.topCumulativeDifficulty ≤ s'.topCumulativeDifficulty ∧
        (¬ s.blocks <:+ s'.blocks →
          s.topCumulativeDifficulty < s'.topCumulativeDifficulty)) := by
  obtain ⟨s', r, hrun, hend⟩ := (hs.sound hK).addNewBlock hK hsub fuel
  exact ⟨s', r, hrun, fun hpanics => (hend hpanics).2⟩

/-- The last block makes the node switch to the other branch. -/
theorem tip_work_mono_reorganised :
    ∃ s' r, addNewBlock (sampleNode 0) 2 sampleFork (sampleBlock 2 2 4 3 1000) [] = some (s', r) ∧
      s'.blocks.map (fun b => b.nonce) = [4, 3, 1] ∧
      sampleFork.blocks.map (fun b => b.nonce) = [2, 1] ∧
      sampleFork.topCumulativeDifficulty < s'.topCumulativeDifficulty := by
  obtain ⟨s', r, hrun, hend⟩ := tip_work_mono (sampleNode 0) {b | b ∈ sampleBlocks}
    sampleBlocks_collisionFree sampleFork sampleFork_reaches (sampleBlock 2 2 4 3 1000) []
    (by decide +kernel) 0
  have hfacts : (addNewBlock (sampleNode 0) 2 sampleFork (sampleBlock 2 2 4 3 1000) []).map
      (fun r => (r.1.panics, r.1.blocks.map fun b => b.nonce,
        decide (sampleFork.blocks <:+ r.1.blocks))) = some (0, [4, 3, 1], false) := by
    decide +kernel
  rw [hrun, Option.map_some, Option.some_inj, Prod.mk.injEq, Prod.mk.injEq,
    decide_eq_false_iff_not] at hfacts
  obtain ⟨hpanics, hblocks, hnot⟩ := hfacts
  have hsame : s'.panics = sampleFork.panics := hpanics.trans (by decide +kernel)
  exact ⟨s', r, hrun, hblocks, by decide +kernel, (hend hsame).2 hnot⟩

/-- **The work of the tip can wrap**: with a fixed difficulty of `2 ^ 127`, the third block takes
the tip from work `2 ^ 127 + 1` to work `1`. -/
theorem tip_work_wraps :
    ∃ s₁ s₂ s₃,
      addNewBlock (sampleNode (2 ^ 127)) 2 { txPool := () }
        (sampleBlock 1 0 1 0 17592186044415) [] = some (s₁, true) ∧
      addNewBlock (sampleNode (2 ^ 127)) 2 s₁ (sampleBlock 1 1 2 1 17592169267200) [] =
        some (s₂, true) ∧
      addNewBlock (sampleNode (2 ^ 127)) 2 s₂ (sampleBlock 2 2 3 2 1000) [] = some (s₃, true) ∧
      (sampleNode (2 ^ 127)).checkpoints = [] ∧ s₃.panics = 0 ∧
      s₂.topCumulativeDifficulty = 2 ^ 127 + 1 ∧ s₃.topCumulativeDifficulty = 1 := by
  refine ⟨_, _, _, addNewBlock_sampleSubmit ?_, addNewBlock_sampleSubmit ?_,
    addNewBlock_sampleSubmit ?_, rfl, ?_, ?_, ?_⟩
  all_goals decide

end Hashmonkey.Core
