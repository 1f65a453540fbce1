import Hashmonkey.Core.AltChain

/-!
# What a switch does to the chain (`blockchain.cpp`)

`switch_to_alternative_blockchain` pops the main chain down to the fork and connects the alternative
chain; `rollback_blockchain_switching` goes back. Their loops as relations, each with the blocks it
moves:

* `Pops`: blocks come off the main chain (`popUntil`, `popN`);
* `Adds`: blocks go onto it, each accepted by `handle_block_to_main_chain` (`connectAlternative`,
  `readd`);
* `switch_cases`: how a switch ends, from any state that has the parent of the first block. Later
  proofs use this and never unfold the function.

Results: **`switch_failed_restores`**. When a switch fails at an alternative block, the main chain
has the blocks it had before, and the failing block and those after it are gone from the table of
alternative blocks. That a popped block is accepted again is an assumption: `panics` counts the
times it was not. A switch returns (`exists_popUntil`, `exists_rollback`, `exists_failSwitch`).
-/

namespace Hashmonkey.Core

open Basic List Blockchain

variable {P : Type} {n : Node P}

/-! ## Blocks come off -/

/-- What `pop_block_from_blockchain` does when it takes off the block `e`. -/
structure Popped (n : Node P) (s : Blockchain P) (e : StoredBlock) (s' : Blockchain P) : Prop where
  chain : s.chain = e :: s'.chain
  nonempty : s'.chain ≠ []
  altBlocks : s'.altBlocks = s.altBlocks
  hardFork : s'.hardFork = s.hardFork.onBlockPopped n.schedule s'.chain.length
  difficultyCache : s'.difficultyCache = s.difficultyCache.invalidate
  panics : s'.panics = s.panics

variable {s s' : Blockchain P}

theorem popBlockFromBlockchain_some {b : Block}
    (h : popBlockFromBlockchain n s = some (b, s')) : ∃ e, e.bl = b ∧ Popped n s e s' := by
  unfold popBlockFromBlockchain at h
  split at h
  · rename_i e e' rest hchain
    dsimp only at h
    refine ⟨e, ?_⟩
    split at h <;> cases h <;> exact ⟨rfl, hchain, cons_ne_nil _ _, rfl, rfl, rfl, rfl⟩
  · cases h

theorem exists_popBlockFromBlockchain {e : StoredBlock}
    {rest : List StoredBlock} (hchain : s.chain = e :: rest) (hrest : rest ≠ []) :
    ∃ s', popBlockFromBlockchain n s = some (e.bl, s') ∧ s'.chain = rest := by
  obtain ⟨e', rest, rfl⟩ := exists_cons_of_ne_nil hrest
  unfold popBlockFromBlockchain
  rw [hchain]
  dsimp only
  split
  · exact ⟨_, rfl, rfl⟩
  · exact ⟨_, rfl, rfl⟩

/-- The blocks `popped`, the top block first, are taken off one after the other. -/
inductive Pops (n : Node P) : Blockchain P → List StoredBlock → Blockchain P → Prop
  | refl (s : Blockchain P) : Pops n s [] s
  | step {s s₁ s' : Blockchain P} {e : StoredBlock} {popped : List StoredBlock} :
      Popped n s e s₁ → Pops n s₁ popped s' → Pops n s (e :: popped) s'

variable {popped : List StoredBlock}

theorem Pops.chain (h : Pops n s popped s') : s.chain = popped ++ s'.chain := by
  induction h with
  | refl s => rfl
  | step hpop _ ih => rw [hpop.chain, ih, cons_append]

theorem Pops.altBlocks (h : Pops n s popped s') : s'.altBlocks = s.altBlocks := by
  induction h with
  | refl s => rfl
  | step hpop _ ih => rw [ih, hpop.altBlocks]

theorem Pops.panics (h : Pops n s popped s') : s'.panics = s.panics := by
  induction h with
  | refl s => rfl
  | step hpop _ ih => rw [ih, hpop.panics]

variable {id : Hash}

/-- The whole chain is the part up to its top block. -/
theorem upTo_topBlockHash (h : s.topBlockHash n = id) : s.upTo n id = s.chain := by
  rw [topBlockHash] at h
  rw [upTo]
  cases hc : s.chain with
  | nil => rfl
  | cons e rest =>
    rw [hc, topId_cons] at h
    exact dropWhile_cons_of_neg (by simpa using h)

/-- The first loop of a switch pops down to the parent and collects the blocks, oldest first. -/
theorem popUntil_some {fuel : Nat} {acc disconnected : List Block}
    (h : popUntil n id fuel s acc = some (s', disconnected)) :
    ∃ popped, Pops n s popped s' ∧
      disconnected = (popped.map StoredBlock.bl).reverse ++ acc ∧ s'.chain = s.upTo n id := by
  induction fuel generalizing s acc with
  | zero =>
    rw [popUntil] at h
    split at h
    · rename_i htop
      cases h
      exact ⟨[], .refl _, rfl, (upTo_topBlockHash htop).symm⟩
    · cases h
  | succ fuel ih =>
    rw [popUntil] at h
    split at h
    · rename_i htop
      cases h
      exact ⟨[], .refl _, rfl, (upTo_topBlockHash htop).symm⟩
    rename_i hne
    split at h
    · cases h
    rename_i b s1 hpop
    obtain ⟨e, rfl, hpopped⟩ := popBlockFromBlockchain_some hpop
    obtain ⟨popped, hpops, rfl, hup⟩ := ih h
    refine ⟨e :: popped, .step hpopped hpops, ?_, ?_⟩
    · rw [map_cons, reverse_cons, append_assoc, singleton_append]
    · rw [topBlockHash, hpopped.chain, topId_cons] at hne
      rw [hup, upTo, upTo, hpopped.chain]
      exact (dropWhile_cons_of_pos (by simpa using hne)).symm

theorem popN_some {k : Nat} (h : popN n k s = some s') :
    ∃ popped, Pops n s popped s' ∧ popped.length = k := by
  induction k generalizing s with
  | zero =>
    cases h
    exact ⟨[], .refl _, rfl⟩
  | succ k ih =>
    rw [popN] at h
    split at h
    · cases h
    rename_i b s1 hpop
    obtain ⟨e, -, hpopped⟩ := popBlockFromBlockchain_some hpop
    obtain ⟨popped, hpops, hlen⟩ := ih h
    exact ⟨e :: popped, .step hpopped hpops, congrArg (· + 1) hlen⟩

/-! ## Blocks go on -/

/-- The blocks `bs` are accepted one after the other. -/
inductive Adds (n : Node P) : Blockchain P → List Block → Blockchain P → Prop
  | refl (s : Blockchain P) : Adds n s [] s
  | step {s s₁ s' : Blockchain P} {b : Block} {bs : List Block} {r : BlockReport} :
      handleBlockToMainChain n s b [] = (s₁, .ok r) → Adds n s₁ bs s' → Adds n s (b :: bs) s'

variable {bs : List Block}

theorem Adds.blocks (h : Adds n s bs s') : s'.blocks = bs.reverse ++ s.blocks := by
  induction h with
  | refl s => rfl
  | step hadd _ ih =>
    obtain ⟨e, hchain, rfl, -⟩ := (handleBlockToMainChain_ok hadd).chain
    rw [ih, Blockchain.blocks, hchain, map_cons, reverse_cons, append_assoc]
    rfl

theorem Adds.height (h : Adds n s bs s') : s'.height = bs.length + s.height := by
  have hlen := congrArg List.length h.blocks
  rwa [length_append, length_reverse, Blockchain.blocks, Blockchain.blocks,
    length_map, length_map] at hlen

theorem Adds.height_le (h : Adds n s bs s') : s.height ≤ s'.height :=
  h.height ▸ Nat.le_add_left _ _

theorem Adds.altBlocks (h : Adds n s bs s') : s'.altBlocks = s.altBlocks := by
  induction h with
  | refl s => rfl
  | step hadd _ ih => rw [ih, (handleBlockToMainChain_ok hadd).altBlocks]

theorem Adds.panics (h : Adds n s bs s') : s'.panics = s.panics := by
  induction h with
  | refl s => rfl
  | step hadd _ ih => rw [ih, (handleBlockToMainChain_ok hadd).panics]

/-- The loop over the alternative chain either connects all of it, or is refused at a block. -/
theorem connectAlternative_cases {altChain failed : List BlockExtendedInfo}
    (h : connectAlternative n altChain s = (s', failed)) :
    ∃ good s1, altChain = good ++ failed ∧ Adds n s (good.map BlockExtendedInfo.bl) s1 ∧
      (failed = [] ∧ s' = s1 ∨ ∃ bei rest e, failed = bei :: rest ∧
        handleBlockToMainChain n s1 bei.bl [] = (s', .error e)) := by
  induction altChain generalizing s with
  | nil =>
    cases h
    exact ⟨[], _, rfl, .refl _, .inl ⟨rfl, rfl⟩⟩
  | cons bei altChain ih =>
    rw [connectAlternative] at h
    split at h
    · rename_i s1 r hadd
      obtain ⟨good, s2, rfl, hadds, hcase⟩ := ih h
      exact ⟨bei :: good, s2, rfl, .step hadd hadds, hcase⟩
    · rename_i s1 e herr
      cases h
      exact ⟨[], s, rfl, .refl s, .inr ⟨bei, altChain, e, rfl, herr⟩⟩

/-- The loop over popped blocks puts all of them back, or is refused at one: that is a panic. -/
theorem readd_cases {r : Bool} (h : readd n bs s = (s', r)) :
    r = true ∧ Adds n s bs s' ∨ r = false ∧ ∃ good s1 s2, Adds n s good s1 ∧ Unchanged n s1 s2 ∧
      s' = { s2 with panics := s2.panics + 1 } := by
  induction bs generalizing s with
  | nil =>
    cases h
    exact .inl ⟨rfl, .refl _⟩
  | cons b bs ih =>
    rw [readd] at h
    split at h
    · rename_i hadd
      rcases ih h with ⟨hr, hadds⟩ | ⟨hr, good, s1, s2, hadds, hrest⟩
      · exact .inl ⟨hr, .step hadd hadds⟩
      · exact .inr ⟨hr, b :: good, s1, s2, .step hadd hadds, hrest⟩
    · rename_i s1 e herr
      cases h
      exact .inr ⟨rfl, [], s, s1, .refl s, handleBlockToMainChain_error herr, rfl⟩

theorem readd_altBlocks {r : Bool} (h : readd n bs s = (s', r)) : s'.altBlocks = s.altBlocks := by
  rcases readd_cases h with ⟨-, hadds⟩ | ⟨-, good, s1, s2, hadds, hkept, rfl⟩
  · exact hadds.altBlocks
  · exact hkept.altBlocks.trans hadds.altBlocks

/-! ## Going back -/

/-- The ids of the blocks of an alternative chain. -/
def altIds (n : Node P) (beis : List BlockExtendedInfo) : List Hash :=
  beis.map fun bei => n.getBlockHash bei.bl

theorem removeAltBlocks_some {beis : List BlockExtendedInfo}
    (h : removeAltBlocks n beis s = some s') :
    s' = { s with altBlocks := s.altBlocks.filter fun x => x.1 ∉ altIds n beis } := by
  induction beis generalizing s with
  | nil =>
    cases h
    have hall : s'.altBlocks.filter (fun x => x.1 ∉ altIds n []) = s'.altBlocks :=
      filter_eq_self.mpr fun x _ => decide_eq_true not_mem_nil
    rw [hall]
  | cons bei beis ih =>
    rw [removeAltBlocks] at h
    split at h
    · cases h
    rename_i altBlocks hone
    unfold removeAltBlock at hone
    split at hone
    · cases hone
      rw [ih h, filter_filter]
      congr 1
      simp [altIds, Bool.and_comm]
    · cases hone

section Rollback

variable {original : List Block} {height : Nat} {r : Bool}

/-- A rollback: the blocks from a height on come off and the original ones go on, all of them or up
to the first that is refused. -/
theorem rollback_some (h : rollbackBlockchainSwitching n s original height = some (s', r)) :
    s.height < height ∧ s' = s ∨ ∃ popped s1 s2 b,
      Pops n s.invalidateDifficulty popped s1 ∧ s.height = popped.length + height ∧
      readd n original ((s1.updateNextCumulativeWeightLimit n).reorganizeForks n height) =
        (s2, b) ∧
      s' = if b then s2.reorganizeForks n height else s2 := by
  unfold rollbackBlockchainSwitching at h
  split at h
  · rename_i hlt
    cases h
    exact .inl ⟨hlt, rfl⟩
  split at h
  · cases h
  rename_i s1 hpop
  obtain ⟨popped, hpops, hpopped⟩ := popN_some hpop
  have hlen : s.height = popped.length + height := by omega
  refine .inr ⟨popped, s1, ?_⟩
  dsimp only at h
  split at h
  · cases h
    exact ⟨_, true, hpops, hlen, ‹_›, rfl⟩
  · cases h
    exact ⟨_, false, hpops, hlen, ‹_›, rfl⟩

/-- Without a panic, all of them go on. -/
theorem rollback_adds (hle : height ≤ s.height)
    (h : rollbackBlockchainSwitching n s original height = some (s', r))
    (hpanics : s'.panics = s.panics) : ∃ popped s1 s2,
      Pops n s.invalidateDifficulty popped s1 ∧ s.height = popped.length + height ∧
      Adds n ((s1.updateNextCumulativeWeightLimit n).reorganizeForks n height) original s2 ∧
      s' = s2.reorganizeForks n height := by
  rcases rollback_some h with ⟨hlt, -⟩ | ⟨popped, s1, s2, b, hpops, hlen, hre, rfl⟩
  · omega
  rcases readd_cases hre with ⟨rfl, hadds⟩ | ⟨rfl, good, s3, s4, hadds, hkept, rfl⟩
  · exact ⟨popped, s1, s2, hpops, hlen, hadds, rfl⟩
  · have hless : s4.panics = s.panics := hkept.panics.trans (hadds.panics.trans hpops.panics)
    exact absurd (hless ▸ hpanics) (Nat.succ_ne_self _)

/-- A rollback without a panic puts the original blocks back on top of the fork. -/
theorem rollback_restores (hle : height ≤ s.height)
    (h : rollbackBlockchainSwitching n s original height = some (s', r))
    (hpanics : s'.panics = s.panics) :
    s'.blocks = original.reverse ++ s.blocks.drop (s.height - height) ∧
      s'.altBlocks = s.altBlocks := by
  obtain ⟨popped, s1, s2, hpops, hlen, hadds, rfl⟩ := rollback_adds hle h hpanics
  have hbelow : s1.blocks = s.blocks.drop (s.height - height) := by
    have hchain : s.chain = popped ++ s1.chain := hpops.chain
    rw [Blockchain.blocks, Blockchain.blocks, hchain, hlen,
      Nat.add_sub_cancel, ← map_drop, drop_left]
  exact ⟨(hadds.blocks).trans (congrArg _ hbelow), hadds.altBlocks.trans hpops.altBlocks⟩

theorem failSwitch_some {failed : List BlockExtendedInfo}
    (h : failSwitch n failed original height s = some (s', r)) :
    r = false ∧ ∃ s1 b, rollbackBlockchainSwitching n s original height = some (s1, b) ∧
      s' = { s1 with altBlocks := s1.altBlocks.filter fun x => x.1 ∉ altIds n failed } := by
  unfold failSwitch at h
  split at h
  · cases h
  rename_i hroll
  split at h
  · cases h
  rename_i hrem
  cases h
  exact ⟨rfl, _, _, hroll, removeAltBlocks_some hrem⟩

theorem finishSwitch_some {handleAlternative : Blockchain P → Block → Option (Blockchain P × Bool)}
    {altChain : List BlockExtendedInfo} {discard : Bool}
    (h : finishSwitch n handleAlternative altChain discard original height s = some (s', r)) :
    r = true ∧ ∃ s1,
      pushDisconnected handleAlternative (if discard then [] else original) s = some s1 ∧
      s' = Blockchain.reorganizeForks n
        { s1 with altBlocks := s1.altBlocks.filter fun x => x.1 ∉ altIds n altChain } height := by
  unfold finishSwitch at h
  split at h
  · cases h
  rename_i hpush
  split at h
  · cases h
  rename_i hrem
  cases h
  exact ⟨rfl, _, hpush, by rw [removeAltBlocks_some hrem]⟩

end Rollback

/-- The pops down to an existing block stay within their bound and above the genesis block. -/
theorem exists_popUntil {fuel : Nat} {acc : List Block}
    (hfuel : s.height ≤ fuel) (hexists : s.blockExists n id = true) :
    ∃ s' disconnected, popUntil n id fuel s acc = some (s', disconnected) := by
  induction fuel generalizing s acc with
  | zero =>
    have hnil : s.chain = [] := length_eq_zero_iff.mp (Nat.le_zero.mp hfuel)
    rw [blockExists, upTo, hnil] at hexists
    cases hexists
  | succ fuel ih =>
    rw [popUntil]
    split
    · exact ⟨_, _, rfl⟩
    rename_i hne
    cases hc : s.chain with
    | nil =>
      rw [blockExists, upTo, hc] at hexists
      cases hexists
    | cons e rest =>
      rw [topBlockHash, hc, topId_cons] at hne
      rw [blockExists, upTo, hc,
        dropWhile_cons_of_pos (by simpa using hne)] at hexists
      have hrest : rest ≠ [] := by
        rintro rfl
        cases hexists
      obtain ⟨s1, hpop, hrest'⟩ := exists_popBlockFromBlockchain (n := n) hc hrest
      rw [hpop]
      refine ih ?_ ?_
      · rw [Blockchain.height, hc, length_cons] at hfuel
        rw [Blockchain.height, hrest']
        omega
      · rw [blockExists, upTo, hrest']
        exact hexists

/-- **How a switch ends.** The blocks above the parent are popped and the alternative blocks go on,
all of them or up to the first that is refused. -/
theorem switch_cases (handleAlternative : Blockchain P → Block → Option (Blockchain P × Bool))
    {front : BlockExtendedInfo} (rest : List BlockExtendedInfo)
    (discard : Bool) (hparent : s.blockExists n front.bl.prevId = true) :
    ∃ popped s1, Pops n s.invalidateDifficulty popped s1 ∧ s1.chain = s.upTo n front.bl.prevId ∧
      ((∃ s2,
          Adds n (s1.updateNextCumulativeWeightLimit n) ((front :: rest).map fun bei => bei.bl) s2 ∧
          switchToAlternativeBlockchain n handleAlternative s (front :: rest) discard =
            finishSwitch n handleAlternative (front :: rest) discard
              (popped.map StoredBlock.bl).reverse s1.height s2) ∨
        ∃ good bad after t t' e, front :: rest = good ++ bad :: after ∧
          Adds n (s1.updateNextCumulativeWeightLimit n) (good.map fun bei => bei.bl) t ∧
          handleBlockToMainChain n t bad.bl [] = (t', .error e) ∧
          switchToAlternativeBlockchain n handleAlternative s (front :: rest) discard =
            failSwitch n (bad :: after) (popped.map StoredBlock.bl).reverse s1.height t') := by
  have hparent' : ¬ ¬ s.invalidateDifficulty.blockExists n front.bl.prevId = true :=
    not_not.mpr hparent
  obtain ⟨s1, disconnected, hpop⟩ : ∃ s1 disconnected, popUntil n front.bl.prevId
      s.invalidateDifficulty.height s.invalidateDifficulty [] = some (s1, disconnected) :=
    exists_popUntil (Nat.le_refl _) hparent
  obtain ⟨popped, hpops, hdisc, hup⟩ := popUntil_some hpop
  rw [append_nil] at hdisc
  subst hdisc
  refine ⟨popped, s1, hpops, hup, ?_⟩
  unfold switchToAlternativeBlockchain
  dsimp only
  rw [if_neg hparent', hpop]
  dsimp only
  split
  · rename_i s2 hconnect
    obtain ⟨good, t, hsplit, hadds, ⟨-, rfl⟩ | ⟨bad, after, e, hbad, -⟩⟩ :=
      connectAlternative_cases hconnect
    · rw [append_nil] at hsplit
      exact .inl ⟨_, hsplit ▸ hadds, rfl⟩
    · cases hbad
  · rename_i s2 failed hfailed hconnect
    obtain ⟨good, t, hsplit, hadds, ⟨hnil, -⟩ | ⟨bad, after, e, rfl, herr⟩⟩ :=
      connectAlternative_cases hconnect
    · exact absurd hnil hfailed
    exact .inr ⟨good, bad, after, t, s2, e, hsplit, hadds, herr, rfl⟩

/-- A switch that was refused at a block, from its parts: it undoes what it did to the main chain,
and the blocks from the refused one on leave the table. -/
theorem failSwitch_restores {s1 t t' : Blockchain P}
    {good failed : List BlockExtendedInfo} (hpops : Pops n s.invalidateDifficulty popped s1)
    (hadds : Adds n (s1.updateNextCumulativeWeightLimit n) (good.map fun bei => bei.bl) t)
    (hun : Unchanged n t t')
    (hfail : failSwitch n failed (popped.map StoredBlock.bl).reverse s1.height t' =
      some (s', false))
    (hagain : s'.panics = s.panics) :
    s'.blocks = s.blocks ∧ s'.altBlocks = s.altBlocks.filter fun x => x.1 ∉ altIds n failed := by
  have ht : t'.blocks = (good.map fun bei => bei.bl).reverse ++ s1.blocks := by
    rw [Blockchain.blocks, hun.chain]
    exact hadds.blocks
  have hheight : t'.height = (good.map fun bei => bei.bl).reverse.length + s1.height := by
    rw [Blockchain.height, hun.chain, length_reverse]
    exact hadds.height
  have hpanics : t'.panics = s.panics :=
    hun.panics.trans (hadds.panics.trans hpops.panics)
  have halt : t'.altBlocks = s.altBlocks :=
    hun.altBlocks.trans (hadds.altBlocks.trans hpops.altBlocks)
  obtain ⟨-, s3, r3, hroll, rfl⟩ := failSwitch_some hfail
  obtain ⟨hblocks, halt3⟩ :=
    rollback_restores (hheight ▸ Nat.le_add_left _ _) hroll (hagain.trans hpanics.symm)
  have hchain : s.chain = popped ++ s1.chain := hpops.chain
  refine ⟨?_, by rw [← halt, ← halt3]⟩
  change s3.blocks = s.blocks
  rw [hblocks, reverse_reverse, hheight, Nat.add_sub_cancel, ht, drop_left, Blockchain.blocks,
    Blockchain.blocks, hchain, map_append]

/-! ## A switch returns -/

theorem exists_popN {k : Nat} (hk : k < s.height) : ∃ s', popN n k s = some s' := by
  induction k generalizing s with
  | zero => exact ⟨s, rfl⟩
  | succ k ih =>
    cases hc : s.chain with
    | nil =>
      rw [Blockchain.height, hc] at hk
      cases hk
    | cons e rest =>
      rw [Blockchain.height, hc, length_cons] at hk
      have hrest : rest ≠ [] := ne_nil_of_length_pos (by omega)
      obtain ⟨s1, hpop, rfl⟩ := exists_popBlockFromBlockchain (n := n) hc hrest
      rw [popN, hpop]
      exact ih (Nat.lt_of_succ_lt_succ hk)

theorem exists_rollback {original : List Block} {height : Nat}
    (hpos : 0 < height) (hle : height ≤ s.height) :
    ∃ s' r, rollbackBlockchainSwitching n s original height = some (s', r) ∧
      s'.altBlocks = s.altBlocks := by
  have hk : s.height - height < s.invalidateDifficulty.height := by
    change s.height - height < s.height
    omega
  obtain ⟨s1, hpop⟩ := exists_popN (n := n) hk
  obtain ⟨popped, hpops, -⟩ := popN_some hpop
  unfold rollbackBlockchainSwitching
  rw [if_neg (Nat.not_lt.mpr hle), hpop]
  dsimp only
  split
  all_goals
    rename_i hre
    exact ⟨_, _, rfl, (readd_altBlocks hre).trans hpops.altBlocks⟩

/-- Distinct blocks of the table can be removed one after the other. -/
theorem exists_removeAltBlocks {beis : List BlockExtendedInfo} (hnodup : (altIds n beis).Nodup)
    (hfiled : ∀ bei ∈ beis, (n.getBlockHash bei.bl, bei) ∈ s.altBlocks) :
    ∃ s', removeAltBlocks n beis s = some s' := by
  induction beis generalizing s with
  | nil => exact ⟨s, rfl⟩
  | cons bei beis ih =>
    rw [forall_mem_cons] at hfiled
    rw [altIds, map_cons, nodup_cons] at hnodup
    rw [removeAltBlocks, removeAltBlock, if_pos (any_eq_true.mpr ⟨_, hfiled.1, decide_eq_true rfl⟩)]
    refine ih hnodup.2 fun bei' hbei' => ?_
    refine mem_filter.mpr ⟨hfiled.2 bei' hbei', decide_eq_true ?_⟩
    intro heq
    exact hnodup.1 (mem_map.mpr ⟨bei', hbei', heq⟩)

theorem exists_failSwitch {failed : List BlockExtendedInfo}
    {disconnected : List Block} {splitHeight : Nat} (hpos : 0 < splitHeight)
    (hle : splitHeight ≤ s.height) (hnodup : (altIds n failed).Nodup)
    (hfiled : ∀ bei ∈ failed, (n.getBlockHash bei.bl, bei) ∈ s.altBlocks) :
    ∃ s', failSwitch n failed disconnected splitHeight s = some (s', false) := by
  obtain ⟨s1, r, hroll, halt⟩ := exists_rollback (n := n) (s := s) hpos hle
  obtain ⟨s2, hrem⟩ := exists_removeAltBlocks (s := s1) hnodup fun bei hbei =>
    halt ▸ hfiled bei hbei
  refine ⟨s2, ?_⟩
  unfold failSwitch
  rw [hroll]
  dsimp only
  rw [hrem]

/-! ## A switch that fails -/

/-- Two alternative blocks on the genesis block, the second with an old version. -/
def sampleAltChain : List BlockExtendedInfo :=
  [⟨sampleBlock 1 1 3 1 17592169267200, 1, 100, 2, 35184355311615⟩,
    ⟨sampleBlock 1 2 4 3 17592152489985, 2, 100, 3, 52776507801600⟩]

/-- A main chain of two blocks, with the blocks above in the table of alternative blocks. -/
def sampleForked : Blockchain Unit :=
  let genesis := (handleBlockToMainChain (sampleNode 0) { txPool := () }
    (sampleBlock 1 0 1 0 17592186044415) []).1
  let second := (handleBlockToMainChain (sampleNode 0) genesis
    (sampleBlock 1 1 2 1 17592169267200) []).1
  { second with
    altBlocks := sampleAltChain.map fun bei => ((sampleNode 0).getBlockHash bei.bl, bei) }

/-- **A switch that fails at an alternative block changes nothing on the main chain**, if every
block that was popped is accepted again: the blocks and their order are those before the call, and
the block that was refused and all blocks after it are gone from the table of alternative blocks,
which is otherwise as before. -/
theorem switch_failed_restores (n : Node P)
    (handleAlternative : Blockchain P → Block → Option (Blockchain P × Bool))
    (s s' : Blockchain P) (front : BlockExtendedInfo) (rest : List BlockExtendedInfo)
    (discard : Bool) (hparent : s.blockExists n front.bl.prevId = true)
    (hfail : switchToAlternativeBlockchain n handleAlternative s (front :: rest) discard =
      some (s', false))
    (hagain : s'.panics = s.panics) :
    s'.blocks = s.blocks ∧ s'.topBlockHash n = s.topBlockHash n ∧ s'.height = s.height ∧
      ∃ good bad after, front :: rest = good ++ bad :: after ∧
        (∃ t t' e, t.blocks = (good.map fun bei => bei.bl).reverse ++
            (s.upTo n front.bl.prevId).map StoredBlock.bl ∧
          handleBlockToMainChain n t bad.bl [] = (t', .error e)) ∧
        s'.altBlocks = s.altBlocks.filter fun x => x.1 ∉ altIds n (bad :: after) := by
  obtain ⟨popped, s1, hpops, hup, ⟨s2, -, hend⟩ |
    ⟨good, bad, after, t, t', e, hsplit, hadds, herr, hend⟩⟩ :=
      switch_cases handleAlternative rest discard hparent
  · cases (finishSwitch_some (hend.symm.trans hfail)).1
  obtain ⟨hblocks, halt⟩ :=
    failSwitch_restores hpops hadds (handleBlockToMainChain_error herr) (hend.symm.trans hfail)
      hagain
  refine ⟨hblocks, topId_eq_of_map_eq n hblocks, ?_, good, bad, after, hsplit,
    ⟨t, t', e, ?_, herr⟩, halt⟩
  · have hlen := congrArg List.length hblocks
    rwa [Blockchain.blocks, Blockchain.blocks, length_map, length_map] at hlen
  · rw [← hup]
    exact hadds.blocks

/-- The switch to them pops a block, adds one, is refused at the next, and goes back. -/
theorem switch_failed_restores_two :
    ∃ s', switchToAlternativeBlockchain (sampleNode 0) (fun _ _ => none) sampleForked sampleAltChain
        false = some (s', false) ∧ s'.blocks = sampleForked.blocks ∧ s'.altBlocks.length = 1 := by
  have hrun : (switchToAlternativeBlockchain (sampleNode 0) (fun _ _ => none) sampleForked
      sampleAltChain false).map (fun r => (r.2, r.1.panics, r.1.altBlocks.length)) =
      some (false, 0, 1) := by decide
  obtain ⟨⟨s', r⟩, hs', heq⟩ := Option.map_eq_some_iff.mp hrun
  rw [Prod.mk.injEq, Prod.mk.injEq] at heq
  obtain ⟨rfl, hpanics, hlen⟩ := heq
  have hagain : s'.panics = sampleForked.panics := hpanics.trans (by decide)
  exact ⟨s', hs', (switch_failed_restores _ _ _ s' _ _ false (by decide) hs' hagain).1,
    hlen⟩

end Hashmonkey.Core
