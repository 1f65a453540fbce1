import Hashmonkey.Core.AltWork
import Hashmonkey.Core.HardForkRuns

/-!
# The operations of a node as steps (`blockchain.cpp`)

A call of `add_new_block` can take many blocks off the main chain, put others on it, file some as
alternative blocks, and start over for the blocks it took off. `NodeStep` has one case for each
thing that any of this does to the chain, the table, the forks and the cache of the difficulty, and
`addNewBlock_steps` takes the whole call apart into such steps. An invariant of a node then needs
one lemma for each case.

* `Known`: all blocks of a state are among `K`, so that the blocks a switch puts back are, too;
* `Operation`: what is done to a node from outside. Blocks are submitted and popped, the difficulty
  is asked for, and the tables of a batch are dropped;
* `NodeRun`: the states of a node from an empty database on.

Result: `NodeRun.steps`, every run of a node is a sequence of steps. Nothing is assumed of the
blocks, nor that a switch succeeds.
-/

namespace Hashmonkey.Core

open Basic Relation List

variable {P : Type} {n : Node P} {K : Set Block} {X : Set (Hash × Transaction)}
  {s s' : Blockchain P}

/-! ## Steps -/

/-- One thing that happens to a node, with blocks of `K` and supplements from `X`. -/
inductive NodeStep (n : Node P) (K : Set Block) (X : Set (Hash × Transaction)) :
    Blockchain P → Blockchain P → Prop
  /-- a block goes onto the main chain -/
  | add {s s' : Blockchain P} {b : Block} {sup : List (Hash × Transaction)} {r : BlockReport}
      (hb : b ∈ K) (hsup : ∀ x ∈ sup, x ∈ X)
      (h : handleBlockToMainChain n s b sup = (s', .ok r)) : NodeStep n K X s s'
  /-- a block comes off the main chain -/
  | pop {s s' : Blockchain P} {e : StoredBlock} (h : Popped n s e s') : NodeStep n K X s s'
  /-- `m_hardfork->reorganize_from_chain_height` -/
  | forks (s : Blockchain P) (height : Nat) : NodeStep n K X s (s.reorganizeForks n height)
  /-- a block goes into the table of alternative blocks -/
  | file {s s' : Blockchain P} {b : Block} {a : AltBlock} (hb : b ∈ K)
      (h : AltStored n s b s' a) : NodeStep n K X s s'
  /-- blocks come out of the table -/
  | unfile (s : Blockchain P) (p : Hash × BlockExtendedInfo → Bool) :
      NodeStep n K X s { s with altBlocks := s.altBlocks.filter p }
  /-- the window of the difficulty is to be reset -/
  | reset (s : Blockchain P) : NodeStep n K X s s.invalidateDifficulty
  /-- the difficulty of the next block is computed -/
  | query (s : Blockchain P) :
      NodeStep n K X s { s with difficultyCache := (s.getDifficultyForNextBlock n).2 }
  | cleanup (s : Blockchain P) : NodeStep n K X s (cleanupHandleIncomingBlocks s)
  /-- anything else: the pool, the clock, the weight limits, the tables of a batch -/
  | other {s s' : Blockchain P} (hchain : s'.chain = s.chain) (halt : s'.altBlocks = s.altBlocks)
      (hfork : s'.hardFork = s.hardFork) (hcache : s'.difficultyCache = s.difficultyCache) :
      NodeStep n K X s s'

/-- Steps one after the other. -/
def NodeSteps (n : Node P) (K : Set Block) (X : Set (Hash × Transaction)) :
    Blockchain P → Blockchain P → Prop :=
  ReflTransGen (NodeStep n K X)

/-- All blocks of a state are among `K`. -/
structure Known (K : Set Block) (s : Blockchain P) : Prop where
  chain : ∀ e ∈ s.chain, e.bl ∈ K
  alt : ∀ x ∈ s.altBlocks, x.2.bl ∈ K

theorem Known.congr (hs : Known K s) (hchain : s'.chain = s.chain)
    (halt : s'.altBlocks = s.altBlocks) : Known K s' :=
  ⟨hchain ▸ hs.chain, halt ▸ hs.alt⟩

theorem NodeStep.known (h : NodeStep n K X s s') (hs : Known K s) : Known K s' := by
  cases h with
  | add hb _ h =>
    have hadd := handleBlockToMainChain_ok h
    obtain ⟨e, hchain, rfl, -⟩ := hadd.chain
    refine ⟨?_, hadd.altBlocks ▸ hs.alt⟩
    rw [hchain]
    exact forall_mem_cons.mpr ⟨hb, hs.chain⟩
  | pop h =>
    refine ⟨fun e he => hs.chain e ?_, h.altBlocks ▸ hs.alt⟩
    rw [h.chain]
    exact mem_cons_of_mem _ he
  | forks height => exact hs.congr rfl rfl
  | file hb h =>
    refine ⟨h.kept.chain ▸ hs.chain, ?_⟩
    rw [h.altBlocks]
    exact forall_mem_cons.mpr ⟨h.bl ▸ hb, hs.alt⟩
  | unfile p => exact ⟨hs.chain, fun x hx => hs.alt x (mem_of_mem_filter hx)⟩
  | reset => exact hs.congr rfl rfl
  | query => exact hs.congr rfl rfl
  | cleanup => exact hs.congr rfl rfl
  | other hchain halt _ _ => exact hs.congr hchain halt

theorem NodeSteps.known (h : NodeSteps n K X s s') (hs : Known K s) : Known K s' := by
  induction h with
  | refl => exact hs
  | tail _ hstep ih => exact hstep.known ih

theorem Unchanged.steps (h : Unchanged n s s') : NodeSteps n K X s s' := by
  rcases h.difficultyCache with hcache | hcache
  · exact .single (.other h.chain h.altBlocks h.hardFork hcache)
  · exact .tail (.single (.query s)) (.other h.chain h.altBlocks h.hardFork hcache)

theorem AltKept.steps (h : AltKept s s') (halt : s'.altBlocks = s.altBlocks) :
    NodeSteps n K X s s' :=
  .tail (.single (.reset s)) (.other h.chain halt h.hardFork h.difficultyCache)

/-! ## The loops of a switch -/

theorem Pops.steps {popped : List StoredBlock} (h : Pops n s popped s') : NodeSteps n K X s s' := by
  induction h with
  | refl s => exact .refl
  | step hpop _ ih => exact .head (.pop hpop) ih

/-- The blocks that a switch takes off are blocks of the main chain. -/
theorem Known.popped (hs : Known K s) {popped : List StoredBlock}
    (h : Pops n s.invalidateDifficulty popped s') :
    ∀ b ∈ (popped.map StoredBlock.bl).reverse, b ∈ K := by
  intro b hb
  obtain ⟨e, he, rfl⟩ := mem_map.mp (mem_reverse.mp hb)
  have hchain : s.chain = popped ++ s'.chain := h.chain
  exact hs.chain e (hchain ▸ mem_append_left _ he)

variable {altChain : List BlockExtendedInfo}

theorem Adds.steps {bs : List Block} (hb : ∀ b ∈ bs, b ∈ K) (h : Adds n s bs s') :
    NodeSteps n K X s s' := by
  induction h with
  | refl s => exact .refl
  | step hadd _ ih =>
    rw [forall_mem_cons] at hb
    exact .head (.add hb.1 (forall_mem_nil _) hadd) (ih hb.2)

theorem connectAlternative_steps {failed : List BlockExtendedInfo}
    (hb : ∀ bei ∈ altChain, bei.bl ∈ K) (h : connectAlternative n altChain s = (s', failed)) :
    NodeSteps n K X s s' := by
  obtain ⟨good, s1, rfl, hadds, hend⟩ := connectAlternative_cases h
  have hup := hadds.steps (X := X) (forall_mem_map.mpr (forall_mem_append.mp hb).1)
  rcases hend with ⟨-, rfl⟩ | ⟨_, _, _, -, herr⟩
  · exact hup
  · exact hup.trans (handleBlockToMainChain_error herr).steps

variable {r : Bool}

theorem readd_steps {bs : List Block} (hb : ∀ b ∈ bs, b ∈ K)
    (h : readd n bs s = (s', r)) : NodeSteps n K X s s' := by
  induction bs generalizing s with
  | nil =>
    cases h
    exact .refl
  | cons b bs ih =>
    rw [forall_mem_cons] at hb
    rw [readd] at h
    split at h
    · rename_i hadd
      exact .head (.add hb.1 (forall_mem_nil _) hadd) (ih hb.2 h)
    rename_i herr
    cases h
    exact (handleBlockToMainChain_error herr).steps.tail (.other rfl rfl rfl rfl)

theorem rollback_steps {original : List Block} {height : Nat} (hb : ∀ b ∈ original, b ∈ K)
    (h : rollbackBlockchainSwitching n s original height = some (s', r)) :
    NodeSteps n K X s s' := by
  rcases rollback_some h with ⟨-, rfl⟩ | ⟨popped, s1, s2, b, hpops, -, hre, rfl⟩
  · exact .refl
  have hlow : NodeSteps n K X s
      ((s1.updateNextCumulativeWeightLimit n).reorganizeForks n height) :=
    ((ReflTransGen.head (.reset s) hpops.steps).tail
      (c := s1.updateNextCumulativeWeightLimit n) (.other rfl rfl rfl rfl)).tail (.forks _ _)
  have hup := hlow.trans (readd_steps hb hre)
  cases b with
  | true => exact hup.tail (.forks _ _)
  | false => exact hup

theorem failSwitch_steps {failed : List BlockExtendedInfo} {disconnected : List Block}
    {height : Nat} (hb : ∀ b ∈ disconnected, b ∈ K)
    (h : failSwitch n failed disconnected height s = some (s', r)) : NodeSteps n K X s s' := by
  obtain ⟨-, s1, b, hroll, rfl⟩ := failSwitch_some h
  exact (rollback_steps hb hroll).tail (.unfile s1 _)

section Switch

variable {handleAlternative : Blockchain P → Block → Option (Blockchain P × Bool)}
  (hhandle : ∀ s b s' r, Known K s → b ∈ K → handleAlternative s b = some (s', r) →
    NodeSteps n K X s s')

include hhandle

theorem pushDisconnected_steps {bs : List Block} (hs : Known K s) (hb : ∀ b ∈ bs, b ∈ K)
    (h : pushDisconnected handleAlternative bs s = some s') : NodeSteps n K X s s' := by
  induction bs generalizing s with
  | nil =>
    cases h
    exact .refl
  | cons b bs ih =>
    rw [forall_mem_cons] at hb
    rw [pushDisconnected] at h
    split at h
    · cases h
    rename_i s1 r hone
    have hsteps := hhandle s b s1 r hs hb.1 hone
    exact hsteps.trans (ih (hsteps.known hs) hb.2 h)

theorem finishSwitch_steps {discard : Bool}
    {disconnected : List Block} {splitHeight : Nat} (hs : Known K s)
    (hb : ∀ b ∈ disconnected, b ∈ K)
    (h : finishSwitch n handleAlternative altChain discard disconnected splitHeight s =
      some (s', r)) : NodeSteps n K X s s' := by
  obtain ⟨-, s1, hpush, rfl⟩ := finishSwitch_some h
  have hpushed : ∀ b ∈ (if discard then [] else disconnected), b ∈ K := by
    cases discard with
    | true => exact forall_mem_nil _
    | false => exact hb
  exact ((pushDisconnected_steps hhandle hs hpushed hpush).tail (.unfile s1 _)).tail (.forks _ _)

theorem switch_steps {discard : Bool} (hs : Known K s) (halt : ∀ bei ∈ altChain, bei.bl ∈ K)
    (h : switchToAlternativeBlockchain n handleAlternative s altChain discard = some (s', r)) :
    NodeSteps n K X s s' := by
  have hreset : NodeSteps n K X s s.invalidateDifficulty := .single (.reset s)
  unfold switchToAlternativeBlockchain at h
  dsimp only at h
  split at h
  · cases h
    exact hreset
  split at h
  · cases h
    exact hreset
  split at h
  · cases h
  rename_i s1 disconnected hpop
  obtain ⟨popped, hpops, hdisc, -⟩ := popUntil_some hpop
  rw [append_nil] at hdisc
  subst hdisc
  have hlow : NodeSteps n K X s (s1.updateNextCumulativeWeightLimit n) :=
    (hreset.trans hpops.steps).tail (.other rfl rfl rfl rfl)
  have hb := hs.popped hpops
  split at h
  · rename_i s2 hconnect
    have hup := hlow.trans (connectAlternative_steps halt hconnect)
    exact hup.trans (finishSwitch_steps hhandle (NodeSteps.known hup hs) hb h)
  · rename_i s2 failed _ hconnect
    exact (hlow.trans (connectAlternative_steps halt hconnect)).trans (failSwitch_steps hb h)

end Switch

/-! ## Calls -/

variable {fuel : Nat}

theorem altAncestors_mem {table : List (Hash × BlockExtendedInfo)} {id : Hash}
    {acc : List BlockExtendedInfo} (h : altAncestors table fuel id acc = some altChain)
    {bei : BlockExtendedInfo} (hbei : bei ∈ altChain) : bei ∈ acc ∨ ∃ id, (id, bei) ∈ table := by
  induction fuel generalizing id acc with
  | zero =>
    rw [altAncestors] at h
    split at h
    · cases h
    cases h
    exact .inl hbei
  | succ fuel ih =>
    rw [altAncestors] at h
    split at h
    · cases h
      exact .inl hbei
    rename_i parent hlookup
    rcases ih h with hacc | htable
    · rcases mem_cons.mp hacc with rfl | hacc
      · exact .inr ⟨id, mem_of_lookup hlookup⟩
      · exact .inl hacc
    · exact .inr htable

theorem buildAltChain_mem {prevId : Hash}
    {timestamps : List UInt64} (h : buildAltChain n s prevId = some (altChain, timestamps))
    {bei : BlockExtendedInfo} (hbei : bei ∈ altChain) : ∃ id, (id, bei) ∈ s.altBlocks := by
  have hwalk : altAncestors s.altBlocks s.altBlocks.length prevId [] = some altChain := by
    unfold buildAltChain at h
    split at h
    · cases h
    · rename_i hnil
      split at h <;> cases h
      exact hnil
    · rename_i hcons
      iterate 3 (split at h; · cases h)
      cases h
      exact hcons
  exact (altAncestors_mem hwalk hbei).resolve_left not_mem_nil

theorem AltStored.known {b : Block} {a : AltBlock} (h : AltStored n s b s' a) (hs : Known K s)
    (hb : b ∈ K) : ∀ bei ∈ a.altChain ++ [a.bei], bei.bl ∈ K := by
  rw [forall_mem_append, forall_mem_singleton, h.bl]
  refine ⟨fun bei hbei => ?_, hb⟩
  obtain ⟨timestamps, hbuild⟩ := h.build
  obtain ⟨id, hmem⟩ := buildAltChain_mem hbuild hbei
  exact hs.alt _ hmem

theorem handleAlternativeBlock_steps {b : Block} {sup : List (Hash × Transaction)}
    (hs : Known K s) (hb : b ∈ K)
    (h : handleAlternativeBlock n fuel s b sup = some (s', r)) : NodeSteps n K X s s' := by
  induction fuel generalizing s s' b sup r with
  | zero => cases h
  | succ fuel ih =>
    rw [handleAlternativeBlock] at h
    split at h
    · rename_i s1 e hacc
      cases h
      obtain ⟨hkept, halt⟩ := acceptAlternative_error hacc
      exact hkept.steps halt
    rename_i s1 a hacc
    have hst := acceptAlternative_stored hacc
    have hfile : NodeSteps n K X s s1 := .single (.file hb hst)
    have hs1 := NodeSteps.known hfile hs
    have hchain := hst.known hs hb
    have hhandle : ∀ s b s' r, Known K s → b ∈ K →
        handleAlternativeBlock n fuel s b [] = some (s', r) → NodeSteps n K X s s' :=
      fun _ _ _ _ hs hb h => ih hs hb h
    split at h
    · exact hfile.trans (switch_steps hhandle hs1 hchain h)
    split at h
    · exact hfile.trans (switch_steps hhandle hs1 hchain h)
    cases h
    exact hfile

/-- **A submitted block**: whatever `add_new_block` does is a sequence of steps. -/
theorem addNewBlock_steps {b : Block} {sup : List (Hash × Transaction)}
    (hs : Known K s) (hb : b ∈ K) (hsup : ∀ x ∈ sup, x ∈ X)
    (h : addNewBlock n fuel s b sup = some (s', r)) : NodeSteps n K X s s' := by
  unfold addNewBlock at h
  split at h
  · cases h
    exact .refl
  split at h
  · exact handleAlternativeBlock_steps hs hb h
  split at h
  · rename_i hadd
    cases h
    exact .single (.add hb hsup hadd)
  · rename_i herr
    cases h
    exact (handleBlockToMainChain_error herr).steps

/-! ## Runs -/

/-- What is done to a node from outside. -/
inductive Operation (n : Node P) (K : Set Block) (X : Set (Hash × Transaction)) :
    Blockchain P → Blockchain P → Prop
  /-- `add_new_block`, with any number of nested switches -/
  | submit {s s' : Blockchain P} {b : Block} {sup : List (Hash × Transaction)} {r : Bool}
      (fuel : Nat) (hb : b ∈ K) (hsup : ∀ x ∈ sup, x ∈ X)
      (h : addNewBlock n fuel s b sup = some (s', r)) : Operation n K X s s'
  /-- `pop_block_from_blockchain` -/
  | pop {s s' : Blockchain P} {b : Block} (h : popBlockFromBlockchain n s = some (b, s')) :
      Operation n K X s s'
  /-- `get_difficulty_for_next_block` -/
  | difficulty (s : Blockchain P) :
      Operation n K X s { s with difficultyCache := (s.getDifficultyForNextBlock n).2 }
  /-- `cleanup_handle_incoming_blocks` -/
  | cleanup (s : Blockchain P) : Operation n K X s (cleanupHandleIncomingBlocks s)
  /-- the pool, the clock, the weight limits, the tables of a batch -/
  | other {s s' : Blockchain P} (hchain : s'.chain = s.chain) (halt : s'.altBlocks = s.altBlocks)
      (hfork : s'.hardFork = s.hardFork) (hcache : s'.difficultyCache = s.difficultyCache) :
      Operation n K X s s'

/-- Operations one after the other. -/
def Operations (n : Node P) (K : Set Block) (X : Set (Hash × Transaction)) :
    Blockchain P → Blockchain P → Prop :=
  ReflTransGen (Operation n K X)

/-- A node with an empty database. -/
structure Fresh (s : Blockchain P) : Prop where
  chain : s.chain = []
  altBlocks : s.altBlocks = []
  hardFork : s.hardFork = {}
  difficultyCache : s.difficultyCache = {}

/-- The states of a node. -/
def NodeRun (n : Node P) (K : Set Block) (X : Set (Hash × Transaction)) (s : Blockchain P) : Prop :=
  ∃ s₀, Fresh s₀ ∧ Operations n K X s₀ s

theorem Fresh.known (h : Fresh s) : Known K s := by
  refine ⟨?_, ?_⟩
  · rw [h.chain]
    exact forall_mem_nil _
  · rw [h.altBlocks]
    exact forall_mem_nil _

theorem Operation.steps (h : Operation n K X s s') (hs : Known K s) : NodeSteps n K X s s' := by
  cases h with
  | submit fuel hb hsup h => exact addNewBlock_steps hs hb hsup h
  | pop h =>
    obtain ⟨e, -, hpop⟩ := popBlockFromBlockchain_some h
    exact .single (.pop hpop)
  | difficulty => exact .single (.query s)
  | cleanup => exact .single (.cleanup s)
  | other hchain halt hfork hcache => exact .single (.other hchain halt hfork hcache)

theorem Operations.steps (h : Operations n K X s s') (hs : Known K s) : NodeSteps n K X s s' := by
  induction h with
  | refl => exact .refl
  | tail _ hop ih => exact ih.trans (hop.steps (ih.known hs))

/-- **A run of a node is a sequence of steps** from a node with an empty database. -/
theorem NodeRun.steps (h : NodeRun n K X s) : ∃ s0, Fresh s0 ∧ NodeSteps n K X s0 s := by
  obtain ⟨s0, hfresh, hops⟩ := h
  exact ⟨s0, hfresh, hops.steps hfresh.known⟩

/-- An invariant of a node: it holds with an empty database and every step keeps it. -/
theorem NodeRun.invariant {I : Blockchain P → Prop} (hfresh : ∀ s, Fresh s → I s)
    (hstep : ∀ s s', NodeStep n K X s s' → I s → I s') (h : NodeRun n K X s) : I s := by
  obtain ⟨s0, hs0, hsteps⟩ := h.steps
  clear h
  induction hsteps with
  | refl => exact hfresh _ hs0
  | tail _ hone ih => exact hstep _ _ hone ih

/-! ## Nodes and blocks for examples -/

/-- The state after a block is submitted to a node for examples. -/
def sampleSubmit (n : Node Unit) (s : Blockchain Unit) (b : Block) : Blockchain Unit :=
  ((addNewBlock n 2 s b []).getD (s, false)).1

/-- A genesis block, two blocks on it, and a block on the second of them. -/
def sampleBlocks : List Block :=
  [sampleBlock 1 0 1 0 17592186044415, sampleBlock 1 1 2 1 17592169267200,
    sampleBlock 1 1 3 1 17592169267200, sampleBlock 2 2 4 3 1000]

theorem sampleBlocks_collisionFree : CollisionFree (sampleNode 0) {b | b ∈ sampleBlocks} where
  header_eq := by
    change ∀ b ∈ sampleBlocks, ∀ b' ∈ sampleBlocks, _
    decide
  ne_null := by
    change ∀ b ∈ sampleBlocks, _
    decide

/-- The main chain has the genesis block and one block on it, the other is an alternative. -/
def sampleFork : Blockchain Unit :=
  (sampleBlocks.take 3).foldl (sampleSubmit (sampleNode 0)) { txPool := () }

/-- Blocks that are submitted to a node for examples, one after the other. -/
theorem operations_sampleSubmit {n : Node Unit} (bs : List Block) (hbs : ∀ b ∈ bs, b ∈ K)
    (s : Blockchain Unit) : Operations n K X s (bs.foldl (sampleSubmit n) s) := by
  refine foldlRecOn bs _ .refl fun s hs b hb => ?_
  unfold sampleSubmit
  cases hrun : addNewBlock n 2 s b [] with
  | none => exact hs
  | some r => exact hs.tail (.submit 2 (hbs b hb) (forall_mem_nil _) hrun)

end Hashmonkey.Core
