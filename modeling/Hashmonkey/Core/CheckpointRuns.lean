import Hashmonkey.Core.Recorded

/-!
# Checkpoints hold (`blockchain.cpp`, `checkpoints.cpp`)

The main chain has a block at the height of a checkpoint. From then on an alternative block has to
be above it (`is_alternative_block_allowed`), but the chain that such a block extends could still
leave the main chain further down.

* `Placed`: the main chain and the entries of the table are paths, and the height noted with an
  entry is the length of its path;
* `Shielded n low s`: the table has no entry at the height of a checkpoint, and the main chain goes
  on from `low`. An alternative block at the height of a checkpoint makes the node switch at once,
  and whether the switch succeeds or not, the block leaves the table again;
* `Received`: what happens to a node that only receives blocks.

Result: **`checkpoint_block_stays`**, after any number of calls of `add_new_block` the main chain
still has the block at the checkpoint and everything below it. The switch never takes off so much,
so it does not matter whether a rollback restores the blocks above.
-/

namespace Hashmonkey.Core

open Basic Lib Relation List

variable {P : Type} {n : Node P} {K : Set Block} {X : Set (Hash × Transaction)}
  {s s' : Blockchain P} {low : List StoredBlock}

/-! ## Heights -/

/-- Paths and heights, and nothing else that is recorded. -/
abbrev Placed (n : Node P) (K : Set Block) (s : Blockchain P) : Prop :=
  Recorded n K (fun _ => ()) (fun _ => ()) (fun _ => ()) s

theorem Placed.step (hK : CollisionFree n K) (h : Placed n K s) (hstep : NodeStep n K X s s') :
    Placed n K s' :=
  Recorded.step hK (fun _ _ _ _ _ => rfl) h (fun _ => ()) (fun _ _ => rfl) (fun _ => rfl) hstep
    (fun _ _ _ _ _ _ _ _ => rfl) fun _ _ _ _ _ => rfl

theorem Placed.steps (hK : CollisionFree n K) (h : Placed n K s) (hsteps : NodeSteps n K X s s') :
    Placed n K s' := by
  induction hsteps with
  | refl => exact h
  | tail _ hone ih => exact ih.step hK hone

variable {b : Block} {a : AltBlock}

/-- The height of an alternative block, and those of the entries that it extends. -/
theorem Placed.heights (hK : CollisionFree n K) (h : Placed n K s) (hst : AltStored n s b s' a) :
    ∃ stop, AltBase n s b.prevId a.altChain stop ∧ a.bei.height = a.altChain.length + stop ∧
      ∀ height, stop ≤ height → height < a.bei.height →
        ∃ bei ∈ a.altChain, bei.height = height := by
  obtain ⟨timestamps, hbuild⟩ := hst.build
  obtain ⟨stop, hbase⟩ := buildAltChain_some h.altFiled hbuild
  obtain ⟨path, -, -, hlen, hheight, -⟩ :=
    h.altBase hK (fun _ _ _ _ _ => rfl) (fun _ => ()) (fun _ _ => rfl) (fun _ => rfl) hbase
  have htop : a.bei.height = a.altChain.length + stop := by
    rw [hst.height, hheight, hlen]
  refine ⟨stop, hbase, htop, fun height hle hlt => ?_⟩
  have hval : ∀ path path' top, Path n K path top → Path n K path' top →
      (fun _ : List Block => ()) path = (fun _ => ()) path' := fun _ _ _ _ _ => rfl
  obtain ⟨-, hvalues⟩ := Recorded.of_segment hK hval
    (fun bei hbei => (h.filed _ (hbase.filed bei (mem_reverse.mp hbei))).2.2)
    (h.path_drop (s.height - stop)) hbase.linked
  -- counted from the newest entry
  have hindex : a.altChain.length - (height - stop) - 1 < a.altChain.reverse.length := by
    rw [length_reverse]
    omega
  have hsplit := take_append_drop (a.altChain.length - (height - stop) - 1) a.altChain.reverse
  rw [drop_eq_getElem_cons hindex] at hsplit
  refine ⟨_, mem_reverse.mp (getElem_mem hindex), ?_⟩
  rw [(hvalues _ _ _ hsplit.symm).1, length_append, length_map, length_drop,
    length_reverse, length_map, length_drop]
  have hstop := hbase.le
  change _ + (s.height - (s.height - stop)) = height
  omega

/-- An alternative block is above every checkpoint that the main chain has got to. -/
theorem AltStored.above (hst : AltStored n s b s' a) {c : Nat × Hash}
    (hc : c ∈ n.checkpoints) (hle : c.1 ≤ s.height) : c.1 < a.bei.height := by
  have hallowed := hst.allowed
  obtain ⟨hf, hpre⟩ := hst.prevalidated
  simp only [isAlternativeBlockAllowed, decide_eq_true_eq, all_eq_true] at hallowed
  have hclaimed := (hallowed.2 c hc).resolve_left (Nat.not_lt.mpr hle)
  refine hclaimed.trans_le ?_
  unfold prevalidateMinerTransaction at hpre
  split at hpre
  · rename_i claimed hvin
    simp only [Bool.and_eq_true, decide_eq_true_eq] at hpre
    have hheight : claimedHeight b = (UInt64.ofNat a.bei.height).toNat := by
      rw [claimedHeight, hvin, hpre.1.1.1.2]
    rw [hheight, UInt64.toNat_ofNat']
    exact Nat.mod_le _ _
  · cases hpre

/-! ## What a switch keeps -/

/-- The table has no entry at the height of a checkpoint, and `low` is the lower part of the main
chain. -/
structure Shielded (n : Node P) (low : List StoredBlock) (s : Blockchain P) : Prop where
  clear : ∀ x ∈ s.altBlocks, n.checkpoints.lookup x.2.height = none
  kept : low <:+ s.chain

/-- The part of a chain that is kept ends in a block at the height of a checkpoint, if it is not
empty. -/
def Anchored (n : Node P) (low : List StoredBlock) : Prop :=
  low ≠ [] → ∃ id, n.checkpoints.lookup (low.length - 1) = some id

theorem Shielded.congr (h : Shielded n low s) (hchain : s.chain <:+ s'.chain)
    (halt : ∀ x ∈ s'.altBlocks, x ∈ s.altBlocks) : Shielded n low s' :=
  ⟨fun x hx => h.clear x (halt x hx), h.kept.trans hchain⟩

variable {bs : List Block}

theorem Adds.suffix (h : Adds n s bs s') : s.chain <:+ s'.chain := by
  induction h with
  | refl s => exact suffix_refl _
  | step hadd _ ih =>
    obtain ⟨e, hchain, -⟩ := (handleBlockToMainChain_ok hadd).chain
    rw [hchain] at ih
    exact (suffix_cons _ _).trans ih

theorem readd_suffix {r : Bool} (h : readd n bs s = (s', r)) : s.chain <:+ s'.chain := by
  rcases readd_cases h with ⟨-, hadds⟩ | ⟨-, good, s1, s2, hadds, hkept, rfl⟩
  · exact hadds.suffix
  · exact hkept.chain ▸ hadds.suffix

variable {r : Bool}

/-- A rollback, successful or not, leaves the blocks below its height alone. -/
theorem rollback_keeps {original : List Block} {height : Nat} (hlow : low <:+ s.chain)
    (hle : low.length ≤ height)
    (h : rollbackBlockchainSwitching n s original height = some (s', r)) :
    low <:+ s'.chain ∧ s'.altBlocks = s.altBlocks := by
  rcases rollback_some h with ⟨-, rfl⟩ | ⟨popped, s1, s2, b, hpops, hlen, hre, rfl⟩
  · exact ⟨hlow, rfl⟩
  have hs1 : low <:+ s1.chain := by
    have hchain : s.chain = popped ++ s1.chain := hpops.chain
    have hsize : s.height = popped.length + s1.chain.length := by
      rw [Blockchain.height, hchain, length_append]
    refine suffix_of_suffix_length_le hlow (hchain ▸ suffix_append _ _) ?_
    omega
  have hkept := readd_suffix hre
  have halt := (readd_altBlocks hre).trans hpops.altBlocks
  cases b <;> exact ⟨hs1.trans hkept, halt⟩

/-- The blocks below the block with an id are not fewer than below any block with that id. -/
theorem suffix_upTo {upper lower : List StoredBlock} {id : Hash} (hchain : s.chain = upper ++ lower)
    (hne : lower ≠ []) (htop : topId n lower = id) : lower <:+ s.upTo n id := by
  rw [Blockchain.upTo, hchain]
  clear hchain
  induction upper with
  | nil =>
    obtain ⟨e, rest, rfl⟩ := exists_cons_of_ne_nil hne
    refine ⟨[], ?_⟩
    rw [nil_append, dropWhile_cons_of_neg (by simpa using htop)]
  | cons e upper ih =>
    rw [cons_append, dropWhile_cons]
    split
    · exact ih
    · exact (suffix_append _ _).trans (suffix_cons _ _)

/-- **A switch to the chain of an alternative block keeps what is below a checkpoint**: the main
chain is left above it. -/
theorem Shielded.split_above (hK : CollisionFree n K) (hlow : Anchored n low) (hp : Placed n K s)
    (h : Shielded n low s) (hst : AltStored n s b s' a) :
    ∃ front rest, a.altChain ++ [a.bei] = front :: rest ∧
      s.blockExists n front.bl.prevId = true ∧ low <:+ s.upTo n front.bl.prevId := by
  obtain ⟨stop, hbase, htop, hheights⟩ := hp.heights hK hst
  have hdrop : (s.chain.drop (s.height - stop)).length = stop := by
    rw [length_drop]
    exact Nat.sub_sub_self hbase.le
  -- an entry at the height of the checkpoint would be on the way
  have hlen : low.length ≤ stop := by
    by_contra hlt
    have hne : low ≠ [] := by
      rintro rfl
      exact hlt (Nat.zero_le _)
    obtain ⟨id, hpoint⟩ := hlow hne
    have hsize := h.kept.length_le
    have hmem : (low.length - 1, id) ∈ n.checkpoints := by
      obtain ⟨l, l', heq, -⟩ := lookup_eq_some_iff.mp hpoint
      rw [heq]
      exact mem_append_right _ mem_cons_self
    have habove := hst.above hmem (show low.length - 1 ≤ s.chain.length by omega)
    obtain ⟨bei, hbei, hheight⟩ := hheights (low.length - 1) (by omega) habove
    have hnone := h.clear _ (hbase.filed bei hbei)
    rw [hheight, hpoint] at hnone
    cases hnone
  have hkept : low <:+ s.chain.drop (s.height - stop) :=
    suffix_of_suffix_length_le h.kept (drop_suffix _ _) (by rw [hdrop]; exact hlen)
  cases halt : a.altChain with
  | nil =>
    obtain ⟨hexists, hup⟩ := hbase.of_nil halt
    refine ⟨a.bei, [], rfl, ?_, ?_⟩
    · rw [hst.bl]
      exact hexists
    · rw [hst.bl, hup]
      exact hkept
  | cons front rest =>
    refine ⟨front, rest ++ [a.bei], rfl, (hbase.of_cons front rest halt).2, hkept.trans ?_⟩
    have hne : s.chain.drop (s.height - stop) ≠ [] := by
      rw [← length_pos_iff, hdrop]
      exact hbase.pos
    have hlinked := hbase.linked
    rw [halt, reverse_cons, map_append] at hlinked
    obtain ⟨mid, -, hbottom⟩ := hlinked.of_append
    exact suffix_upTo (take_append_drop _ _).symm hne hbottom.symm

/-- A failed switch leaves the blocks below a checkpoint and takes the last block of the alternative
chain out of the table. -/
theorem failSwitch_keeps {failed : List BlockExtendedInfo} {disconnected : List Block}
    {height : Nat} (hlow : low <:+ s.chain) (hle : low.length ≤ height)
    (h : failSwitch n failed disconnected height s = some (s', r)) :
    low <:+ s'.chain ∧ s'.altBlocks = s.altBlocks.filter fun x => x.1 ∉ altIds n failed := by
  obtain ⟨-, s1, b, hroll, rfl⟩ := failSwitch_some h
  obtain ⟨hkept, halt⟩ := rollback_keeps hlow hle hroll
  exact ⟨hkept, by rw [← halt]⟩

/-! ## Whole calls -/

/-- Only the block that ends an alternative chain is at the height of a checkpoint, and then the
blocks that come off the main chain are discarded. -/
def ClearBut (n : Node P) (last : BlockExtendedInfo) (discard : Bool)
    (table : List (Hash × BlockExtendedInfo)) : Prop :=
  ∀ x ∈ table, x.1 = n.getBlockHash last.bl ∧ discard = true ∨
    n.checkpoints.lookup x.2.height = none

section Switch

variable {handleAlternative : Blockchain P → Block → Option (Blockchain P × Bool)}
  (hhandle : ∀ s b s' r, Placed n K s → b ∈ K → Shielded n low s →
    handleAlternative s b = some (s', r) → Placed n K s' ∧ Shielded n low s')

include hhandle

theorem pushDisconnected_shielded (hp : Placed n K s) (hs : Shielded n low s)
    (hbs : ∀ b ∈ bs, b ∈ K) (h : pushDisconnected handleAlternative bs s = some s') :
    Shielded n low s' := by
  induction bs generalizing s with
  | nil =>
    cases h
    exact hs
  | cons b bs ih =>
    rw [forall_mem_cons] at hbs
    rw [pushDisconnected] at h
    split at h
    · cases h
    rename_i s1 r hone
    obtain ⟨hp1, hs1⟩ := hhandle s b s1 r hp hbs.1 hs hone
    exact ih hp1 hs1 hbs.2 h

omit hhandle in
/-- Once the last block is out of the table, nothing in it is at a checkpoint. -/
theorem ClearBut.filter {last : BlockExtendedInfo} {discard : Bool}
    {table : List (Hash × BlockExtendedInfo)} (h : ClearBut n last discard table)
    {beis : List BlockExtendedInfo} (hmem : last ∈ beis) :
    ∀ x ∈ table.filter (fun x => x.1 ∉ altIds n beis),
      n.checkpoints.lookup x.2.height = none := by
  intro x hx
  obtain ⟨hx, hnot⟩ := mem_filter.mp hx
  refine (h x hx).resolve_left fun hid => absurd ?_ (of_decide_eq_true hnot)
  rw [hid.1]
  exact mem_map_of_mem hmem

/-- **A switch keeps what is below a checkpoint.** At most the last block of the alternative chain
is at the height of a checkpoint, and then nothing is pushed. -/
theorem switch_shielded (hK : CollisionFree n K) {front last : BlockExtendedInfo}
    {rest : List BlockExtendedInfo} {discard : Bool} (hp : Placed n K s)
    (hbeis : ∀ bei ∈ front :: rest, bei.bl ∈ K) (hlast : [last] <:+ front :: rest)
    (hclear : ClearBut n last discard s.altBlocks)
    (hparent : s.blockExists n front.bl.prevId = true) (hkept : low <:+ s.upTo n front.bl.prevId)
    (h : switchToAlternativeBlockchain n handleAlternative s (front :: rest) discard =
      some (s', r)) : Shielded n low s' := by
  obtain ⟨popped, s1, hpops, hup, ⟨s2, hadds, hend⟩ |
    ⟨good, bad, after, t, t', e, hsplit, hadds, herr, hend⟩⟩ :=
      switch_cases handleAlternative rest discard hparent
  · -- all blocks were connected
    have hkept2 : low <:+ s2.chain := (hup ▸ hkept).trans hadds.suffix
    have halt2 : s2.altBlocks = s.altBlocks := hadds.altBlocks.trans hpops.altBlocks
    obtain ⟨-, s3, hpush, rfl⟩ := finishSwitch_some (hend.symm.trans h)
    have htable : low <:+ s3.chain ∧ ClearBut n last discard s3.altBlocks := by
      cases discard with
      | true =>
        cases hpush
        exact ⟨hkept2, halt2 ▸ hclear⟩
      | false =>
        have hs2 : Shielded n low s2 := by
          refine ⟨fun x hx => ?_, hkept2⟩
          rw [halt2] at hx
          exact (hclear x hx).resolve_left fun hid => Bool.noConfusion hid.2
        have hp0 : Placed n K s.invalidateDifficulty := hp.congr rfl rfl
        have hp1 : Placed n K (s1.updateNextCumulativeWeightLimit n) :=
          (hp0.steps (X := ∅) hK hpops.steps).congr rfl rfl
        have hp2 := hp1.steps (X := ∅) hK (hadds.steps (forall_mem_map.mpr hbeis))
        have hs3 := pushDisconnected_shielded hhandle hp2 hs2 (hp.known.popped hpops) hpush
        exact ⟨hs3.kept, fun x hx => .inr (hs3.clear x hx)⟩
    exact ⟨htable.2.filter (hlast.subset mem_cons_self), htable.1⟩
  · -- a block was refused
    have hun := handleBlockToMainChain_error herr
    have hkept' : low <:+ t'.chain := hun.chain ▸ (hup ▸ hkept).trans hadds.suffix
    have halt' : t'.altBlocks = s.altBlocks :=
      hun.altBlocks.trans (hadds.altBlocks.trans hpops.altBlocks)
    have hle : low.length ≤ s1.height := by
      rw [Blockchain.height, hup]
      exact hkept.length_le
    obtain ⟨hchain, htable⟩ := failSwitch_keeps hkept' hle (hend.symm.trans h)
    have hsuffix : [last] <:+ bad :: after := suffix_of_suffix_length_le hlast
      (hsplit ▸ suffix_append _ _) (Nat.succ_le_succ (Nat.zero_le _))
    refine ⟨?_, hchain⟩
    rw [htable, halt']
    exact hclear.filter (hsuffix.subset mem_cons_self)

end Switch

theorem handleAlternativeBlock_shielded (hK : CollisionFree n K) (hlow : Anchored n low)
    {fuel : Nat} {sup : List (Hash × Transaction)} (hp : Placed n K s) (hb : b ∈ K)
    (hs : Shielded n low s) (h : handleAlternativeBlock n fuel s b sup = some (s', r)) :
    Placed n K s' ∧ Shielded n low s' := by
  induction fuel generalizing s s' b sup r with
  | zero => cases h
  | succ fuel ih =>
    refine ⟨hp.steps hK (handleAlternativeBlock_steps (X := Set.univ) hp.known hb h), ?_⟩
    rw [handleAlternativeBlock] at h
    split at h
    · rename_i s1 e hacc
      cases h
      obtain ⟨hkept, halt⟩ := acceptAlternative_error hacc
      exact hs.congr (hkept.chain ▸ suffix_refl _) fun x hx => halt ▸ hx
    rename_i s1 a hacc
    have hst := acceptAlternative_stored hacc
    have hp1 : Placed n K s1 := hp.step (X := Set.univ) hK (.file hb hst)
    obtain ⟨front, rest, hcons, hparent, hkept⟩ := hs.split_above hK hlow hp hst
    have hup := hst.kept.upTo (n := n) front.bl.prevId
    have hparent1 : s1.blockExists n front.bl.prevId = true := by
      rw [Blockchain.blockExists, hup]
      exact hparent
    have hbeis : ∀ bei ∈ front :: rest, bei.bl ∈ K := hcons ▸ hst.known hp.known hb
    have hlast : [a.bei] <:+ front :: rest := hcons ▸ suffix_append _ _
    have hclear : ∀ discard, (a.isACheckpoint = true → discard = true) →
        ClearBut n a.bei discard s1.altBlocks := by
      intro discard hcp
      unfold ClearBut
      rw [hst.altBlocks, hst.bl]
      refine forall_mem_cons.mpr ⟨?_, fun x hx => .inr (hs.clear x hx)⟩
      rw [hst.checkpoint] at hcp
      cases hlookup : n.checkpoints.lookup a.bei.height with
      | none => exact .inr rfl
      | some id => exact .inl ⟨rfl, hcp (hlookup ▸ rfl)⟩
    have hswitch : ∀ discard, (a.isACheckpoint = true → discard = true) →
        switchToAlternativeBlockchain n (fun s b => handleAlternativeBlock n fuel s b []) s1
          (front :: rest) discard = some (s', r) → Shielded n low s' := fun discard hcp h =>
      switch_shielded (fun _ _ _ _ hp hb hs h => ih hp hb hs h) hK hp1 hbeis hlast
        (hclear discard hcp) hparent1 (hup ▸ hkept) h
    dsimp only at h
    rw [hcons] at h
    split at h
    · exact hswitch _ (fun _ => rfl) h
    rename_i hcp
    split at h
    · exact hswitch _ (fun hset => absurd hset hcp) h
    cases h
    refine ⟨fun x hx => ?_, hst.kept.chain ▸ hs.kept⟩
    exact (hclear false (fun hset => absurd hset hcp) x hx).resolve_left fun hid =>
      Bool.noConfusion hid.2

/-- The step lemma: a submitted block keeps what is below a checkpoint. -/
theorem addNewBlock_shielded (hK : CollisionFree n K) (hlow : Anchored n low) {fuel : Nat}
    {sup : List (Hash × Transaction)} (hp : Placed n K s) (hb : b ∈ K) (hs : Shielded n low s)
    (h : addNewBlock n fuel s b sup = some (s', r)) : Placed n K s' ∧ Shielded n low s' := by
  refine ⟨hp.steps hK (addNewBlock_steps (X := Set.univ) hp.known hb (fun x _ => Set.mem_univ x) h),
    ?_⟩
  unfold addNewBlock at h
  split at h
  · cases h
    exact hs
  split at h
  · exact (handleAlternativeBlock_shielded hK hlow hp hb hs h).2
  split at h
  · rename_i hadd
    cases h
    have hadded := handleBlockToMainChain_ok hadd
    obtain ⟨e, hchain, -⟩ := hadded.chain
    exact hs.congr (hchain ▸ suffix_cons _ _) fun x hx => hadded.altBlocks ▸ hx
  · rename_i herr
    cases h
    have hun := handleBlockToMainChain_error herr
    exact hs.congr (hun.chain ▸ suffix_refl _) fun x hx => hun.altBlocks ▸ hx

/-! ## Runs -/

/-- In every state of a node, the table has no entry at the height of a checkpoint. -/
theorem NodeRun.shielded (hK : CollisionFree n K) (h : NodeRun n K X s) :
    Placed n K s ∧ Shielded n [] s := by
  obtain ⟨s0, hfresh, hops⟩ := h
  induction hops with
  | refl =>
    refine ⟨Recorded.fresh hfresh, ?_, nil_suffix⟩
    rw [hfresh.altBlocks]
    exact forall_mem_nil _
  | tail _ hop ih =>
    obtain ⟨hp, hs⟩ := ih
    cases hop with
    | submit fuel hb _ h => exact addNewBlock_shielded hK (fun h => absurd rfl h) hp hb hs h
    | pop h =>
      obtain ⟨e, -, hpop⟩ := popBlockFromBlockchain_some h
      exact ⟨hp.popped hpop, fun x hx => hs.clear x (hpop.altBlocks ▸ hx), nil_suffix⟩
    | difficulty => exact ⟨hp.congr rfl rfl, hs.clear, hs.kept⟩
    | cleanup => exact ⟨hp.congr rfl rfl, hs.clear, hs.kept⟩
    | other hchain halt _ _ => exact ⟨hp.congr hchain halt, halt ▸ hs.clear, nil_suffix⟩

/-- What happens to a node that only receives blocks of `K`. -/
inductive Received (n : Node P) (K : Set Block) : Blockchain P → Blockchain P → Prop
  /-- `add_new_block` -/
  | submit {s s' : Blockchain P} {b : Block} {sup : List (Hash × Transaction)} {r : Bool}
      (fuel : Nat) (hb : b ∈ K) (h : addNewBlock n fuel s b sup = some (s', r)) : Received n K s s'
  /-- anything that touches neither the main chain nor the table -/
  | other {s s' : Blockchain P} (hchain : s'.chain = s.chain)
      (halt : s'.altBlocks = s.altBlocks) : Received n K s s'

/-- **A checkpoint holds.** If the main chain of a state of a node has the block of a checkpoint at
its height, it has that block, and all blocks below, after any sequence of submitted blocks; or two
blocks of the run with different headers have the same id, or the id of a block is null. -/
theorem checkpoint_block_stays (n : Node P) (K : Set Block) (X : Set (Hash × Transaction))
    (s s' : Blockchain P) (hs : NodeRun n K X s) (hlater : ReflTransGen (Received n K) s s')
    (height : Nat) (id : Hash) (hpoint : n.checkpoints.lookup height = some id)
    (hheight : height < s.height) (hid : s.getBlockIdByHeight n height = id) :
    (∃ b ∈ K, ∃ b' ∈ K, n.getBlockHash b = n.getBlockHash b' ∧
      b.toBlockHeader ≠ b'.toBlockHeader) ∨
    (∃ b ∈ K, n.getBlockHash b = nullHash) ∨
    (height < s'.height ∧ s'.getBlockIdByHeight n height = id ∧
      s.chain.drop (s.height - (height + 1)) <:+ s'.chain) := by
  by_cases hcollide : ∃ b ∈ K, ∃ b' ∈ K, n.getBlockHash b = n.getBlockHash b' ∧
      b.toBlockHeader ≠ b'.toBlockHeader
  · exact .inl hcollide
  by_cases hnull : ∃ b ∈ K, n.getBlockHash b = nullHash
  · exact .inr (.inl hnull)
  refine .inr (.inr ?_)
  have hK : CollisionFree n K := by
    refine ⟨fun b hb b' hb' heq => ?_, fun b hb heq => hnull ⟨b, hb, heq⟩⟩
    by_contra hne
    exact hcollide ⟨b, hb, b', hb', heq, hne⟩
  have hlen : (s.chain.drop (s.height - (height + 1))).length = height + 1 := by
    rw [length_drop]
    exact Nat.sub_sub_self hheight
  have hlow : Anchored n (s.chain.drop (s.height - (height + 1))) := by
    intro _
    rw [hlen]
    exact ⟨id, hpoint⟩
  obtain ⟨hp, hclear, -⟩ := hs.shielded hK
  have hinv : Placed n K s' ∧ Shielded n (s.chain.drop (s.height - (height + 1))) s' := by
    induction hlater with
    | refl => exact ⟨hp, hclear, drop_suffix _ _⟩
    | tail _ hone ih =>
      obtain ⟨hp, hs⟩ := ih
      cases hone with
      | submit fuel hb h => exact addNewBlock_shielded hK hlow hp hb hs h
      | other hchain halt =>
        exact ⟨hp.congr hchain halt, halt ▸ hs.clear, hchain ▸ hs.kept⟩
  have hkept := hinv.2.kept
  have hlt : height < s'.height := by
    have hle := hkept.length_le
    rw [hlen] at hle
    exact hle
  refine ⟨hlt, ?_, hkept⟩
  have hdrop := suffix_iff_eq_drop.mp hkept
  rw [hlen] at hdrop
  rw [getBlockIdByHeight_eq hlt, ← hid, getBlockIdByHeight_eq hheight, hdrop]
  rfl

/-- A node for examples with a checkpoint at height one. -/
def checkpointNode : Node Unit := { sampleNode 0 with checkpoints := [(1, Blob.fill 2)] }

/-- The block at the checkpoint stays when another block of its height and a block on that one are
submitted, which would have made a node without checkpoints switch. -/
theorem checkpoint_block_stays_sample :
    ∃ s s', s = (sampleBlocks.take 2).foldl (sampleSubmit checkpointNode) { txPool := () } ∧
      s' = (sampleBlocks.drop 2).foldl (sampleSubmit checkpointNode) s ∧
      1 < s'.height ∧ s'.getBlockIdByHeight checkpointNode 1 = Blob.fill 2 := by
  refine ⟨_, _, rfl, rfl, ?_⟩
  have hrun : NodeRun checkpointNode {b | b ∈ sampleBlocks} Set.univ
      ((sampleBlocks.take 2).foldl (sampleSubmit checkpointNode) { txPool := () }) :=
    ⟨_, ⟨rfl, rfl, rfl, rfl⟩,
      operations_sampleSubmit _ (fun b hb => mem_of_mem_take hb) _⟩
  have hlater : ∀ (bs : List Block) (s : Blockchain Unit), (∀ b ∈ bs, b ∈ sampleBlocks) →
      ReflTransGen (Received checkpointNode {b | b ∈ sampleBlocks}) s
        (bs.foldl (sampleSubmit checkpointNode) s) := by
    intro bs s hbs
    refine foldlRecOn bs _ .refl fun s hs b hb => hs.tail ?_
    unfold sampleSubmit
    cases hone : addNewBlock checkpointNode 2 s b [] with
    | none => exact .other rfl rfl
    | some r => exact .submit 2 (hbs b hb) hone
  obtain ⟨b, hb, b', hb', heq, hne⟩ | ⟨b, hb, hnull⟩ | ⟨hlt, hid, -⟩ :=
    checkpoint_block_stays checkpointNode {b | b ∈ sampleBlocks} Set.univ _ _ hrun
      (hlater (sampleBlocks.drop 2) _ fun b hb => mem_of_mem_drop hb) 1 (Blob.fill 2)
      (by decide) (by decide) (by decide)
  · exact absurd (sampleBlocks_collisionFree.header_eq b hb b' hb' heq) hne
  · exact absurd hnull (sampleBlocks_collisionFree.ne_null b hb)
  · exact ⟨hlt, hid⟩

/-- **No alternative block is at the height of a checkpoint**, also among the blocks that a switch
has taken off the main chain. -/
theorem alternatives_clear (hK : CollisionFree n K) (h : NodeRun n K X s) :
    ∀ x ∈ s.altBlocks, n.checkpoints.lookup x.2.height = none :=
  (h.shielded hK).2.clear

/-- The block at the checkpoint, and two blocks on it. -/
def sampleAbove : List Block :=
  sampleBlocks.take 2 ++ [sampleBlock 2 2 4 2 1000, sampleBlock 2 2 5 2 1000]

/-- The second block above the checkpoint is an alternative. -/
theorem alternatives_clear_sample :
    ∃ s, s = sampleAbove.foldl (sampleSubmit checkpointNode) { txPool := () } ∧
      s.altBlocks.map (fun x => x.2.height) = [2] ∧
      ∀ x ∈ s.altBlocks, checkpointNode.checkpoints.lookup x.2.height = none := by
  have hK : CollisionFree checkpointNode {b | b ∈ sampleAbove} := by
    constructor
    · change ∀ b ∈ sampleAbove, ∀ b' ∈ sampleAbove, _
      decide
    · change ∀ b ∈ sampleAbove, _
      decide
  exact ⟨_, rfl, by decide +kernel, alternatives_clear (X := ∅) hK
    ⟨_, ⟨rfl, rfl, rfl, rfl⟩, operations_sampleSubmit _ (fun _ hb => hb) _⟩⟩

end Hashmonkey.Core
