import Hashmonkey.Core.ChainWork

/-!
# Blocks in the table of alternative blocks (`blockchain.cpp`)

`handle_alternative_block` walks down the table from the parent of a block to the main chain
(`build_alt_chain`), notes a height, a cumulative difficulty and generated coins with the block, and
builds on what it noted for the parent.

* `AltBase`: the chain that a block extends, entries of the table on top of the lower part of the
  main chain (`buildAltChain_some`);
* `Recorded`: what is noted with a block, on the main chain and in the table, is a function of its
  path, whatever the quantity is. `Recorded.altBase` gives what a block that is filed finds below
  it;
* `AltKept`: what the function leaves alone before it decides about a switch.

Results: `AltBase.difficulty`, the difficulty that is asked of the block;
`acceptAlternative_stored`, everything that was found and done for a block that gets into the table
(`AltStored`), and `acceptAlternative_error` for one that is refused. Later proofs use these and
never unfold the function.
-/

namespace Hashmonkey.Core

open Basic Lib List StoredBlock

variable {P : Type} {n : Node P} {K : Set Block}

/-! ## The walk down the table -/

variable {table : List (Hash × BlockExtendedInfo)} {id : Hash}

theorem mem_of_lookup
    {bei : BlockExtendedInfo} (h : table.lookup id = some bei) : (id, bei) ∈ table := by
  obtain ⟨l, l', rfl, -⟩ := lookup_eq_some_iff.mp h
  exact mem_append_right _ mem_cons_self

/-- Entries are filed under their ids, and none is at the height of the genesis block. -/
def AltFiled (n : Node P) (table : List (Hash × BlockExtendedInfo)) : Prop :=
  ∀ x ∈ table, x.1 = n.getBlockHash x.2.bl ∧ 0 < x.2.height

variable {altChain : List BlockExtendedInfo}

/-- The walk collects blocks of the table that lead down from the given id, the last of them first,
to the id at which it stops. -/
theorem altAncestors_some (hfiled : AltFiled n table) {fuel : Nat} {acc : List BlockExtendedInfo}
    (h : altAncestors table fuel id acc = some altChain) :
    ∃ new, altChain = new ++ acc ∧ (∀ bei ∈ new, (n.getBlockHash bei.bl, bei) ∈ table) ∧
      Segment n.getBlockHash (fun b => b.prevId) (new.reverse.map BlockExtendedInfo.bl) id
        ((new.head?.map fun bei => bei.bl.prevId).getD id) := by
  induction fuel generalizing id acc with
  | zero =>
    rw [altAncestors] at h
    split at h
    · cases h
    cases h
    exact ⟨[], rfl, forall_mem_nil _, rfl⟩
  | succ fuel ih =>
    rw [altAncestors] at h
    split at h
    · cases h
      exact ⟨[], rfl, forall_mem_nil _, rfl⟩
    rename_i bei hlookup
    have hmem := mem_of_lookup hlookup
    have hid := (hfiled _ hmem).1
    obtain ⟨new, rfl, hnew, hseg⟩ := ih h
    refine ⟨new ++ [bei], by rw [append_assoc]; rfl, ?_, ?_⟩
    · rw [forall_mem_append]
      exact ⟨hnew, forall_mem_singleton.mpr (hid ▸ hmem)⟩
    · rw [reverse_append, reverse_singleton, singleton_append, map_cons]
      refine ⟨hid.symm, ?_⟩
      cases new with
      | nil => exact hseg
      | cons front new => exact hseg

/-! ## The chain that an alternative block extends -/

variable {s : Blockchain P}

theorem topId_upTo (h : s.blockExists n id = true) :
    topId n (s.upTo n id) = id ∧ s.upTo n id ≠ [] := by
  rw [Blockchain.blockExists, Bool.not_eq_true', isEmpty_eq_false_iff] at h
  refine ⟨?_, h⟩
  have hhead := head?_dropWhile_not (fun e => decide (n.getBlockHash e.bl ≠ id)) s.chain
  obtain ⟨e, rest, hcons⟩ := exists_cons_of_ne_nil h
  rw [Blockchain.upTo] at hcons ⊢
  rw [hcons] at hhead ⊢
  exact of_not_not (of_decide_eq_false hhead)

theorem upTo_eq_drop (s : Blockchain P) (id : Hash) :
    s.upTo n id = s.chain.drop (s.height - (s.upTo n id).length) :=
  suffix_iff_eq_drop.mp (dropWhile_suffix _)

theorem getBlockIdByHeight_eq {h : Nat} (hh : h < s.height) :
    s.getBlockIdByHeight n h = topId n (s.chain.drop (s.height - (h + 1))) := by
  have hlen : (s.chain.drop (s.height - (h + 1))).length = h + 1 := by
    rw [length_drop]
    exact Nat.sub_sub_self hh
  obtain ⟨e, rest, hcons⟩ := exists_cons_of_length_eq_add_one hlen
  have hblock : (between s.chain h (h + 1)).head? = some e := by
    rw [between, Nat.add_sub_cancel_left]
    exact congrArg (fun chain => (chain.take 1).reverse.head?) hcons
  rw [Blockchain.getBlockIdByHeight, hblock, hcons]
  rfl

/-- The chain that a block with the given parent extends: alternative blocks of the table, oldest
first, on top of the lowest `stop` blocks of the main chain. -/
structure AltBase (n : Node P) (s : Blockchain P) (prevId : Hash)
    (altChain : List BlockExtendedInfo) (stop : Nat) : Prop where
  pos : 0 < stop
  le : stop ≤ s.height
  filed : ∀ bei ∈ altChain, (n.getBlockHash bei.bl, bei) ∈ s.altBlocks
  linked : Segment n.getBlockHash (fun b => b.prevId) (altChain.reverse.map BlockExtendedInfo.bl)
    prevId (topId n (s.chain.drop (s.height - stop)))
  of_cons : ∀ front rest, altChain = front :: rest →
    front.height = stop ∧ s.blockExists n front.bl.prevId = true
  of_nil : altChain = [] →
    s.blockExists n prevId = true ∧ s.upTo n prevId = s.chain.drop (s.height - stop)

variable {prevId : Hash} {timestamps : List UInt64}

theorem buildAltChain_some (halt : AltFiled n s.altBlocks)
    (h : buildAltChain n s prevId = some (altChain, timestamps)) :
    ∃ stop, AltBase n s prevId altChain stop := by
  unfold buildAltChain at h
  split at h
  · cases h
  · split at h
    · cases h
    · -- the parent is on the main chain
      rename_i hexists
      cases h
      have hmain := not_not.mp hexists
      obtain ⟨htop, hne⟩ := topId_upTo hmain
      have hdrop := upTo_eq_drop (n := n) s prevId
      have hle : (s.upTo n prevId).length ≤ s.height := (dropWhile_suffix _).length_le
      refine ⟨(s.upTo n prevId).length, length_pos_iff.mpr hne, hle, forall_mem_nil _, ?_,
        fun _ _ hcons => absurd hcons.symm (cons_ne_nil _ _), fun _ => ⟨hmain, hdrop⟩⟩
      rw [← hdrop]
      exact htop.symm
  · rename_i front rest hwalk
    obtain ⟨new, hnew, hfiled, hseg⟩ := altAncestors_some halt hwalk
    rw [append_nil] at hnew
    subst hnew
    dsimp only at h
    split at h
    · cases h
    rename_i hheight
    split at h
    · cases h
    rename_i hexists
    split at h
    · cases h
    -- the alternative chain is rooted where its height says
    rename_i hroot
    cases h
    have hpos : 0 < front.height := (halt _ (hfiled front mem_cons_self)).2
    have hlt : front.height - 1 < s.height := by omega
    have hbase := getBlockIdByHeight_eq (n := n) hlt
    rw [not_not.mp hroot, Nat.sub_add_cancel hpos] at hbase
    have hlinked : Segment n.getBlockHash (fun b => b.prevId)
        ((front :: rest).reverse.map BlockExtendedInfo.bl) prevId
        (topId n (s.chain.drop (s.height - front.height))) := by
      rw [← hbase]
      exact hseg
    refine ⟨front.height, hpos, Nat.le_of_lt (not_not.mp hheight), hfiled, hlinked, ?_,
      fun hnil => absurd hnil (cons_ne_nil _ _)⟩
    intro front' rest' heq
    cases heq
    exact ⟨rfl, not_not.mp hexists⟩

/-- The parent is the last alternative block, or on the main chain. -/
theorem AltBase.parentData_cases {stop : Nat} (h : AltBase n s prevId altChain stop) :
    (∃ prev older, altChain.reverse = prev :: older ∧ parentData n s altChain prevId =
      (prev.height, prev.cumulativeDifficulty, prev.alreadyGeneratedCoins)) ∨
    altChain = [] ∧ ∃ e below, s.chain.drop (s.height - stop) = e :: below ∧
      parentData n s altChain prevId =
        (below.length, e.cumulativeDifficulty, e.alreadyGeneratedCoins) := by
  unfold parentData
  split
  · rename_i prev hlast
    rw [← head?_reverse] at hlast
    obtain ⟨older, holder⟩ := head?_eq_some_iff.mp hlast
    exact .inl ⟨prev, older, holder, rfl⟩
  · rename_i e below hlast hup
    rw [getLast?_eq_none_iff] at hlast
    exact .inr ⟨hlast, e, below, (h.of_nil hlast).2.symm.trans hup, rfl⟩
  · rename_i hlast hup
    rw [getLast?_eq_none_iff] at hlast
    exact absurd hup (topId_upTo (h.of_nil hlast).1).2

/-! ## What is recorded with blocks -/

/-- What the main chain records (`main`) and what the table records (`alt`) with a block is the
`value` of its path. -/
structure Recorded {V : Type} (n : Node P) (K : Set Block) (main : StoredBlock → V)
    (alt : BlockExtendedInfo → V) (value : List Block → V) (s : Blockchain P) : Prop where
  path : Path n K s.blocks (s.topBlockHash n)
  stored : ∀ upper e lower, s.chain = upper ++ e :: lower →
    main e = value (e.bl :: lower.map bl)
  filed : ∀ x ∈ s.altBlocks, x.1 = n.getBlockHash x.2.bl ∧ 0 < x.2.height ∧
    ∃ path, Path n K (x.2.bl :: path) x.1 ∧ path.length = x.2.height ∧
      alt x.2 = value (x.2.bl :: path)

namespace Recorded

variable {V : Type} {main : StoredBlock → V} {alt : BlockExtendedInfo → V} {value : List Block → V}
  (hK : CollisionFree n K)
  (hval : ∀ path path' top, Path n K path top → Path n K path' top → value path = value path')

include hK hval

/-- Entries of the table, newest first, on top of a path: they extend it, and record the values of
the longer paths. -/
theorem of_segment {entries : List BlockExtendedInfo} {base : List Block} {top bottom : Hash}
    (hentries : ∀ bei ∈ entries, ∃ path, Path n K (bei.bl :: path) (n.getBlockHash bei.bl) ∧
      path.length = bei.height ∧ alt bei = value (bei.bl :: path))
    (hbase : Path n K base bottom)
    (hseg : Segment n.getBlockHash (fun b => b.prevId) (entries.map BlockExtendedInfo.bl) top
      bottom) :
    Path n K (entries.map BlockExtendedInfo.bl ++ base) top ∧
      ∀ upper bei lower, entries = upper ++ bei :: lower →
        bei.height = (lower.map BlockExtendedInfo.bl ++ base).length ∧
        alt bei = value (bei.bl :: (lower.map BlockExtendedInfo.bl ++ base)) := by
  induction entries generalizing top with
  | nil =>
    cases hseg
    exact ⟨hbase, fun upper bei lower hsplit =>
      absurd hsplit.symm (append_ne_nil_of_right_ne_nil _ (cons_ne_nil _ _))⟩
  | cons bei entries ih =>
    rw [forall_mem_cons] at hentries
    obtain ⟨⟨path, hpath, hlen, hvalue⟩, hentries⟩ := hentries
    obtain ⟨hid, hrest⟩ := hseg
    obtain ⟨hlow, hvalues⟩ := ih hentries hrest
    have hnew := hlow.cons (hpath.known bei.bl mem_cons_self)
    refine ⟨hid ▸ hnew, ?_⟩
    intro upper bei' lower hsplit
    cases upper with
    | nil =>
      cases hsplit
      have heq := hpath.length_eq hK hnew
      rw [length_cons, length_cons, hlen] at heq
      exact ⟨Nat.succ.inj heq, hvalue.trans (hval _ _ _ hpath hnew)⟩
    | cons first upper => exact hvalues upper bei' lower (List.cons.inj hsplit).2

variable (h : Recorded n K main alt value s) (pick : Nat × Nat × UInt64 → V)
  (hmain : ∀ height e, pick (height, e.cumulativeDifficulty, e.alreadyGeneratedCoins) = main e)
  (halt : ∀ bei, pick (bei.height, bei.cumulativeDifficulty, bei.alreadyGeneratedCoins) = alt bei)

include h hmain halt

/-- **What an alternative block finds below it.** The chain that it extends is a path, the entries
of the table on it record the values of their paths, and so does its parent. -/
theorem altBase {stop : Nat} (hb : AltBase n s prevId altChain stop) :
    ∃ path, path = altChain.reverse.map BlockExtendedInfo.bl ++
        (s.chain.drop (s.height - stop)).map bl ∧
      Path n K path prevId ∧ path.length = altChain.length + stop ∧
      (parentData n s altChain prevId).1 + 1 = path.length ∧
      pick (parentData n s altChain prevId) = value path ∧
      ∀ upper bei lower, altChain.reverse = upper ++ bei :: lower →
        alt bei = value (bei.bl :: (lower.map BlockExtendedInfo.bl ++
          (s.chain.drop (s.height - stop)).map bl)) := by
  have hentries : ∀ bei ∈ altChain.reverse, ∃ path,
      Path n K (bei.bl :: path) (n.getBlockHash bei.bl) ∧ path.length = bei.height ∧
      alt bei = value (bei.bl :: path) :=
    fun bei hbei => (h.filed _ (hb.filed bei (mem_reverse.mp hbei))).2.2
  have hlow : Path n K ((s.chain.drop (s.height - stop)).map bl) _ := h.path.drop (s.height - stop)
  obtain ⟨hpath, hvalues⟩ := of_segment hK hval hentries hlow hb.linked
  have hlow : (s.chain.drop (s.height - stop)).length = stop := by
    rw [length_drop]
    exact Nat.sub_sub_self hb.le
  refine ⟨_, rfl, hpath, ?_, ?_⟩
  · rw [length_append, length_map, length_map, length_reverse, hlow]
  rw [← and_assoc]
  refine ⟨?_, fun upper bei lower hsplit => (hvalues _ _ _ hsplit).2⟩
  rcases hb.parentData_cases with ⟨prev, older, holder, hparent⟩ | ⟨rfl, e, below, hbelow, hparent⟩
  · obtain ⟨hheight, hvalue⟩ := hvalues [] prev older holder
    rw [hparent, halt, hvalue, hheight, holder]
    exact ⟨rfl, rfl⟩
  · have hsplit : s.chain = s.chain.take (s.height - stop) ++ e :: below := by
      rw [← hbelow, take_append_drop]
    rw [hparent, hmain, hbelow, h.stored _ e below hsplit]
    exact ⟨by rw [reverse_nil, map_nil, nil_append, length_map, length_cons], rfl⟩

end Recorded

/-- The difficulty of the next block on top of an alternative chain. -/
theorem AltBase.difficulty {stop height : Nat} (h : AltBase n s prevId altChain stop)
    (hheight : altChain.length + stop = height) :
    getNextDifficultyForAlternativeChain n s altChain height =
      requiredDifficulty n ((altChain.map BlockExtendedInfo.entry).reverse ++
        (s.chain.drop (s.height - stop)).map entry) := by
  refine altDifficulty_eq ?_ h.pos h.le hheight
  cases hc : altChain with
  | nil =>
    rw [hc, length_nil, Nat.zero_add] at hheight
    exact hheight.symm
  | cons front rest => exact (h.of_cons front rest hc).1

/-! ## A block gets into the table -/

variable {b : Block} {hf : UInt8} {a : AltBlock}

theorem checkAlternative_ok (h : checkAlternative n s b altChain timestamps hf = .ok a) :
    a.altChain = altChain ∧ a.bei.bl = b ∧
      a.bei.height = (parentData n s altChain b.prevId).1 + 1 ∧
      a.prevCumulativeDifficulty = (parentData n s altChain b.prevId).2.1 ∧
      a.currentDiff = getNextDifficultyForAlternativeChain n s altChain a.bei.height ∧
      a.bei.cumulativeDifficulty = addDifficulty a.prevCumulativeDifficulty a.currentDiff ∧
      a.bei.alreadyGeneratedCoins = nextGeneratedCoins (parentData n s altChain b.prevId).2.2
        (getOutsMoneyAmount b.minerTx.toTransactionPrefix) ∧
      a.isACheckpoint = (n.checkpoints.lookup a.bei.height).isSome ∧
      prevalidateMinerTransaction b a.bei.height hf = true := by
  unfold checkAlternative at h
  dsimp only at h
  iterate 4 (split at h; · cases h)
  split at h
  · cases h
  rename_i hpre
  cases h
  refine ⟨rfl, rfl, rfl, rfl, rfl, rfl, ?_, rfl, not_not.mp hpre⟩
  dsimp only

/-- What `handle_alternative_block` leaves alone before it decides. -/
structure AltKept (s s' : Blockchain P) : Prop where
  chain : s'.chain = s.chain
  hardFork : s'.hardFork = s.hardFork
  difficultyCache : s'.difficultyCache = s.difficultyCache.invalidate
  panics : s'.panics = s.panics

theorem AltKept.upTo {s s' : Blockchain P} (h : AltKept s s') (id : Hash) :
    s'.upTo n id = s.upTo n id := by
  rw [Blockchain.upTo, h.chain, Blockchain.upTo]

/-- The height of the first block that would change if the main chain switched to the block. -/
def AltBlock.splitHeight (a : AltBlock) : Nat := (a.altChain.head?.getD a.bei).height

variable {s' : Blockchain P} {sup : List (Hash × Transaction)}

theorem storeAlternative_ok {a0 : AltBlock} (h : storeAlternative n s a0 hf sup = (s', .ok a)) :
    (∃ weight, a = { a0 with bei := { a0.bei with blockCumulativeWeight := weight } }) ∧
      s'.chain = s.chain ∧ s'.hardFork = s.hardFork ∧ s'.difficultyCache = s.difficultyCache ∧
      s'.panics = s.panics ∧ s'.altBlocks = (n.getBlockHash a0.bei.bl, a.bei) :: s.altBlocks := by
  unfold storeAlternative at h
  dsimp only at h
  split at h
  · cases h
  split at h
  · cases h
  split at h
  · cases h
  split at h
  · cases h
  cases h
  exact ⟨⟨_, rfl⟩, rfl, rfl, rfl, rfl, rfl⟩

theorem storeAlternative_error {e : AltError}
    (h : storeAlternative n s a hf sup = (s', .error e)) : ∃ txPool, s' = { s with txPool } := by
  unfold storeAlternative at h
  dsimp only at h
  split at h
  · cases h
    exact ⟨_, rfl⟩
  split at h
  · cases h
    exact ⟨_, rfl⟩
  split at h
  · cases h
    exact ⟨_, rfl⟩
  split at h
  · cases h
    exact ⟨_, rfl⟩
  · cases h

/-- What `handle_alternative_block` found and did when it put block `b` into the table of the state
`s`. -/
structure AltStored (n : Node P) (s : Blockchain P) (b : Block) (s' : Blockchain P)
    (a : AltBlock) : Prop where
  kept : AltKept s s'
  altBlocks : s'.altBlocks = (n.getBlockHash b, a.bei) :: s.altBlocks
  bl : a.bei.bl = b
  build : ∃ timestamps, buildAltChain n s b.prevId = some (a.altChain, timestamps)
  height : a.bei.height = (parentData n s a.altChain b.prevId).1 + 1
  prevCumulativeDifficulty :
    a.prevCumulativeDifficulty = (parentData n s a.altChain b.prevId).2.1
  currentDiff : a.currentDiff = getNextDifficultyForAlternativeChain n s a.altChain a.bei.height
  cumulativeDifficulty :
    a.bei.cumulativeDifficulty = addDifficulty a.prevCumulativeDifficulty a.currentDiff
  alreadyGeneratedCoins : a.bei.alreadyGeneratedCoins =
    nextGeneratedCoins (parentData n s a.altChain b.prevId).2.2
      (getOutsMoneyAmount b.minerTx.toTransactionPrefix)
  checkpoint : a.isACheckpoint = (n.checkpoints.lookup a.bei.height).isSome
  allowed : isAlternativeBlockAllowed n.checkpoints s.height (claimedHeight b) = true
  prevalidated : ∃ hfVersion, prevalidateMinerTransaction b a.bei.height hfVersion = true

theorem acceptAlternative_stored
    (h : acceptAlternative n s b sup = (s', .ok a)) : AltStored n s b s' a := by
  unfold acceptAlternative at h
  dsimp only at h
  split at h
  · cases h
  split at h
  · cases h
  rename_i hallowed
  iterate 2 (split at h; · cases h)
  split at h
  · cases h
  rename_i altChain timestamps hbuild
  split at h
  · cases h
  rename_i a0 hcheck
  obtain ⟨⟨weight, rfl⟩, hkchain, hkfork, hkcache, hkpanics, hfiled⟩ := storeAlternative_ok h
  obtain ⟨rfl, rfl, hheight, hprev, hdiff, hcum, hcoins, hcp, hpre⟩ := checkAlternative_ok hcheck
  exact
    { kept := ⟨hkchain, hkfork, hkcache, hkpanics⟩
      altBlocks := hfiled
      bl := rfl
      build := ⟨timestamps, hbuild⟩
      height := hheight
      prevCumulativeDifficulty := hprev
      currentDiff := hdiff
      cumulativeDifficulty := hcum
      alreadyGeneratedCoins := hcoins
      checkpoint := hcp
      allowed := not_not.mp hallowed
      prevalidated := ⟨_, hpre⟩ }

theorem acceptAlternative_error {e : AltError} (h : acceptAlternative n s b sup = (s', .error e)) :
    AltKept s s' ∧ s'.altBlocks = s.altBlocks := by
  unfold acceptAlternative at h
  dsimp only at h
  iterate 4 (split at h; · cases h; exact ⟨⟨rfl, rfl, rfl, rfl⟩, rfl⟩)
  split at h
  · cases h
    exact ⟨⟨rfl, rfl, rfl, rfl⟩, rfl⟩
  split at h
  · cases h
    exact ⟨⟨rfl, rfl, rfl, rfl⟩, rfl⟩
  obtain ⟨txPool, rfl⟩ := storeAlternative_error h
  exact ⟨⟨rfl, rfl, rfl, rfl⟩, rfl⟩

end Hashmonkey.Core
