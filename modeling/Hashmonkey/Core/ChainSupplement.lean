import Mathlib.Data.List.TakeDrop
import Hashmonkey.Core.Steps

/-!
# Where two nodes agree (`blockchain.cpp`)

A node that synchronises sends ids of its main chain (`get_short_chain_history`): the last ten
blocks, then ever fewer, and the genesis block. The other node looks for the first id that is on its
own main chain (`find_blockchain_supplement`) and continues from there.

* `shortHistoryLoop`: the loop over the offsets, with the function that reads an id as a parameter.
  Offsets are natural numbers: they stay below twice the height, which is far below `2 ^ 63`;
* `findBlockchainSupplement`: `none` stands for `false` and for an exception of the database;
* `LinkedChain`: the blocks of a main chain name their parents and have different ids. This holds in
  every state of a node (`NodeRun.linkedChain`);
* `forkHeight`: the height of the last block up to which two main chains have the same ids.

Result: **`findBlockchainSupplement_shortHistory`**, the search succeeds on the history of any node
with the same genesis block and finds the highest block of the history that both nodes have, or two
blocks of the chains have the same id and different parents. `nodes_agree` is for any two runs.
-/

namespace Hashmonkey.Core

open Basic Lib List StoredBlock

variable {P : Type} (n : Node P)

/-! ## The history -/

/-- The loop of `get_short_chain_history`, which also finds out whether the genesis block was
included. -/
def shortHistoryLoop {α : Type} (hashAt : Nat → α) (sz : Nat) :
    Nat → (i currentMultiplier currentBackOffset : Nat) → Bool → List α × Bool
  | 0, _, _, _, genesisIncluded => ([], genesisIncluded)
  | fuel + 1, i, currentMultiplier, currentBackOffset, genesisIncluded =>
    if currentBackOffset < sz then
      let height := sz - currentBackOffset
      let genesisIncluded := genesisIncluded || height = 0
      let next :=
        if i < 10 then (currentMultiplier, currentBackOffset + 1)
        else (currentMultiplier * 2, currentBackOffset + currentMultiplier * 2)
      let rest := shortHistoryLoop hashAt sz fuel (i + 1) next.1 next.2 genesisIncluded
      (hashAt height :: rest.1, rest.2)
    else ([], genesisIncluded)

/-- `get_short_chain_history`: the offset grows in every round, so there are fewer rounds than
blocks. -/
def Blockchain.getShortChainHistory (s : Blockchain P) : List Hash :=
  if s.height = 0 then []
  else
    let (ids, genesisIncluded) :=
      shortHistoryLoop (s.getBlockIdByHeight n) s.height s.height 0 1 1 false
    if genesisIncluded then ids else ids ++ [s.getBlockIdByHeight n 0]

/-- `find_blockchain_supplement`. -/
def Blockchain.findBlockchainSupplement (s : Blockchain P) (qblockIds : List Hash) : Option Nat :=
  match qblockIds.getLast? with
  | none => none
  | some last =>
    -- `get_block_hash_from_height` throws if there is no genesis block
    if s.height = 0 then none
    else if last ≠ s.getBlockIdByHeight n 0 then none
    else (qblockIds.find? fun id => s.blockExists n id).map (s.getBlockHeight n)

variable {n}

/-- What the loop collects from an offset on. -/
structure HistoryHeights (sz currentBackOffset : Nat) (heights : List Nat) : Prop where
  /-- the highest block first, and lower ones behind it -/
  descending : heights.Pairwise (· > ·)
  head : currentBackOffset < sz → heights.head? = some (sz - currentBackOffset)
  mem : ∀ h ∈ heights, 0 < h ∧ h + currentBackOffset ≤ sz

/-- The loop reads the ids of heights that do not depend on what is read. It never gets to height
zero, and more fuel than there are blocks left changes nothing. -/
theorem shortHistoryLoop_spec {sz fuel i m offset : Nat} (hm : 0 < m) (hoffset : 0 < offset)
    (hfuel : sz ≤ fuel + offset) :
    ∃ heights, HistoryHeights sz offset heights ∧ ∀ (α : Type) (hashAt : Nat → α) (k : Nat),
      shortHistoryLoop hashAt sz (fuel + k) i m offset false = (heights.map hashAt, false) := by
  induction fuel generalizing i m offset with
  | zero =>
    have hdone : ¬ offset < sz := by omega
    refine ⟨[], ⟨List.Pairwise.nil, fun h => absurd h hdone, nofun⟩, fun α hashAt k => ?_⟩
    cases k with
    | zero => rfl
    | succ k => rw [Nat.zero_add, shortHistoryLoop, if_neg hdone, map_nil]
  | succ fuel ih =>
    by_cases hmore : offset < sz
    · have hnext : ∃ m' offset', 0 < m' ∧ offset < offset' ∧
          (if i < 10 then (m, offset + 1) else (m * 2, offset + m * 2)) = (m', offset') := by
        split
        · exact ⟨m, offset + 1, hm, Nat.lt_succ_self _, rfl⟩
        · exact ⟨m * 2, offset + m * 2, by omega, by omega, rfl⟩
      obtain ⟨m', offset', hm', hlt, hstep⟩ := hnext
      obtain ⟨heights, hheights, hloop⟩ :=
        ih (i := i + 1) hm' (hoffset.trans hlt) (by omega : sz ≤ fuel + offset')
      refine ⟨(sz - offset) :: heights, ⟨?_, fun _ => rfl, ?_⟩, fun α hashAt k => ?_⟩
      · rw [pairwise_cons]
        refine ⟨fun h hh => ?_, hheights.descending⟩
        have := hheights.mem h hh
        omega
      · intro h hh
        rcases mem_cons.mp hh with rfl | hh
        · omega
        have := hheights.mem h hh
        omega
      · have hheight : ¬ sz - offset = 0 := by omega
        rw [Nat.succ_add, shortHistoryLoop, if_pos hmore]
        simp only [hstep, Bool.false_or, decide_eq_false hheight, hloop, map_cons]
    · refine ⟨[], ⟨List.Pairwise.nil, fun h => absurd h hmore, nofun⟩, fun α hashAt k => ?_⟩
      rw [Nat.succ_add, shortHistoryLoop, if_neg hmore, map_nil]

/-- The heights that a history lists: descending, from the tip to the genesis block. -/
structure FromTipToGenesis (height : Nat) (heights : List Nat) : Prop where
  descending : heights.Pairwise (· > ·)
  tip : heights.head? = some (height - 1)
  genesis : heights.getLast? = some 0

variable {s : Blockchain P}

/-- **The history lists the ids of descending heights** from the tip to the genesis block. -/
theorem getShortChainHistory_heights (hs : 0 < s.height) :
    ∃ heights, FromTipToGenesis s.height heights ∧
      s.getShortChainHistory n = heights.map (s.getBlockIdByHeight n) := by
  obtain ⟨heights, hheights, hloop⟩ :=
    shortHistoryLoop_spec (i := 0) Nat.one_pos Nat.one_pos (Nat.le_add_right s.height 1)
  refine ⟨heights ++ [0], ⟨?_, ?_, getLast?_concat⟩, ?_⟩
  · rw [pairwise_append]
    refine ⟨hheights.descending, pairwise_singleton _ _, ?_⟩
    intro h hh z hz
    rw [mem_singleton.mp hz]
    exact (hheights.mem h hh).1
  · rw [head?_append]
    by_cases hone : 1 < s.height
    · rw [hheights.head hone]
      rfl
    · -- the genesis block is the tip
      have hnil : heights = [] := by
        refine eq_nil_iff_forall_not_mem.mpr fun h hh => ?_
        have := hheights.mem h hh
        omega
      rw [hnil, head?_nil, Option.none_or, head?_singleton]
      congr 1
      omega
  · have hid := hloop Hash (s.getBlockIdByHeight n) 0
    rw [Nat.add_zero] at hid
    rw [Blockchain.getShortChainHistory, if_neg (Nat.ne_of_gt hs), hid, map_append, map_singleton]
    rfl

/-! ## Linked chains -/

/-- The ids of a chain, newest first. -/
def idsOf (n : Node P) (chain : List StoredBlock) : List Hash :=
  (chain.map bl).map n.getBlockHash

/-- Every block of a chain but the first names the one below it, and no id occurs twice. -/
structure LinkedChain (n : Node P) (chain : List StoredBlock) : Prop where
  linked : ∃ bottom, Segment n.getBlockHash (fun b => b.prevId) (chain.map bl)
    (topId n chain) bottom
  distinct : (idsOf n chain).Nodup

theorem LinkedChain.nil : LinkedChain n [] := ⟨⟨_, rfl⟩, nodup_nil⟩

theorem LinkedChain.drop {chain : List StoredBlock} (h : LinkedChain n chain) (k : Nat) :
    LinkedChain n (chain.drop k) := by
  rw [← take_append_drop k chain] at h
  cases hlower : chain.drop k with
  | nil => exact .nil
  | cons e lower =>
    rw [hlower] at h
    obtain ⟨bottom, hseg⟩ := h.linked
    have hdistinct := h.distinct
    rw [map_append] at hseg
    rw [idsOf, map_append, map_append] at hdistinct
    obtain ⟨mid, hmid⟩ := hseg.of_append
    exact ⟨⟨bottom, rfl, hmid.2⟩, hdistinct.of_append_right⟩

theorem blockExists_iff {id : Hash} :
    s.blockExists n id = true ↔ id ∈ idsOf n s.chain := by
  rw [Blockchain.blockExists, Bool.not_eq_true', isEmpty_eq_false_iff, Blockchain.upTo, idsOf,
    map_map]
  induction s.chain with
  | nil => simp
  | cons e chain ih =>
    by_cases he : n.getBlockHash e.bl = id
    · simp [he]
    rw [dropWhile_cons_of_pos (by simpa using he), ih, map_cons, mem_cons]
    exact ⟨.inr, Or.rec (fun h => absurd h.symm he) fun h => h⟩

theorem LinkedChain.step {K : Set Block} {X : Set (Hash × Transaction)} {s s' : Blockchain P}
    (h : LinkedChain n s.chain) (hstep : NodeStep n K X s s') : LinkedChain n s'.chain := by
  cases hstep with
  | add _ _ hadd =>
    have hadd := handleBlockToMainChain_ok hadd
    obtain ⟨e, hchain, rfl, -⟩ := hadd.chain
    obtain ⟨bottom, hseg⟩ := h.linked
    have hprev : e.bl.prevId = topId n s.chain := hadd.prev
    have hnew := hadd.unknown
    rw [← Bool.not_eq_true, blockExists_iff] at hnew
    rw [hchain]
    rw [← hprev] at hseg
    exact ⟨⟨bottom, rfl, hseg⟩, nodup_cons.mpr ⟨hnew, h.distinct⟩⟩
  | pop hpop =>
    rw [hpop.chain] at h
    exact h.drop 1
  | forks => exact h
  | file _ hst => exact hst.kept.chain ▸ h
  | unfile => exact h
  | reset => exact h
  | query => exact h
  | cleanup => exact h
  | other hchain => exact hchain ▸ h

/-- The main chain of every state of a node is linked. -/
theorem NodeRun.linkedChain {K : Set Block} {X : Set (Hash × Transaction)}
    (h : NodeRun n K X s) : LinkedChain n s.chain := by
  refine NodeRun.invariant (I := fun s => LinkedChain n s.chain) (fun s hfresh => ?_)
    (fun _ _ hstep hs => hs.step hstep) h
  rw [hfresh.chain]
  exact .nil

/-! ## Common blocks -/

/-- Up to a height, two nodes have the same ids on their main chains. -/
def AgreeUpTo (n : Node P) (s t : Blockchain P) (h : Nat) : Prop :=
  h < s.height ∧ h < t.height ∧ ∀ i ≤ h, s.getBlockIdByHeight n i = t.getBlockIdByHeight n i

instance (s t : Blockchain P) : DecidablePred (AgreeUpTo n s t) := fun h =>
  inferInstanceAs (Decidable (h < s.height ∧ h < t.height ∧
    ∀ i ≤ h, s.getBlockIdByHeight n i = t.getBlockIdByHeight n i))

/-- The height of the last common block of two main chains, zero if there is none. -/
def forkHeight (n : Node P) (s t : Blockchain P) : Nat :=
  Nat.findGreatest (AgreeUpTo n s t) s.height

/-- A block of one chain and a block of the other have the same id and different parents. -/
def Collide (n : Node P) (a b : List StoredBlock) : Prop :=
  ∃ e ∈ a, ∃ e' ∈ b, n.getBlockHash e.bl = n.getBlockHash e'.bl ∧ e.bl.prevId ≠ e'.bl.prevId

instance (a b : List StoredBlock) : Decidable (Collide n a b) :=
  inferInstanceAs (Decidable (∃ e ∈ a, ∃ e' ∈ b,
    n.getBlockHash e.bl = n.getBlockHash e'.bl ∧ e.bl.prevId ≠ e'.bl.prevId))

theorem topId_eq_of_ids_eq {a b : List StoredBlock} (h : idsOf n a = idsOf n b) :
    topId n a = topId n b := by
  have htop : ∀ c, topId n c = ((idsOf n c).head?).getD nullHash := by
    rintro (_ | ⟨e, c⟩) <;> rfl
  rw [htop, htop, h]

theorem idsOf_drop (chain : List StoredBlock) (k : Nat) :
    idsOf n (chain.drop k) = (idsOf n chain).drop k := by
  rw [idsOf, idsOf, map_drop, map_drop]

/-- The genesis block is the last one of every lower part of the chain. -/
theorem id_getLast_drop {k : Nat} (hk : k < s.height)
    (hne : (s.chain.drop k).map bl ≠ []) :
    n.getBlockHash (((s.chain.drop k).map bl).getLast hne) =
      s.getBlockIdByHeight n 0 := by
  have hpos : 0 < s.height := Nat.zero_lt_of_lt hk
  have hchain : s.chain ≠ [] := length_pos_iff.mp hpos
  rw [getBlockIdByHeight_eq hpos, getLast_map, getLast_drop, Blockchain.height,
    drop_length_sub_one hchain, topId_cons]

/-- Two chains down from a common id to the genesis block have the same ids. -/
theorem LinkedChain.ids_eq {s t : Blockchain P} (hs : LinkedChain n s.chain)
    (ht : LinkedChain n t.chain) (hgenesis : s.getBlockIdByHeight n 0 = t.getBlockIdByHeight n 0)
    (hcollide : ¬ Collide n s.chain t.chain) {j k : Nat} (hj : j < s.height) (hk : k < t.height)
    (htop : topId n (s.chain.drop j) = topId n (t.chain.drop k)) :
    idsOf n (s.chain.drop j) = idsOf n (t.chain.drop k) := by
  obtain ⟨_, hseg⟩ := (hs.drop j).linked
  obtain ⟨_, hseg'⟩ := (ht.drop k).linked
  rw [htop] at hseg
  have hne : (s.chain.drop j).map bl ≠ [] := by simpa [Blockchain.height] using hj
  have hne' : (t.chain.drop k).map bl ≠ [] := by simpa [Blockchain.height] using hk
  refine segment_ids_eq hseg hseg' hne hne' ?_ (hs.drop j).distinct (ht.drop k).distinct ?_
  · rw [id_getLast_drop hj, id_getLast_drop hk, hgenesis]
  · intro x hx y hy hxy
    by_contra hprev
    obtain ⟨e, he, rfl⟩ := mem_map.mp hx
    obtain ⟨e', he', rfl⟩ := mem_map.mp hy
    exact hcollide ⟨e, mem_of_mem_drop he, e', mem_of_mem_drop he', hxy, hprev⟩

/-- **A common id is at the same height** on both chains, and the blocks below it are common. -/
theorem agreeUpTo_of_common {s t : Blockchain P} (hs : LinkedChain n s.chain)
    (ht : LinkedChain n t.chain) (hgenesis : s.getBlockIdByHeight n 0 = t.getBlockIdByHeight n 0)
    (hcollide : ¬ Collide n s.chain t.chain) {h : Nat} (hh : h < t.height)
    (hcommon : s.blockExists n (t.getBlockIdByHeight n h) = true) :
    s.getBlockHeight n (t.getBlockIdByHeight n h) = h ∧ AgreeUpTo n s t h := by
  obtain ⟨htop, hne⟩ := topId_upTo hcommon
  have hdrop := upTo_eq_drop (n := n) s (t.getBlockIdByHeight n h)
  have hle : (s.upTo n (t.getBlockIdByHeight n h)).length ≤ s.height :=
    (dropWhile_suffix _).length_le
  have hpos := length_pos_iff.mpr hne
  rw [Blockchain.getBlockHeight]
  generalize (s.upTo n (t.getBlockIdByHeight n h)).length = len at hdrop hle hpos
  rw [hdrop, getBlockIdByHeight_eq hh] at htop
  have hids := hs.ids_eq ht hgenesis hcollide (j := s.height - len) (k := t.height - (h + 1))
    (by omega) (by omega) htop
  have hlen : len = h + 1 := by
    have hlengths := congrArg List.length hids
    simp only [idsOf, length_map, length_drop] at hlengths
    change s.height - (s.height - len) = t.height - (t.height - (h + 1)) at hlengths
    omega
  subst hlen
  refine ⟨Nat.add_sub_cancel _ _, hle, hh, fun i hi => ?_⟩
  -- lower down, both chains are the same number of blocks below the common one
  have hlower := congrArg (List.drop (h - i)) hids
  rw [← idsOf_drop, ← idsOf_drop, drop_drop, drop_drop] at hlower
  rw [getBlockIdByHeight_eq (Nat.lt_of_le_of_lt hi hle),
    getBlockIdByHeight_eq (Nat.lt_of_le_of_lt hi hh)]
  refine topId_eq_of_ids_eq ?_
  convert hlower using 3 <;> omega

/-! ## The search -/

/-- The first height of a descending list for which something holds is the greatest one. -/
theorem isGreatest_find {heights : List Nat} (hdesc : heights.Pairwise (· > ·)) {p : Nat → Bool}
    {h : Nat} (hfind : heights.find? p = some h) : IsGreatest {h | h ∈ heights ∧ p h = true} h := by
  obtain ⟨hp, before, after, rfl, hbefore⟩ := find?_eq_some_iff_append.mp hfind
  refine ⟨⟨mem_append_right _ mem_cons_self, hp⟩, ?_⟩
  rintro h' ⟨hmem, hp'⟩
  rw [pairwise_append, pairwise_cons] at hdesc
  rcases mem_append.mp hmem with hmem | hmem
  · have hnot := hbefore h' hmem
    rw [hp'] at hnot
    cases hnot
  · rcases mem_cons.mp hmem with rfl | hmem
    · exact Nat.le_refl _
    · exact Nat.le_of_lt (hdesc.2.1.1 h' hmem)

/-- **Where synchronisation continues.** On the history of another main chain with the same genesis
block, `find_blockchain_supplement` succeeds. The history lists descending heights from the tip to
the genesis block, and the height that is found is the greatest of these whose block is on both
chains, at most the height of the fork, unless two blocks of the chains collide. -/
theorem findBlockchainSupplement_shortHistory (n : Node P) (s t : Blockchain P)
    (hs : LinkedChain n s.chain) (ht : LinkedChain n t.chain) (hspos : 0 < s.height)
    (htpos : 0 < t.height)
    (hgenesis : s.getBlockIdByHeight n 0 = t.getBlockIdByHeight n 0) :
    ∃ heights start, FromTipToGenesis t.height heights ∧
      t.getShortChainHistory n = heights.map (t.getBlockIdByHeight n) ∧
      s.findBlockchainSupplement n (t.getShortChainHistory n) = some start ∧
      (Collide n s.chain t.chain ∨
        IsGreatest {h | h ∈ heights ∧ s.blockExists n (t.getBlockIdByHeight n h) = true} start ∧
          start ≤ forkHeight n s t) := by
  obtain ⟨heights, hheights, hhistory⟩ := getShortChainHistory_heights (n := n) htpos
  have hlast : (t.getShortChainHistory n).getLast? = some (s.getBlockIdByHeight n 0) := by
    rw [hhistory, getLast?_map, hheights.genesis, Option.map_some, hgenesis]
  -- the search ends at the genesis block at the latest
  have hfirst : s.blockExists n (t.getBlockIdByHeight n 0) = true := by
    have hne : s.chain.map bl ≠ [] := by
      rwa [ne_eq, map_eq_nil_iff, ← ne_eq, ← length_pos_iff]
    rw [← hgenesis, ← id_getLast_drop (k := 0) hspos hne, blockExists_iff]
    exact mem_map_of_mem (getLast_mem hne)
  obtain ⟨h, hfind⟩ : ∃ h, heights.find? (fun h => s.blockExists n (t.getBlockIdByHeight n h)) =
      some h := by
    rw [← Option.isSome_iff_exists, find?_isSome]
    exact ⟨0, mem_of_getLast? hheights.genesis, hfirst⟩
  refine ⟨heights, s.getBlockHeight n (t.getBlockIdByHeight n h), hheights, hhistory, ?_, ?_⟩
  · rw [Blockchain.findBlockchainSupplement, hlast]
    dsimp only
    rw [if_neg (Nat.ne_of_gt hspos), if_neg (not_not.mpr rfl), hhistory, find?_map,
      Function.comp_def, hfind]
    rfl
  · by_cases hcollide : Collide n s.chain t.chain
    · exact .inl hcollide
    · have hgreatest := isGreatest_find hheights.descending hfind
      have hlt : h < t.height := by
        have htip := hheights.tip
        have hdesc := hheights.descending
        cases heights with
        | nil => cases htip
        | cons top lower =>
          rw [head?_cons, Option.some.injEq] at htip
          rcases mem_cons.mp hgreatest.1.1 with rfl | hmem
          · omega
          have := (pairwise_cons.mp hdesc).1 h hmem
          omega
      obtain ⟨hheight, hagree⟩ := agreeUpTo_of_common hs ht hgenesis hcollide hlt hgreatest.1.2
      rw [hheight]
      exact .inr ⟨hgreatest, Nat.le_findGreatest (Nat.le_of_lt hagree.1) hagree⟩

/-- The main chain has the genesis block, a block on it, and a block on that, with these nonces. -/
def sampleBranch (nonce nonce' : UInt8) : Blockchain Unit :=
  [sampleBlock 1 0 1 0 17592186044415, sampleBlock 1 1 nonce 1 17592169267200,
    sampleBlock 2 2 nonce' nonce 1000].foldl (sampleSubmit (sampleNode 0)) { txPool := () }

/-- The block on the genesis block is the one that is an alternative for `sampleFork`. -/
def sampleForeign : Blockchain Unit := sampleBranch 3 4

/-- The history of three blocks is searched by a node that has only the genesis block of them. -/
theorem findBlockchainSupplement_shortHistory_fork :
    ∃ heights, FromTipToGenesis 3 heights ∧
      sampleForeign.getShortChainHistory (sampleNode 0) =
        heights.map (sampleForeign.getBlockIdByHeight (sampleNode 0)) ∧
      sampleFork.findBlockchainSupplement (sampleNode 0)
        (sampleForeign.getShortChainHistory (sampleNode 0)) = some 0 ∧
      IsGreatest {h | h ∈ heights ∧ sampleFork.blockExists (sampleNode 0)
        (sampleForeign.getBlockIdByHeight (sampleNode 0) h) = true} 0 := by
  have hrun : ∀ bs : List Block, NodeRun (sampleNode 0) Set.univ Set.univ
      (bs.foldl (sampleSubmit (sampleNode 0)) { txPool := () }) := fun bs =>
    ⟨_, ⟨rfl, rfl, rfl, rfl⟩, operations_sampleSubmit bs (fun b _ => Set.mem_univ b) _⟩
  obtain ⟨heights, start, hheights, hhistory, hfound, hrest⟩ :=
    findBlockchainSupplement_shortHistory (sampleNode 0) sampleFork sampleForeign
      (hrun _).linkedChain (hrun _).linkedChain (by decide +kernel) (by decide +kernel)
      (by decide +kernel)
  have hzero : sampleFork.findBlockchainSupplement (sampleNode 0)
      (sampleForeign.getShortChainHistory (sampleNode 0)) = some 0 := by decide +kernel
  cases Option.some.inj (hzero.symm.trans hfound)
  have hlen : sampleForeign.height = 3 := by decide +kernel
  exact ⟨heights, hlen ▸ hheights, hhistory, hzero,
    (hrest.resolve_left (by decide +kernel)).1⟩

/-- **Nodes agree below every block they share.** Whatever two nodes with the same genesis block
have received, a block of one main chain that the other node has is at the same height there, and
both chains have the same blocks up to it, unless a block of one chain has the id of another block
of the other. -/
theorem nodes_agree {K K' : Set Block} {X X' : Set (Hash × Transaction)} {s t : Blockchain P}
    (hs : NodeRun n K X s) (ht : NodeRun n K' X' t)
    (hgenesis : s.getBlockIdByHeight n 0 = t.getBlockIdByHeight n 0)
    (hcollide : ∀ b ∈ s.blocks, ∀ b' ∈ t.blocks, n.getBlockHash b = n.getBlockHash b' → b = b')
    {k : Nat} (hk : k < t.height)
    (hshared : s.blockExists n (t.getBlockIdByHeight n k) = true) :
    s.getBlockHeight n (t.getBlockIdByHeight n k) = k ∧
      s.blocks.drop (s.height - (k + 1)) = t.blocks.drop (t.height - (k + 1)) := by
  have hparents : ¬ Collide n s.chain t.chain := by
    rintro ⟨e, he, e', he', hid, hprev⟩
    exact hprev (by rw [hcollide _ (mem_map_of_mem he) _ (mem_map_of_mem he') hid])
  obtain ⟨hheight, hks, -, hids⟩ :=
    agreeUpTo_of_common hs.linkedChain ht.linkedChain hgenesis hparents hk hshared
  have htop := hids k le_rfl
  rw [getBlockIdByHeight_eq hks, getBlockIdByHeight_eq hk] at htop
  have hsame : (s.blocks.drop (s.height - (k + 1))).map n.getBlockHash =
      (t.blocks.drop (t.height - (k + 1))).map n.getBlockHash := by
    rw [Blockchain.blocks, Blockchain.blocks, ← map_drop, ← map_drop]
    exact hs.linkedChain.ids_eq ht.linkedChain hgenesis hparents (by omega) (by omega) htop
  refine ⟨hheight, ext_getElem (by simpa using congrArg List.length hsame) fun i hi hi' => ?_⟩
  refine hcollide _ (mem_of_mem_drop (getElem_mem hi)) _ (mem_of_mem_drop (getElem_mem hi')) ?_
  simpa using getElem_of_eq hsame (by simpa using hi)

/-- Two chains that part after the first block on the genesis block. -/
theorem nodes_agree_fork : (sampleBranch 2 4).blocks ≠ (sampleBranch 2 5).blocks ∧
    (sampleBranch 2 4).blocks.drop 1 = (sampleBranch 2 5).blocks.drop 1 := by
  have hrun (nonce : UInt8) : NodeRun (sampleNode 0) Set.univ ∅ (sampleBranch 2 nonce) :=
    ⟨_, ⟨rfl, rfl, rfl, rfl⟩, operations_sampleSubmit _ (fun b _ => Set.mem_univ b) _⟩
  have hheight : (sampleBranch 2 4).height = 3 ∧ (sampleBranch 2 5).height = 3 := by
    decide +kernel
  have hagree := (nodes_agree (hrun 4) (hrun 5) (by decide +kernel) (by decide +kernel) (k := 1)
    (by decide +kernel) (by decide +kernel)).2
  rw [hheight.1, hheight.2] at hagree
  exact ⟨by decide +kernel, hagree⟩

end Hashmonkey.Core
