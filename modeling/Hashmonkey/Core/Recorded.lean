import Hashmonkey.Core.Steps

/-!
# What is recorded with a block (`blockchain.cpp`)

The main chain and the table of alternative blocks each keep, with a block, quantities that grow
along its chain: the cumulative difficulty and the coins generated. The two are computed by
different code from different data.

`Recorded` (`Core/AltWork`) says that both record one function `value` of the path of a block, for
all blocks of a state. Whatever the quantity is, the steps of a node keep this as long as a block
that is added and a block that is filed get the value of their path (`Recorded.step`); the rest is
bookkeeping about paths. Cumulative difficulties are one case (`Core/Sound`), coins another
(`Core/AltCoins`), and with nothing recorded it is about heights alone (`Core/CheckpointRuns`).
-/

namespace Hashmonkey.Core

open Basic Lib List BlockExtendedInfo

variable {P V : Type} {n : Node P} {K : Set Block} {X : Set (Hash × Transaction)}
  {s s' : Blockchain P} {main : StoredBlock → V} {alt : BlockExtendedInfo → V}
  {value : List Block → V}

namespace Recorded

theorem fresh (h : Fresh s) : Recorded n K main alt value s := by
  refine ⟨?_, ?_, ?_⟩
  · rw [Blockchain.blocks, Blockchain.topBlockHash, h.chain]
    exact Path.nil
  · intro upper e lower hsplit
    rw [h.chain] at hsplit
    exact absurd hsplit.symm (append_ne_nil_of_right_ne_nil _ (cons_ne_nil _ _))
  · rw [h.altBlocks]
    exact forall_mem_nil _

section

variable (h : Recorded n K main alt value s)

include h

/-- Only the chain and the table matter. -/
theorem congr (hchain : s'.chain = s.chain)
    (halt : s'.altBlocks = s.altBlocks) : Recorded n K main alt value s' := by
  refine ⟨?_, hchain ▸ h.stored, halt ▸ h.filed⟩
  rw [Blockchain.blocks, Blockchain.topBlockHash, hchain]
  exact h.path

theorem altFiled : AltFiled n s.altBlocks :=
  fun x hx => ⟨(h.filed x hx).1, (h.filed x hx).2.1⟩

theorem known : Known K s := by
  refine ⟨fun e he => h.path.known e.bl (mem_map_of_mem he), fun x hx => ?_⟩
  obtain ⟨-, -, path, hpath, -⟩ := h.filed x hx
  exact hpath.known _ mem_cons_self

/-- The lower part of the main chain is a path. -/
theorem path_drop (k : Nat) :
    Path n K ((s.chain.drop k).map StoredBlock.bl) (topId n (s.chain.drop k)) :=
  h.path.drop k

theorem popped {e : StoredBlock} (hpop : Popped n s e s') :
    Recorded n K main alt value s' := by
  refine ⟨?_, ?_, hpop.altBlocks ▸ h.filed⟩
  · have hlow := h.path_drop 1
    rw [hpop.chain, drop_one, tail_cons] at hlow
    exact hlow
  · intro upper e' lower hsplit
    refine h.stored (e :: upper) e' lower ?_
    rw [hpop.chain, hsplit, cons_append]

theorem added {b : Block} {r : BlockReport}
    (hadd : Added n s b s' r) (hb : b ∈ K)
    (hvalue : ∀ e, s'.chain = e :: s.chain → main e = value (e.bl :: s.blocks)) :
    Recorded n K main alt value s' := by
  obtain ⟨e, hchain, rfl, -⟩ := hadd.chain
  have hpath : Path n K s.blocks e.bl.prevId := hadd.prev ▸ h.path
  refine ⟨?_, ?_, hadd.altBlocks ▸ h.filed⟩
  · rw [Blockchain.blocks, Blockchain.topBlockHash, hchain]
    exact hpath.cons hb
  · intro upper e' lower hsplit
    rw [hchain] at hsplit
    cases upper with
    | nil =>
      cases hsplit
      exact hvalue e hchain
    | cons top upper => exact h.stored upper e' lower (List.cons.inj hsplit).2

theorem file {b : Block} {a : AltBlock}
    (hst : AltStored n s b s' a) {path : List Block}
    (hpath : Path n K (b :: path) (n.getBlockHash b)) (hlen : path.length = a.bei.height)
    (hvalue : alt a.bei = value (b :: path)) : Recorded n K main alt value s' := by
  have hkept : Recorded n K main alt value { s' with altBlocks := s.altBlocks } :=
    h.congr hst.kept.chain rfl
  refine ⟨hkept.path, hkept.stored, ?_⟩
  rw [hst.altBlocks]
  have hpos : 0 < a.bei.height := hst.height ▸ Nat.succ_pos _
  refine forall_mem_cons.mpr ⟨⟨by rw [hst.bl], hpos, path, ?_, hlen, ?_⟩, h.filed⟩
  · rw [hst.bl]
    exact hpath
  · rw [hst.bl]
    exact hvalue

theorem unfile (p : Hash × BlockExtendedInfo → Bool) :
    Recorded n K main alt value { s with altBlocks := s.altBlocks.filter p } :=
  ⟨h.path, h.stored, fun x hx => h.filed x (mem_of_mem_filter hx)⟩

end

/-- **The step lemma**: it is enough that a block that is added gets the value of its path, and a
block that is filed the value that follows from its parent's. -/
theorem step (hK : CollisionFree n K)
    (hval : ∀ path path' top, Path n K path top → Path n K path' top → value path = value path')
    (h : Recorded n K main alt value s) (pick : Nat × Nat × UInt64 → V)
    (hmain : ∀ height e, pick (height, e.cumulativeDifficulty, e.alreadyGeneratedCoins) = main e)
    (halt : ∀ bei, pick (bei.height, bei.cumulativeDifficulty, bei.alreadyGeneratedCoins) = alt bei)
    (hstep : NodeStep n K X s s')
    (hadd : ∀ b sup r, b ∈ K → (∀ x ∈ sup, x ∈ X) →
      handleBlockToMainChain n s b sup = (s', .ok r) →
      ∀ e, s'.chain = e :: s.chain → main e = value (e.bl :: s.blocks))
    (hfile : ∀ b a path, AltStored n s b s' a →
      pick (parentData n s a.altChain b.prevId) = value path → alt a.bei = value (b :: path)) :
    Recorded n K main alt value s' := by
  cases hstep with
  | add hb hsup hrun => exact h.added (handleBlockToMainChain_ok hrun) hb (hadd _ _ _ hb hsup hrun)
  | pop hpop => exact h.popped hpop
  | forks height => exact h.congr rfl rfl
  | file hb hst =>
    obtain ⟨timestamps, hbuild⟩ := hst.build
    obtain ⟨stop, hbase⟩ := buildAltChain_some h.altFiled hbuild
    obtain ⟨path, -, hpath, -, hheight, hvalue, -⟩ := altBase hK hval h pick hmain halt hbase
    exact h.file hst (hpath.cons hb) (hheight.symm.trans hst.height.symm) (hfile _ _ _ hst hvalue)
  | unfile p => exact h.unfile p
  | reset => exact h.congr rfl rfl
  | query => exact h.congr rfl rfl
  | cleanup => exact h.congr rfl rfl
  | other hchain halt _ _ => exact h.congr hchain halt

end Recorded

end Hashmonkey.Core
