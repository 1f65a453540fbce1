import Hashmonkey.Protocol.BlockQueue
import Mathlib.Data.Nat.ModEq
import Mathlib.Order.Bounds.Basic

/-!
# Heights of spans (`cryptonote_protocol/block_queue.cpp`, `common/pruning.cpp`)

Which heights a node asks its peers for next, and which of them a peer that prunes has in full:

* `getNextNeededHeight`: the first height that is in no span of the queue;
* `getNextUnprunedBlockHeight`, `getNextPrunedBlockHeight`: the next block that a node with a
  pruning seed keeps, or has dropped;
* `reserveSpan` (`Protocol/BlockQueue`): the heights that one peer is asked for.

Results: **`getNextNeededHeight` and `getNextUnprunedBlockHeight` find the least height that they
look for** (`next_needed_isLeast`, `next_unpruned_isLeast`), `getNextPrunedBlockHeight` only where
the next stripe begins before the last blocks (`next_pruned_iff`); `next_pruned_kept` is a block
that it finds although the node keeps it. `reserveSpan_heights` says what is asked of each height
of a span. Heights are natural numbers.
-/

namespace Hashmonkey.Protocol

open Std Basic Db Serialization List

variable {β : Type} {q : BlockQueue β}

/-! ## The next height that is needed -/

/-- The loop of `get_next_needed_height` over the spans. -/
def nextNeededLoop (blockchainHeight : Nat) : Nat → List (Nat × Span β) → Nat
  | coveredUntil, [] => coveredUntil
  | coveredUntil, s :: spans =>
    -- the last height of the span, in 64 bits
    if (s.1 + s.2.nblocks + (2 ^ 64 - 1)) % 2 ^ 64 < blockchainHeight then
      nextNeededLoop blockchainHeight coveredUntil spans
    else if s.1 > coveredUntil then coveredUntil
    else
      nextNeededLoop blockchainHeight (max coveredUntil ((s.1 + s.2.nblocks) % 2 ^ 64)) spans

/-- `get_next_needed_height`. -/
def BlockQueue.getNextNeededHeight (q : BlockQueue β) (blockchainHeight : Nat) : Nat :=
  nextNeededLoop blockchainHeight blockchainHeight q.blocks.toList

/-- A height is one of a span. -/
def SpanCovers (s : Nat × Span β) (h : Nat) : Prop := s.1 ≤ h ∧ h < s.1 + s.2.nblocks

/-- From a height on, the loop passes heights that are covered, up to one that is not. -/
theorem nextNeededLoop_spec {bh : Nat} {spans : List (Nat × Span β)}
    (hsorted : spans.Pairwise fun s t => s.1 < t.1)
    (hend : ∀ s ∈ spans, s.1 + s.2.nblocks < 2 ^ 64) {c : Nat} (hc : bh ≤ c) :
    c ≤ nextNeededLoop bh c spans ∧
      (∀ h, c ≤ h → h < nextNeededLoop bh c spans → ∃ s ∈ spans, SpanCovers s h) ∧
      ∀ s ∈ spans, ¬ SpanCovers s (nextNeededLoop bh c spans) := by
  induction spans generalizing c with
  | nil => exact ⟨Nat.le_refl c, fun h h1 h2 => absurd h2 (Nat.not_lt.mpr h1), by simp⟩
  | cons s spans ih =>
    obtain ⟨hs, hsorted⟩ := pairwise_cons.mp hsorted
    obtain ⟨hsend, hend⟩ := forall_mem_cons.mp hend
    rw [nextNeededLoop, Nat.mod_eq_of_lt hsend, forall_mem_cons]
    split
    · -- the span ends below the chain's height
      rename_i hbelow
      obtain ⟨hle, hcov, hnot⟩ := ih hsorted hend hc
      refine ⟨hle, fun h h1 h2 => ?_, fun hcovers => ?_, hnot⟩
      · obtain ⟨t, ht, hth⟩ := hcov h h1 h2
        exact ⟨t, mem_cons_of_mem s ht, hth⟩
      · unfold SpanCovers at hcovers
        omega
    · split
      · -- the span starts after a gap, and so do the next ones
        rename_i hgap
        refine ⟨Nat.le_refl c, fun h h1 h2 => absurd h2 (Nat.not_lt.mpr h1), fun hcovers => ?_,
          fun t ht hcovers => ?_⟩
        · exact absurd hcovers.1 (Nat.not_le.mpr hgap)
        · exact absurd hcovers.1 (Nat.not_le.mpr (Nat.lt_trans hgap (hs t ht)))
      · rename_i hstart
        obtain ⟨hle, hcov, hnot⟩ := ih hsorted hend
          (Nat.le_trans hc (Nat.le_max_left c (s.1 + s.2.nblocks)))
        refine ⟨by omega, fun h h1 h2 => ?_, fun hcovers => ?_, hnot⟩
        · by_cases hin : h < s.1 + s.2.nblocks
          · exact ⟨s, mem_cons_self, by omega, hin⟩
          · obtain ⟨t, ht, hth⟩ := hcov h (by omega) h2
            exact ⟨t, mem_cons_of_mem s ht, hth⟩
        · unfold SpanCovers at hcovers
          omega

/-- **`get_next_needed_height` is the least height from the chain's on that no span covers.** -/
theorem next_needed_isLeast
    (hend : ∀ start s, q.blocks[start]? = some s → start + s.nblocks < 2 ^ 64) (bh : Nat) :
    IsLeast {h | bh ≤ h ∧ ∀ start s, q.blocks[start]? = some s → ¬ SpanCovers (start, s) h}
      (q.getNextNeededHeight bh) := by
  have hmem {s : Nat × Span β} : s ∈ q.blocks.toList ↔ q.blocks[s.1]? = some s.2 :=
    ExtTreeMap.mem_toList_iff_getElem?_eq_some
  obtain ⟨hle, hcov, hnot⟩ := nextNeededLoop_spec
    ((ExtTreeMap.ordered_keys_toList (t := q.blocks)).imp compare_lt_iff_lt.mp)
    (fun s hs => hend s.1 s.2 (hmem.mp hs)) (Nat.le_refl bh)
  refine ⟨⟨hle, fun start s hs => hnot (start, s) (hmem.mpr hs)⟩, ?_⟩
  rintro h ⟨hbh, hfree⟩
  by_contra hlt
  obtain ⟨s, hs, hcovers⟩ := hcov h hbh (Nat.not_le.mp hlt)
  exact hfree s.1 s.2 (hmem.mp hs) hcovers

/-- A span of two blocks at the chain's height 3 leaves 5 as the next one. -/
theorem next_needed_isLeast_span : IsLeast {h | 3 ≤ h ∧ ∀ start s,
    (({} : BlockQueue Unit).withSpan 3 2 (Blob.fill 1)).blocks[start]? = some s →
      ¬ SpanCovers (start, s) h} 5 := by
  refine next_needed_isLeast (fun start s hs => ?_) 3
  rw [withSpan_blocks, ExtTreeMap.getElem?_empty] at hs
  split at hs
  · rename_i heq
    cases hs
    rw [← heq.1]
    decide
  · rw [ExtTreeMap.getElem?_empty] at hs
    cases hs

/-! ## Spans that are reserved -/

/-- What is asked of each height of a span. -/
theorem collect_heights (r : ReserveArgs) (firstIsPruned : Bool) (height left : Nat)
    (hs : List (Hash × Nat)) :
    (r.collect firstIsPruned height left hs).length ≤ left ∧
      ∀ k, height ≤ k → k < height + (r.collect firstIsPruned height left hs).length →
        (r.syncPrunedBlocks ∨ hasUnprunedBlock k r.blockchainHeight r.pruningSeed) ∧
        ¬ (r.syncPrunedBlocks ∧
          firstIsPruned = hasUnprunedBlock k r.blockchainHeight r.localPruningSeed) := by
  induction hs generalizing height left with
  | nil =>
    rw [ReserveArgs.collect]
    exact ⟨Nat.zero_le _, fun k h1 h2 => absurd h2 (Nat.not_lt.mpr h1)⟩
  | cons h hs ih =>
    cases left with
    | zero => exact ⟨Nat.le_refl 0, fun k h1 h2 => absurd h2 (Nat.not_lt.mpr h1)⟩
    | succ left =>
      rw [ReserveArgs.collect]
      split
      · exact ⟨Nat.zero_le _, fun k h1 h2 => absurd h2 (Nat.not_lt.mpr h1)⟩
      rename_i hpeer
      split
      · exact ⟨Nat.zero_le _, fun k h1 h2 => absurd h2 (Nat.not_lt.mpr h1)⟩
      rename_i hlocal
      obtain ⟨hlen, hrest⟩ := ih (height + 1) left
      refine ⟨Nat.succ_le_succ hlen, fun k h1 h2 => ?_⟩
      rcases Nat.eq_or_lt_of_le h1 with rfl | hlater
      · exact ⟨not_not.mp hpeer, hlocal⟩
      · rw [length_cons] at h2
        exact hrest k hlater (by omega)

/-- The first hash after those that are requested is not requested. -/
theorem not_requested_head (q : BlockQueue β) (hashes : List (Hash × Nat)) {x : Hash × Nat}
    (hx : (hashes.drop (q.skipRequested hashes)).head? = some x) : q.requested x.1 = false := by
  have hsplit := takeWhile_append_dropWhile (p := fun h => q.requested h.1) (l := hashes)
  have hhead := head?_dropWhile_not (fun h : Hash × Nat => q.requested h.1) hashes
  rw [BlockQueue.skipRequested] at hx
  nth_rewrite 2 [← hsplit] at hx
  rw [drop_left] at hx
  rw [hx] at hhead
  exact hhead

/-- **What `reserve_span` returns** has at most `max_blocks` heights, all among those of the
hashes, starts with a block that was not requested, and either the peer has all of them unpruned or
all have the same status for the local seed. -/
theorem reserveSpan_heights {r : ReserveArgs} {s n : Nat} {q' : BlockQueue β}
    (h : q.reserveSpan r = ((s, n), q')) (hn : 0 < n) :
    n ≤ r.maxBlocks ∧
      (r.lastBlockHeight + 1 - r.blockHashes.length ≤ s ∧ s + n ≤ r.lastBlockHeight + 1) ∧
      (∃ x, r.blockHashes[s + r.blockHashes.length - (r.lastBlockHeight + 1)]? = some x ∧
        q.requested x.1 = false) ∧
      (r.syncPrunedBlocks = false ∧
          (∀ k, s ≤ k → k < s + n → hasUnprunedBlock k r.blockchainHeight r.pruningSeed) ∨
        r.syncPrunedBlocks = true ∧ ∃ status, ∀ k, s ≤ k → k < s + n →
          hasUnprunedBlock k r.blockchainHeight r.localPruningSeed = status) := by
  obtain ⟨hs, hlength, -⟩ := reserveSpan_ok h hn
  have hne : (q.chooseSpan r).2 ≠ [] := ne_nil_of_length_pos (hlength ▸ hn)
  obtain ⟨hlast, start, skipped, firstIsPruned, hstart, hskipped, hchoose⟩ :=
    chooseSpan_cases q r hne
  rw [hchoose] at hs hlength
  dsimp only at hs hlength
  rw [hs] at hlength
  have hbase : r.hashesStart = r.lastBlockHeight + 1 - r.blockHashes.length := by
    rw [ReserveArgs.hashesStart]
    omega
  have hpre := (collect_isPrefix r firstIsPruned s r.maxBlocks
    ((r.blockHashes.drop (start - r.hashesStart)).drop skipped)).length_le
  obtain ⟨hmax, hat⟩ := collect_heights r firstIsPruned s r.maxBlocks
    ((r.blockHashes.drop (start - r.hashesStart)).drop skipped)
  rw [hlength] at hpre hmax hat
  rw [length_map, length_drop, length_drop] at hpre
  refine ⟨hmax, ⟨by omega, by omega⟩, ?_, ?_⟩
  · have hindex : start - r.hashesStart + skipped =
        s + r.blockHashes.length - (r.lastBlockHeight + 1) := by omega
    have hlt : s + r.blockHashes.length - (r.lastBlockHeight + 1) < r.blockHashes.length := by omega
    refine ⟨r.blockHashes[s + r.blockHashes.length - (r.lastBlockHeight + 1)],
      getElem?_eq_getElem hlt,
      not_requested_head q (r.blockHashes.drop (start - r.hashesStart)) ?_⟩
    rw [← hskipped, drop_drop, head?_drop, hindex, getElem?_eq_getElem hlt]
  · cases hsync : r.syncPrunedBlocks with
    | false => exact .inl ⟨rfl, fun k h1 h2 => by simpa [hsync] using (hat k h1 h2).1⟩
    | true =>
      refine .inr ⟨rfl, !firstIsPruned, fun k h1 h2 => ?_⟩
      have hk := (hat k h1 h2).2
      rw [hsync] at hk
      cases firstIsPruned <;> simpa using hk

/-- The second connection is given the heights of its hashes after the one that is requested. -/
theorem reserveSpan_heights_second :
    sampleQueue.reserveSpan (sampleReserve 2 3 [11, 12, 13]) = ((2, 2), sampleQueue2) ∧
      ∃ x, (sampleReserve 2 3 [11, 12, 13]).blockHashes[1]? = some x ∧
        sampleQueue.requested x.1 = false :=
  ⟨sampleQueue_reserveSpan, (reserveSpan_heights sampleQueue_reserveSpan Nat.two_pos).2.2.1⟩

/-! ## Unpruned heights -/

/-- The next number of a residue class after one that is not in it. -/
theorem next_residue {b N s c : Nat} (hs : s < N) (hne : b % N ≠ s)
    (hc : c = (b / N + if b % N < s then 0 else 1) * N + s) :
    b < c ∧ c % N = s ∧ ∀ y, b ≤ y → y < c → y % N ≠ s := by
  have hb := Nat.div_add_mod b N
  have hlt : b % N < N := Nat.mod_lt b (by omega)
  refine ⟨?_, by rw [hc, Nat.add_comm, Nat.add_mul_mod_self_right, Nat.mod_eq_of_lt hs], ?_⟩
  · rw [hc, Nat.mul_comm, Nat.mul_add]
    split <;> omega
  · intro y hby hy hmod
    have hyd := Nat.div_add_mod y N
    have hdiv : b / N ≤ y / N := Nat.div_le_div_right hby
    rw [hc, Nat.mul_comm, Nat.mul_add] at hy
    rcases Nat.lt_or_eq_of_le hdiv with hdiv | hdiv
    · have hmul : N * (b / N + 1) ≤ N * (y / N) := Nat.mul_le_mul_left N hdiv
      rw [Nat.mul_add] at hmul
      split at hy <;> omega
    · rw [← hdiv] at hyd
      split at hy <;> omega

theorem two_pow_stripes_le {logStripes : UInt32} (h : logStripes.toNat ≤ 7) :
    2 ^ logStripes.toNat ≤ 2 ^ 7 :=
  Nat.pow_le_pow_right (by decide) h

section Seed

variable {stripe logStripes seed : UInt32} (h : makePruningSeed stripe logStripes = .ok seed)
  (hlog : 0 < logStripes.toNat)

include h hlog

/-- What a seed with a stripe bit says again. -/
theorem makePruningSeed_ok :
    getPruningLogStripes seed = logStripes ∧ getPruningStripe seed = stripe ∧
      logStripes.toNat ≤ 7 ∧ 0 < stripe.toNat ∧ stripe.toNat ≤ 2 ^ logStripes.toNat := by
  unfold makePruningSeed at h
  split at h
  · cases h
  rename_i h7
  split at h
  · cases h
  rename_i hstripe
  cases h
  rw [not_not, UInt32.le_iff_toNat_le] at h7
  rw [not_not, gt_iff_lt, UInt32.lt_iff_toNat_lt] at hstripe
  have hlog7 : logStripes.toNat ≤ 7 := h7
  obtain ⟨hpos, hle⟩ : 0 < stripe.toNat ∧ stripe.toNat ≤ 2 ^ logStripes.toNat := hstripe
  have hpow := two_pow_stripes_le hlog7
  have hpred : (stripe - 1).toNat = stripe.toNat - 1 :=
    UInt32.toNat_sub_of_le _ _ (UInt32.le_iff_toNat_le.mpr hpos)
  have hseed : ((logStripes <<< 7) ||| ((stripe - 1) <<< (0 : UInt32))).toNat =
      logStripes.toNat * 128 + (stripe.toNat - 1) := by
    have hlt : stripe.toNat - 1 < 2 ^ 7 := by omega
    rw [UInt32.toNat_or, UInt32.toNat_shiftLeft, UInt32.toNat_shiftLeft, hpred]
    change (logStripes.toNat <<< 7 % 2 ^ 32) ||| ((stripe.toNat - 1) <<< 0 % 2 ^ 32) = _
    rw [Nat.shiftLeft_zero, Nat.mod_eq_of_lt (by omega : stripe.toNat - 1 < 2 ^ 32),
      Nat.mod_eq_of_lt (by rw [Nat.shiftLeft_eq]; omega),
      ← Nat.shiftLeft_add_eq_or_of_lt hlt, Nat.shiftLeft_eq]
  generalize (logStripes <<< 7) ||| ((stripe - 1) <<< (0 : UInt32)) = seed at *
  have hmask (x : UInt32) : (x &&& 0x7f).toNat = x.toNat % 128 ∧ (x &&& 7).toNat = x.toNat % 8 :=
    ⟨Nat.and_two_pow_sub_one_eq_mod x.toNat 7, Nat.and_two_pow_sub_one_eq_mod x.toNat 3⟩
  refine ⟨UInt32.toNat_inj.mp ?_, UInt32.toNat_inj.mp ?_, hlog7, hpos, hle⟩
  · rw [getPruningLogStripes, (hmask _).2, UInt32.toNat_shiftRight]
    change seed.toNat >>> 7 % 8 = _
    rw [Nat.shiftRight_eq_div_pow]
    omega
  · have hne : seed ≠ 0 := fun h0 => by
      rw [h0] at hseed
      have : (0 : UInt32).toNat = 0 := rfl
      omega
    rw [getPruningStripe, if_neg hne, UInt32.toNat_add, (hmask _).1, UInt32.toNat_shiftRight]
    change (1 + seed.toNat >>> 0 % 128) % 2 ^ 32 = _
    rw [Nat.shiftRight_zero]
    omega

/-- The stripe of a block, where it has one. -/
theorem hasUnprunedBlock_iff (x bh : Nat) : hasUnprunedBlock x bh seed = true ↔
      bh ≤ x + pruningTipBlocks ∨
        x / pruningStripeSize % 2 ^ logStripes.toNat + 1 = stripe.toNat := by
  obtain ⟨hseedlog, hstripe, h7, hpos, hle⟩ := makePruningSeed_ok h hlog
  have hpow := two_pow_stripes_le h7
  rw [hasUnprunedBlock, hstripe, if_neg (UInt32.pos_iff_ne_zero.mp hpos), hseedlog,
    blockPruningStripe]
  split
  · rename_i htip
    simp [htip]
  rename_i htip
  have hval : (UInt32.ofNat (x / pruningStripeSize &&& (2 ^ logStripes.toNat - 1)) + 1).toNat =
      x / pruningStripeSize % 2 ^ logStripes.toNat + 1 := by
    rw [Nat.and_two_pow_sub_one_eq_mod, UInt32.toNat_add, UInt32.toNat_ofNat']
    change (_ % 2 ^ 32 + 1) % 2 ^ 32 = _
    omega
  rw [Bool.or_eq_true, decide_eq_true_eq, decide_eq_true_eq, ← UInt32.toNat_inj,
    ← UInt32.toNat_inj, hval, UInt32.toNat_zero]
  omega

theorem getNextUnprunedBlockHeight_isLeast (x : Nat) {bh : Nat} (hbh : bh ≤ maxBlockNumber) :
    IsLeast {y | x ≤ y ∧ hasUnprunedBlock y bh seed = true}
      (getNextUnprunedBlockHeight x bh seed) := by
  obtain ⟨hseedlog, hstripe, h7, hpos, hle⟩ := makePruningSeed_ok h hlog
  have hkept (y : Nat) := hasUnprunedBlock_iff h hlog y bh
  have hself (hx : hasUnprunedBlock x bh seed = true) :
      IsLeast {y | x ≤ y ∧ hasUnprunedBlock y bh seed = true} x :=
    ⟨⟨Nat.le_refl x, hx⟩, fun y hy => hy.1⟩
  rw [getNextUnprunedBlockHeight, hstripe, hseedlog]
  split
  · exact hself ((hkept x).mpr (.inl (by omega)))
  split
  · omega
  dsimp only
  rw [if_neg (by omega), if_pos (UInt32.pos_iff_ne_zero.mp hlog), Nat.and_two_pow_sub_one_eq_mod,
    Nat.shiftRight_eq_div_pow, Nat.shiftLeft_eq]
  split
  · rename_i htip
    exact hself ((hkept x).mpr (.inl htip))
  rename_i htip
  split
  · rename_i heq
    exact hself ((hkept x).mpr (.inr heq))
  rename_i hother
  -- the start of the next stripe of the seed
  obtain ⟨c, hc⟩ : ∃ c, c = (x / pruningStripeSize / 2 ^ logStripes.toNat +
    if x / pruningStripeSize % 2 ^ logStripes.toNat < stripe.toNat - 1 then 0 else 1) *
      2 ^ logStripes.toNat + (stripe.toNat - 1) := ⟨_, rfl⟩
  obtain ⟨hbc, hmod, hres⟩ := next_residue (by omega) (by omega) hc
  have hx : x < c * pruningStripeSize := (Nat.div_lt_iff_lt_mul (by decide)).mp hbc
  have hpruned {y : Nat} (hxy : x ≤ y) (hyc : y < c * pruningStripeSize)
      (hy : ¬ bh ≤ y + pruningTipBlocks) : ¬ hasUnprunedBlock y bh seed = true := by
    have := hres _ (Nat.div_le_div_right hxy) ((Nat.div_lt_iff_lt_mul (by decide)).mpr hyc)
    rw [hkept]
    omega
  have hh : (x / pruningStripeSize / 2 ^ logStripes.toNat +
      if stripe.toNat > x / pruningStripeSize % 2 ^ logStripes.toNat + 1 then 0 else 1) *
        (pruningStripeSize * 2 ^ logStripes.toNat) + (stripe.toNat - 1) * pruningStripeSize =
      c * pruningStripeSize := by
    rw [hc, Nat.mul_comm pruningStripeSize, ← Nat.mul_assoc, ← Nat.add_mul]
    simp only [gt_iff_lt, Nat.lt_sub_iff_add_lt]
  rw [hh]
  split
  · -- the tip comes first
    rw [if_neg (by omega)]
    refine ⟨⟨by omega, (hkept _).mpr (.inl (by omega))⟩, fun y hy => ?_⟩
    by_contra hlt
    exact hpruned hy.1 (by omega) (by omega) hy.2
  · rw [if_neg (by omega)]
    refine ⟨⟨hx.le, (hkept _).mpr (.inr ?_)⟩, fun y hy => ?_⟩
    · rw [Nat.mul_div_cancel c (by decide), hmod]
      omega
    · by_contra hlt
      exact hpruned hy.1 (by omega) (by omega) hy.2

end Seed

/-- **`get_next_unpruned_block_height` is the least height from a height on that a node with the
seed keeps.** -/
theorem next_unpruned_isLeast {stripe logStripes seed : UInt32}
    (h : makePruningSeed stripe logStripes = .ok seed) (hlog : 0 < logStripes.toNat)
    (x : Nat) {bh : Nat} (hbh : bh ≤ maxBlockNumber) :
    IsLeast {y | x ≤ y ∧ hasUnprunedBlock y bh seed = true}
      (getNextUnprunedBlockHeight x bh seed) :=
  getNextUnprunedBlockHeight_isLeast h hlog x hbh

/-- The second of two stripes, from the start of the first. -/
theorem next_unpruned_isLeast_second : makePruningSeed 2 1 = .ok 129 ∧
    IsLeast {y | 0 ≤ y ∧ hasUnprunedBlock y 100000 129 = true}
      (getNextUnprunedBlockHeight 0 100000 129) ∧
    getNextUnprunedBlockHeight 0 100000 129 = 4096 :=
  have h : makePruningSeed 2 1 = .ok 129 := rfl
  ⟨h, next_unpruned_isLeast h (by decide) 0 (by decide), by decide⟩

/-! ## Pruned heights -/

/-- `get_next_pruned_block_height`. -/
def getNextPrunedBlockHeight (blockHeight blockchainHeight : Nat) (pruningSeed : UInt32) :
    Except String Nat :=
  let stripe := getPruningStripe pruningSeed
  if stripe = 0 then .ok blockchainHeight
  else if blockHeight + pruningTipBlocks ≥ blockchainHeight then .ok blockchainHeight
  else
    let seedLogStripes := getPruningLogStripes pruningSeed
    let logStripes := if seedLogStripes ≠ 0 then seedLogStripes else pruningLogStripes
    let mask := 2 ^ logStripes.toNat - 1
    let blockPruningSeed := ((blockHeight / pruningStripeSize) &&& mask) + 1
    if blockPruningSeed ≠ stripe.toNat then .ok blockHeight
    else do
      let nextSeed ← makePruningSeed (.ofNat (1 + (blockPruningSeed &&& mask))) logStripes
      return getNextUnprunedBlockHeight blockHeight blockchainHeight nextSeed

theorem exists_makePruningSeed (stripe : UInt32) {logStripes : UInt32} (h7 : logStripes.toNat ≤ 7)
    (hpos : 0 < stripe.toNat) (hle : stripe.toNat ≤ 2 ^ logStripes.toNat) :
    ∃ seed, makePruningSeed stripe logStripes = .ok seed := by
  rw [makePruningSeed, if_neg (not_not.2 (UInt32.le_iff_toNat_le.2 h7)),
    if_neg (not_not.2 ⟨UInt32.lt_iff_toNat_lt.2 hpos, hle⟩)]
  exact ⟨_, rfl⟩

/-- **When `get_next_pruned_block_height` finds the least pruned height**: not from a block of the
own stripe behind which the chain's last blocks begin before the next stripe. -/
theorem next_pruned_iff {stripe logStripes seed : UInt32}
    (h : makePruningSeed stripe logStripes = .ok seed) (hlog : 0 < logStripes.toNat)
    {x bh : Nat} (hx : x ≤ bh) (hbh : bh ≤ maxBlockNumber) :
    ∃ r, getNextPrunedBlockHeight x bh seed = .ok r ∧
      ((IsLeast {y | x ≤ y ∧ hasUnprunedBlock y bh seed = false} r ∨
          r = bh ∧ ∀ y, x ≤ y → y < bh → hasUnprunedBlock y bh seed = true) ↔
        bh ≤ x + pruningTipBlocks ∨ hasUnprunedBlock x bh seed = false ∨
          (x / pruningStripeSize + 1) * pruningStripeSize + pruningTipBlocks < bh) := by
  obtain ⟨hseedlog, hstripe, h7, hpos, hle⟩ := makePruningSeed_ok h hlog
  have hkept (y : Nat) := hasUnprunedBlock_iff h hlog y bh
  have hpruned (y : Nat) : hasUnprunedBlock y bh seed = false ↔ _ :=
    Bool.not_eq_true _ ▸ not_congr (hkept y)
  rw [getNextPrunedBlockHeight, hstripe, hseedlog, if_neg (UInt32.pos_iff_ne_zero.mp hpos)]
  split
  · rename_i htip
    refine ⟨_, rfl, iff_of_true (.inr ⟨rfl, fun y hy _ => ?_⟩) (.inl htip)⟩
    exact (hkept y).2 (.inl (by omega))
  rename_i htip
  dsimp only
  rw [if_pos (UInt32.pos_iff_ne_zero.mp hlog), Nat.and_two_pow_sub_one_eq_mod]
  split
  · rename_i hother
    have hself : hasUnprunedBlock x bh seed = false := (hpruned x).2 (by omega)
    refine ⟨_, rfl, iff_of_true (.inl ?_) (.inr (.inl hself))⟩
    exact ⟨⟨Nat.le_refl x, hself⟩, fun y hy => hy.1⟩
  rename_i hown
  rw [Nat.and_two_pow_sub_one_eq_mod, Nat.mod_add_mod]
  have hN : 1 < 2 ^ logStripes.toNat := Nat.one_lt_two_pow hlog.ne'
  have hpow := two_pow_stripes_le h7
  have hmod := Nat.mod_lt (x / pruningStripeSize + 1) (by omega : 0 < 2 ^ logStripes.toNat)
  have hval : (UInt32.ofNat (1 + (x / pruningStripeSize + 1) % 2 ^ logStripes.toNat)).toNat = _ :=
    Nat.mod_eq_of_lt (by omega)
  generalize UInt32.ofNat (1 + (x / pruningStripeSize + 1) % 2 ^ logStripes.toNat) = s at hval ⊢
  obtain ⟨nextSeed, hnext⟩ := exists_makePruningSeed s h7 (by omega) (by omega)
  rw [hnext]
  refine ⟨_, rfl, ?_⟩
  have hleast := getNextUnprunedBlockHeight_isLeast hnext hlog x hbh
  have hkept' (y : Nat) := hasUnprunedBlock_iff hnext hlog y bh
  simp only [hval, hkept'] at hleast
  generalize getNextUnprunedBlockHeight x bh nextSeed = r at hleast ⊢
  obtain ⟨⟨hxr, hr⟩, hlower⟩ := hleast
  generalize 2 ^ logStripes.toNat = N at *
  have hdiff : (x / pruningStripeSize + 1) % N ≠ x / pruningStripeSize % N := fun heq => by
    have hone : 1 % N = 0 % N := Nat.ModEq.add_left_cancel' (x / pruningStripeSize) heq
    rw [Nat.mod_eq_of_lt hN, Nat.zero_mod] at hone
    cases hone
  -- up to the next stripe all heights are in the stripe of the first
  have hsame : ∀ y, x ≤ y → y < (x / pruningStripeSize + 1) * pruningStripeSize →
      y / pruningStripeSize % N = x / pruningStripeSize % N := fun y hy hlt => by
    congr 1
    unfold pruningStripeSize at *
    omega
  have hxh : x < (x / pruningStripeSize + 1) * pruningStripeSize := by
    unfold pruningStripeSize
    omega
  have hx' : ¬ hasUnprunedBlock x bh seed = false := by
    rw [hpruned]
    omega
  have hmul := Nat.mul_div_cancel (x / pruningStripeSize + 1) (by decide : 0 < pruningStripeSize)
  generalize (x / pruningStripeSize + 1) * pruningStripeSize = next at *
  -- the next seed keeps none of them but the last blocks
  have hnone : ¬ (r < next ∧ r + pruningTipBlocks < bh) := fun hr' => by
    have := hsame r hxr hr'.1
    omega
  by_cases hfar : next + pruningTipBlocks < bh
  · refine iff_of_true (.inl ?_) (.inr (.inr hfar))
    obtain rfl : r = next :=
      Nat.le_antisymm (hlower ⟨hxh.le, .inr (by rw [hmul]; omega)⟩) (by omega)
    refine ⟨⟨hxr, (hpruned r).2 (by rw [hmul]; omega)⟩, fun y ⟨hxy, hy⟩ => ?_⟩
    by_contra hlt
    have := hsame y hxy (by omega)
    rw [hpruned] at hy
    omega
  · refine iff_of_false ?_ (by simp [hx', hfar]; omega)
    have hreach : r ≤ bh - pruningTipBlocks := hlower ⟨by omega, .inl (by omega)⟩
    rintro (⟨⟨-, hbad⟩, -⟩ | ⟨rfl, -⟩)
    · rw [(hkept r).2 (.inl (by omega))] at hbad
      cases hbad
    · unfold pruningTipBlocks at *
      omega

/-- From the first block of a chain of 9000, a node with the first of eight stripes is told of
block 3500, which it keeps. -/
theorem next_pruned_kept : makePruningSeed 1 3 = .ok 384 ∧
    getNextPrunedBlockHeight 0 9000 384 = .ok 3500 ∧
    ¬ (IsLeast {y | 0 ≤ y ∧ hasUnprunedBlock y 9000 384 = false} 3500 ∨
      3500 = 9000 ∧ ∀ y, 0 ≤ y → y < 9000 → hasUnprunedBlock y 9000 384 = true) := by
  refine ⟨rfl, by decide +kernel, ?_⟩
  rintro (⟨⟨-, hbad⟩, -⟩ | ⟨hbad, -⟩)
  · exact absurd hbad (by decide)
  · exact absurd hbad (by decide)

/-- The same node, on a longer chain. -/
theorem next_pruned_found : makePruningSeed 1 3 = .ok 384 ∧
    getNextPrunedBlockHeight 0 100000 384 = .ok 4096 ∧
    IsLeast {y | 0 ≤ y ∧ hasUnprunedBlock y 100000 384 = false} 4096 := by
  have h : makePruningSeed 1 3 = .ok 384 := rfl
  obtain ⟨r, hr, hiff⟩ := next_pruned_iff h (by decide) (Nat.zero_le 100000) (by decide)
  have hval : getNextPrunedBlockHeight 0 100000 384 = .ok 4096 := by decide +kernel
  obtain rfl : r = 4096 := Except.ok.inj (hr.symm.trans hval)
  refine ⟨h, hr, (hiff.2 (.inr (.inr (by decide)))).resolve_right fun hbad => ?_⟩
  exact absurd hbad.1 (by decide)

end Hashmonkey.Protocol
