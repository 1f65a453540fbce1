import Hashmonkey.Core.RollingMedianRuns
import Hashmonkey.Core.ChainWork

/-!
# The median of long-term weights and its cache (`blockchain.cpp`, `db_lmdb.cpp`)

* `getBlockInfo64bitFields`: the loop that reads a field of consecutive blocks. After the first
  block LMDB hands out whole pages of records; where the pages lie is a parameter, and **it does not
  matter** (`getBlockInfo64bitFields_eq`).
* `getLongTermBlockWeightMedian`: the cached median, one more weight in the rolling median, or a
  reload. The cache is known by the id of the block it ends in and by the number of its weights.
* `MedianStep`: blocks that are added to the chain or popped, and queries. The weight that is stored
  with a block is a function of the chain that ends in it, as `get_next_long_term_block_weight` is.

`CacheHolds` is kept by every step: the rolling median holds the weights of the chain that ends in
the noted block, wherever the main chain has gone since.

Result: `long_term_median_eq_iff`. **A query is answered with the median of the stored weights, but
for one case**: a window of the same size as the cached one, one block up, while the rolling median
is not full. It then grows instead of moving on, and the answer is for one block more
(`getLongTermBlockWeightMedian_spec`). The callers never ask for such a window
(`last_blocks_median`).

Heights are natural numbers and do not wrap.
-/

namespace Hashmonkey.Core

open Basic Lib Core.RollingMedian StoredBlock
open List hiding count

variable {P : Type} (n : Node P)

/-! ## Definitions -/

/-- The loop of `get_block_info_64bit_fields`, with the range of the records at hand. The cursor
stands before record `rangeEnd`; `pages` gives the page that record is on. -/
def infoFieldsLoop (pages : ℕ → ℕ × ℕ) (field : ℕ → UInt64) (h : ℕ) :
    (count height rangeBegin rangeEnd : ℕ) → Except String (List UInt64)
  | 0, _, _, _ => .ok []
  | count + 1, height, rangeBegin, rangeEnd =>
    if ¬ height < h then .ok []
    else if rangeBegin ≤ height ∧ height < rangeEnd then
      (infoFieldsLoop pages field h count (height + 1) rangeBegin rangeEnd).map
        (field (rangeBegin + (height - rangeBegin)) :: ·)
    else if rangeEnd > 0 then
      let (rangeBegin, rangeEnd) := pages rangeEnd
      if height < rangeBegin ∨ rangeEnd ≤ height then
        .error "Height not included in multiple record range"
      else
        (infoFieldsLoop pages field h count (height + 1) rangeBegin rangeEnd).map
          (field (rangeBegin + (height - rangeBegin)) :: ·)
    else
      (infoFieldsLoop pages field h count (height + 1) height (height + 1)).map (field height :: ·)

/-- `get_block_info_64bit_fields`, for a database of height `h`. -/
def getBlockInfo64bitFields (pages : ℕ → ℕ × ℕ) (field : ℕ → UInt64) (h startHeight count : ℕ) :
    Except String (List UInt64) :=
  if startHeight ≥ h then .error "Height not in blockchain"
  else infoFieldsLoop pages field h count startHeight 0 0

/-- The part of the chain that ends at a height. -/
def endingAt (chain : List StoredBlock) (height : ℕ) : List StoredBlock :=
  chain.drop (chain.length - 1 - height)

/-- The long-term weight of the block at a height. -/
def longTermWeightAt (chain : List StoredBlock) (height : ℕ) : UInt64 :=
  match endingAt chain height with
  | [] => 0
  | e :: _ => e.longTermWeight

/-- `m_long_term_block_weights_cache_tip_hash` and `..._cache_rolling_median`. -/
structure LongTermCache where
  tipHash : Hash := nullHash
  rollingMedian : RollingMedian UInt64

/-- `CRYPTONOTE_LONG_TERM_BLOCK_WEIGHT_WINDOW_SIZE`. -/
def longTermBlockWeightWindowSize : ℕ := 100000

/-- `Blockchain::get_long_term_block_weight_median`. -/
def getLongTermBlockWeightMedian (pages : ℕ → ℕ × ℕ) (chain : List StoredBlock)
    (cache : LongTermCache) (startHeight count : ℕ) : Except String (UInt64 × LongTermCache) :=
  let blockchainHeight := chain.length
  let tipHeight := startHeight + count - 1
  let tipHash :=
    if tipHeight < blockchainHeight then topId n (endingAt chain tipHeight) else nullHash
  let rmsize := cache.rollingMedian.size
  if count = 0 then .error "count == 0"
  else if tipHeight < blockchainHeight ∧ count = rmsize ∧ tipHash = cache.tipHash then
    .ok (cache.rollingMedian.median, cache)
  else if tipHeight > 0 ∧ tipHeight < blockchainHeight ∧
      (count = rmsize ∨ count = rmsize + 1 ∧ rmsize < longTermBlockWeightWindowSize) ∧
      topId n (endingAt chain (tipHeight - 1)) = cache.tipHash then
    let rollingMedian := cache.rollingMedian.insert (longTermWeightAt chain tipHeight)
    .ok (rollingMedian.median, { tipHash, rollingMedian })
  else
    (getBlockInfo64bitFields pages (longTermWeightAt chain) blockchainHeight startHeight count).map
      fun weights =>
        let rollingMedian := weights.foldl RollingMedian.insert cache.rollingMedian.clear
        (rollingMedian.median, { tipHash, rollingMedian })

/-! ## Reading the database -/

/-- The long-term weights stored for the heights from `startHeight` on, as many as asked for or as
there are. -/
def storedWeights (chain : List StoredBlock) (startHeight count : ℕ) : List UInt64 :=
  ((chain.reverse.map longTermWeight).drop startHeight).take count

/-- The page of a record holds the record. -/
def PagesCover (pages : ℕ → ℕ × ℕ) (h : ℕ) : Prop :=
  ∀ k < h, (pages k).1 ≤ k ∧ k < (pages k).2

variable {pages : ℕ → ℕ × ℕ}

/-- The records are read one after the other, whatever is at hand when a new page is needed. -/
theorem infoFieldsLoop_eq {h : ℕ} (hpages : PagesCover pages h)
    (field : ℕ → UInt64) : ∀ (count height rangeBegin rangeEnd : ℕ),
    rangeBegin ≤ height → (height ≤ rangeEnd ∨ rangeEnd = 0) →
    infoFieldsLoop pages field h count height rangeBegin rangeEnd =
      .ok ((List.range' height (min count (h - height))).map field)
  | 0, height, _, _, _, _ => by simp [infoFieldsLoop]
  | count + 1, height, rangeBegin, rangeEnd, hbegin, hend => by
    have ih := infoFieldsLoop_eq hpages field count (height + 1)
    rw [infoFieldsLoop]
    by_cases hlt : height < h
    · have hrange : List.range' height (min (count + 1) (h - height)) =
          height :: List.range' (height + 1) (min count (h - (height + 1))) := by
        rw [show min (count + 1) (h - height) = min count (h - (height + 1)) + 1 by omega,
          List.range'_succ]
      rw [if_neg (not_not.2 hlt), hrange, map_cons]
      by_cases hin : rangeBegin ≤ height ∧ height < rangeEnd
      · rw [if_pos hin, ih _ _ (by omega) (by omega), Nat.add_sub_cancel' hbegin]
        rfl
      · rw [if_neg hin]
        by_cases hzero : rangeEnd > 0
        · obtain rfl : height = rangeEnd := by omega
          obtain ⟨hfirst, hlast⟩ := hpages height hlt
          rw [if_pos hzero]
          dsimp only
          rw [if_neg (by omega), ih _ _ (by omega) (by omega), Nat.add_sub_cancel' hfirst]
          rfl
        · rw [if_neg hzero, ih _ _ (by omega) (by omega)]
          rfl
    · rw [if_pos hlt, Nat.sub_eq_zero_of_le (by omega)]
      rfl

variable {chain : List StoredBlock} {height : ℕ}

/-- The weight at a height, in the chain from its first block on. -/
theorem longTermWeightAt_eq (h : height < chain.length) :
    (chain.reverse.map longTermWeight)[height]? =
      some (longTermWeightAt chain height) := by
  have hdrop : endingAt chain height = chain[chain.length - 1 - height] ::
      chain.drop (chain.length - 1 - height + 1) := drop_eq_getElem_cons (by omega)
  rw [longTermWeightAt, hdrop, getElem?_map, getElem?_reverse h,
    getElem?_eq_getElem (by omega)]
  rfl

variable {startHeight : ℕ}

/-- **The fields that are read are those stored**, wherever the pages lie. -/
theorem getBlockInfo64bitFields_eq (hpages : PagesCover pages chain.length) (count : ℕ)
    (h : startHeight < chain.length) :
    getBlockInfo64bitFields pages (longTermWeightAt chain) chain.length startHeight count =
      .ok (storedWeights chain startHeight count) := by
  unfold getBlockInfo64bitFields
  rw [if_neg (by omega), infoFieldsLoop_eq hpages _ _ _ _ _ (Nat.zero_le _) (.inr rfl)]
  refine congrArg _ (ext_getElem? fun i => ?_)
  have hlen : (chain.reverse.map longTermWeight).length = chain.length := by simp
  rw [storedWeights, getElem?_map, getElem?_take, getElem?_drop]
  by_cases hi : i < min count (chain.length - startHeight)
  · rw [getElem?_range' hi, if_pos (by omega), longTermWeightAt_eq (by omega), Nat.one_mul]
    rfl
  · rw [getElem?_eq_none (by rw [length_range']; omega)]
    split_ifs
    · rw [getElem?_eq_none (by omega)]
      rfl
    · rfl

variable {count : ℕ}

theorem length_storedWeights :
    (storedWeights chain startHeight count).length = min count (chain.length - startHeight) := by
  rw [storedWeights, length_take, length_drop, length_map, length_reverse]

/-- The weights from a height on, newest first, when they all exist. -/
theorem storedWeights_reverse (h : startHeight + count ≤ chain.length) :
    (storedWeights chain startHeight count).reverse =
      ((chain.drop (chain.length - (startHeight + count))).map
        longTermWeight).take count := by
  rw [storedWeights, map_reverse, drop_reverse, take_reverse, length_take,
    length_map, map_drop, drop_take, reverse_reverse]
  congr 2
  · omega
  · omega

theorem median_storedWeights (h : startHeight + count ≤ chain.length) :
    median (storedWeights chain startHeight count) =
      median (((chain.drop (chain.length - (startHeight + count))).map
        longTermWeight).take count) := by
  rw [← storedWeights_reverse h]
  exact median_perm (reverse_perm _).symm

/-! ## The invariant of the cache -/

/-- The weights stored with the blocks of a path, by the rule for the newest block of a path. -/
def weightsOf (weightOf : List Block → UInt64) : List Block → List UInt64
  | [] => []
  | b :: path => weightOf (b :: path) :: weightsOf weightOf path

/-- A chain of known blocks with the weights that the rule gives. -/
structure WeightsStored (n : Node P) (K : Set Block) (weightOf : List Block → UInt64)
    (chain : List StoredBlock) : Prop where
  path : Path n K (chain.map bl) (topId n chain)
  weights : chain.map longTermWeight = weightsOf weightOf (chain.map bl)

/-- **What the cache holds**: the newest weights of the path that ends in the noted block. -/
def CacheHolds (n : Node P) (K : Set Block) (weightOf : List Block → UInt64) (N : ℕ)
    (c : LongTermCache) : Prop :=
  ∃ items, Follows c.rollingMedian ⟨N, items⟩ ∧
    (c.tipHash = nullHash ∨ ∃ path, Path n K path c.tipHash ∧
      c.rollingMedian.sz ≤ path.length ∧
      items.take c.rollingMedian.sz = (weightsOf weightOf path).take c.rollingMedian.sz)

variable {n} {K : Set Block} {weightOf : List Block → UInt64} {chain : List StoredBlock} {N : ℕ}

theorem weightsOf_drop (path : List Block) (k : ℕ) :
    weightsOf weightOf (path.drop k) = (weightsOf weightOf path).drop k := by
  induction path generalizing k with
  | nil => simp [weightsOf]
  | cons b path ih =>
    cases k with
    | zero => rfl
    | succ k => exact ih k

theorem WeightsStored.drop (h : WeightsStored n K weightOf chain) (k : ℕ) :
    WeightsStored n K weightOf (chain.drop k) :=
  ⟨h.path.drop k, by rw [map_drop, map_drop, weightsOf_drop, h.weights]⟩

/-- The chain that ends in a block of the main chain has the weights stored with it. -/
theorem WeightsStored.weights_of_path (hK : DistinctIds n K) (h : WeightsStored n K weightOf chain)
    {path : List Block} (hpath : Path n K path (topId n chain)) :
    path.length = chain.length ∧
      weightsOf weightOf path = chain.map longTermWeight := by
  rw [hK.path_eq hpath h.path, h.weights]
  exact ⟨length_map _, rfl⟩

theorem WeightsStored.topId_ne_null (hK : DistinctIds n K) (h : WeightsStored n K weightOf chain)
    (hne : chain ≠ []) : topId n chain ≠ nullHash := by
  obtain ⟨e, rest, rfl⟩ := exists_cons_of_ne_nil hne
  exact hK.ne_null _ (h.path.known _ mem_cons_self)

theorem endingAt_length (h : height < chain.length) :
    (endingAt chain height).length = height + 1 := by
  rw [endingAt, length_drop]
  omega

theorem endingAt_succ (h : height + 1 < chain.length) :
    ∃ e, endingAt chain (height + 1) = e :: endingAt chain height ∧
      e.longTermWeight = longTermWeightAt chain (height + 1) := by
  have hdrop : endingAt chain (height + 1) = chain[chain.length - 1 - (height + 1)] ::
      chain.drop (chain.length - 1 - (height + 1) + 1) := drop_eq_getElem_cons (by omega)
  refine ⟨chain[chain.length - 1 - (height + 1)], hdrop.trans ?_, ?_⟩
  · rw [endingAt, show chain.length - 1 - (height + 1) + 1 = chain.length - 1 - height by omega]
  · rw [longTermWeightAt, hdrop]

variable {q : RollingMedian UInt64} {items : List UInt64}

/-- The median of what the rolling median holds. -/
theorem median_of_follows
    (h : Follows q ⟨N, items⟩) (hsz : 1 ≤ q.sz) : q.median = Core.median (items.take q.sz) := by
  have hle : q.sz = min items.length q.N := h.holds.sz_eq
  rw [RollingMedian.median_eq h.arranged h.ordered h.holds hsz]
  refine congrArg _ (take_eq_take_iff.2 ?_)
  dsimp only
  omega

variable {c : LongTermCache} {tip : ℕ}

/-- The size of the rolling median after an insertion. -/
theorem CacheHolds.insert_sz (hc : CacheHolds n K weightOf N c) (w : UInt64) :
    (c.rollingMedian.insert w).sz = min (c.rollingMedian.sz + 1) N ∧
      c.rollingMedian.sz ≤ N ∧ c.rollingMedian.N = N := by
  obtain ⟨items, hfollows, -⟩ := hc
  have hN := hfollows.N_eq
  have hsz := hfollows.sz_eq
  have hsz' := (hfollows.insert w).sz_eq
  dsimp only at hN hsz hsz'
  rw [length_cons] at hsz'
  omega

section Tip

variable (hK : DistinctIds n K) (hc : CacheHolds n K weightOf N c)
  (hchain : WeightsStored n K weightOf chain)

include hK hc hchain

/-- A cache that ends in a block of the main chain holds the weights up to that block. -/
theorem CacheHolds.of_tip (htip : tip < chain.length)
    (hid : topId n (endingAt chain tip) = c.tipHash) :
    ∃ items, Follows c.rollingMedian ⟨N, items⟩ ∧ c.rollingMedian.sz ≤ tip + 1 ∧
      items.take c.rollingMedian.sz =
        ((endingAt chain tip).map longTermWeight).take c.rollingMedian.sz := by
  have hlength := endingAt_length htip
  obtain ⟨items, hfollows, hnull | ⟨path, hpath, hle, hitems⟩⟩ := hc
  · exact absurd (hid.trans hnull)
      ((hchain.drop _).topId_ne_null hK (ne_nil_of_length_eq_add_one hlength))
  · obtain ⟨hlen, hweights⟩ := (hchain.drop _).weights_of_path hK (hid ▸ hpath)
    exact ⟨items, hfollows, hle.trans (hlen.trans hlength).le, hweights ▸ hitems⟩

/-- **The median of a cache that ends in a block of the main chain.** -/
theorem CacheHolds.median_eq (htip : tip < chain.length)
    (hid : topId n (endingAt chain tip) = c.tipHash) (hsz : 1 ≤ c.rollingMedian.sz) :
    c.rollingMedian.sz ≤ tip + 1 ∧ c.rollingMedian.median =
      Core.median (storedWeights chain (tip + 1 - c.rollingMedian.sz) c.rollingMedian.sz) := by
  obtain ⟨items, hfollows, hle, hitems⟩ := hc.of_tip hK hchain htip hid
  refine ⟨hle, ?_⟩
  rw [median_of_follows hfollows hsz, hitems, median_storedWeights (by omega),
    Nat.sub_add_cancel hle, endingAt, Nat.sub_sub, Nat.add_comm 1 tip]

/-! ## Queries -/

/-- One more weight. -/
theorem CacheHolds.insert (htip : tip + 1 < chain.length)
    (hid : topId n (endingAt chain tip) = c.tipHash) :
    CacheHolds n K weightOf N ⟨topId n (endingAt chain (tip + 1)),
      c.rollingMedian.insert (longTermWeightAt chain (tip + 1))⟩ := by
  obtain ⟨items, hfollows, hle, hitems⟩ := hc.of_tip hK hchain (by omega) hid
  have hfollows' := hfollows.insert (longTermWeightAt chain (tip + 1))
  obtain ⟨e, hcons, hweight⟩ := endingAt_succ htip
  have hnew := hchain.drop (chain.length - 1 - (tip + 1))
  have hsz : (c.rollingMedian.insert (longTermWeightAt chain (tip + 1))).sz ≤
      c.rollingMedian.sz + 1 := (hc.insert_sz _).1.le.trans (Nat.min_le_left _ _)
  refine ⟨_, hfollows', .inr ⟨_, hnew.path, ?_, ?_⟩⟩
  · rw [length_map, ← endingAt, endingAt_length htip]
    exact hsz.trans (by omega)
  · rw [← hnew.weights, ← endingAt, hcons, map_cons, hweight]
    generalize (c.rollingMedian.insert (longTermWeightAt chain (tip + 1))).sz = sz at hsz
    cases sz with
    | zero => rfl
    | succ k =>
      have htake := congrArg (List.take k) hitems
      rw [take_take, take_take, Nat.min_eq_left (by omega)] at htake
      rw [take_succ_cons, take_succ_cons, htake]

end Tip

/-- Weights that are inserted one after the other. -/
theorem follows_foldl_insert (h : Follows q ⟨N, items⟩) (ws : List UInt64) :
    Follows (ws.foldl RollingMedian.insert q) ⟨N, ws.reverse ++ items⟩ := by
  induction ws generalizing q items with
  | nil => exact h
  | cons w ws ih =>
    rw [foldl_cons, reverse_cons, append_assoc]
    exact ih (h.insert w)

/-- The rolling median after a reload. -/
theorem follows_reload (h : Follows q ⟨N, items⟩)
    (ws : List UInt64) : Follows (ws.foldl RollingMedian.insert q.clear) ⟨N, ws.reverse⟩ := by
  have hreload := follows_foldl_insert h.cleared ws
  rwa [append_nil] at hreload

theorem CacheHolds.reload (hc : CacheHolds n K weightOf N c)
    (hchain : WeightsStored n K weightOf chain) (hcount : 1 ≤ count)
    (htip : startHeight + count - 1 < chain.length) :
    CacheHolds n K weightOf N ⟨topId n (endingAt chain (startHeight + count - 1)),
      (storedWeights chain startHeight count).foldl RollingMedian.insert
        c.rollingMedian.clear⟩ := by
  obtain ⟨items, hfollows, -⟩ := hc
  have hreload := follows_reload hfollows (storedWeights chain startHeight count)
  have hnew := hchain.drop (chain.length - 1 - (startHeight + count - 1))
  have hsz := hreload.sz_eq
  dsimp only at hsz
  rw [length_reverse, length_storedWeights] at hsz
  refine ⟨_, hreload, .inr ⟨_, hnew.path, ?_, ?_⟩⟩
  · rw [length_map, ← endingAt, endingAt_length htip]
    dsimp only
    omega
  · rw [← hnew.weights, storedWeights_reverse (by omega), take_take, Nat.min_eq_left,
      show chain.length - (startHeight + count) =
        chain.length - 1 - (startHeight + count - 1) by omega]
    dsimp only
    omega

/-- The case in which the rolling median is to move on but is not full. -/
def Outgrown (n : Node P) (chain : List StoredBlock) (c : LongTermCache)
    (startHeight count : ℕ) : Prop :=
  1 ≤ startHeight ∧ startHeight + count ≤ chain.length ∧
    count = c.rollingMedian.size ∧ count < c.rollingMedian.N ∧
    topId n (endingAt chain (startHeight + count - 2)) = c.tipHash ∧
    topId n (endingAt chain (startHeight + count - 1)) ≠ c.tipHash

/-- The answer of a query: for the weights asked for, or for these and the one before them. -/
def Answered (n : Node P) (chain : List StoredBlock) (c : LongTermCache) (startHeight count : ℕ)
    (r : UInt64) : Prop :=
  (Outgrown n chain c startHeight count →
    r = Core.median (storedWeights chain (startHeight - 1) (count + 1))) ∧
  (¬ Outgrown n chain c startHeight count →
    r = Core.median (storedWeights chain startHeight count))

section Query

variable (hK : DistinctIds n K) (hc : CacheHolds n K weightOf N c)
  (hchain : WeightsStored n K weightOf chain) (hcount : 1 ≤ count)

include hc hcount

theorem answered_reload (hcap : count ≤ N)
    (hstart : startHeight < chain.length) (hnot : ¬ Outgrown n chain c startHeight count) :
    Answered n chain c startHeight count
      ((storedWeights chain startHeight count).foldl RollingMedian.insert
        c.rollingMedian.clear).median := by
  obtain ⟨items, hfollows, -⟩ := hc
  have hreload := follows_reload hfollows (storedWeights chain startHeight count)
  have hsz := hreload.sz_eq
  dsimp only at hsz
  rw [length_reverse, length_storedWeights] at hsz
  refine ⟨fun hout => absurd hout hnot, fun _ => ?_⟩
  rw [median_of_follows hreload (by omega), take_of_length_le]
  · exact median_perm (reverse_perm _)
  · rw [length_reverse, length_storedWeights]
    omega

include hK hchain

theorem answered_cached (htip : startHeight + count - 1 < chain.length)
    (hsize : count = c.rollingMedian.size)
    (hid : topId n (endingAt chain (startHeight + count - 1)) = c.tipHash) :
    Answered n chain c startHeight count c.rollingMedian.median := by
  have hsz : count = c.rollingMedian.sz := hsize
  obtain ⟨-, hmedian⟩ := hc.median_eq hK hchain htip hid (by omega)
  refine ⟨fun hout => absurd hid hout.2.2.2.2.2, fun _ => ?_⟩
  rw [hmedian, ← hsz, show startHeight + count - 1 + 1 - count = startHeight by omega]

theorem answered_insert (hcap : count ≤ N)
    (heq : startHeight + count = tip + 2) (htip : tip + 1 < chain.length)
    (hsize : count = c.rollingMedian.size ∨ count = c.rollingMedian.size + 1)
    (hold : topId n (endingAt chain tip) = c.tipHash)
    (hne : count = c.rollingMedian.size → topId n (endingAt chain (tip + 1)) ≠ c.tipHash) :
    Answered n chain c startHeight count
      (c.rollingMedian.insert (longTermWeightAt chain (tip + 1))).median := by
  have hins := hc.insert hK hchain htip hold
  obtain ⟨hsz, hle, hN⟩ := hc.insert_sz (longTermWeightAt chain (tip + 1))
  obtain ⟨hfits, hmedian⟩ := hins.median_eq hK hchain htip rfl (by dsimp only; omega)
  rw [hmedian, hsz]
  rw [hsz] at hfits
  change count = c.rollingMedian.sz ∨ count = c.rollingMedian.sz + 1 at hsize
  by_cases hgrow : count = c.rollingMedian.sz ∧ c.rollingMedian.sz < N
  · -- the rolling median has room, so that the oldest weight stays
    rw [show min (c.rollingMedian.sz + 1) N = count + 1 by omega,
      show tip + 1 + 1 - (count + 1) = startHeight - 1 by omega]
    refine ⟨fun _ => rfl, fun hnot => absurd ?_ hnot⟩
    refine ⟨by omega, by omega, hgrow.1, by omega, ?_, ?_⟩
    · rw [heq]
      exact hold
    · rw [heq]
      exact hne hgrow.1
  · rw [show min (c.rollingMedian.sz + 1) N = count by omega,
      show tip + 1 + 1 - count = startHeight by omega]
    refine ⟨fun hout => absurd ?_ hgrow, fun _ => rfl⟩
    obtain ⟨-, -, hsame, hroom, -⟩ := hout
    exact ⟨hsame, by change count = c.rollingMedian.sz at hsame; omega⟩

/-- **A query** succeeds, keeps the invariant of the cache, and is answered with the median of the
weights asked for, or of these and the one before them. -/
theorem getLongTermBlockWeightMedian_spec (hpages : PagesCover pages chain.length)
    (hstart : startHeight < chain.length) :
    ∃ r c', getLongTermBlockWeightMedian n pages chain c startHeight count = .ok (r, c') ∧
      CacheHolds n K weightOf N c' ∧ (count ≤ N → Answered n chain c startHeight count r) := by
  unfold getLongTermBlockWeightMedian
  rw [if_neg (by omega)]
  by_cases htip : startHeight + count - 1 < chain.length
  · split_ifs with hcached hmove
    · exact ⟨_, _, rfl, hc, fun _ =>
        answered_cached hK hc hchain hcount htip hcached.2.1 hcached.2.2⟩
    · obtain ⟨hpos, -, hsize, hold⟩ := hmove
      obtain ⟨tip, heq⟩ : ∃ tip, startHeight + count = tip + 2 :=
        ⟨startHeight + count - 2, by omega⟩
      rw [show startHeight + count - 1 = tip + 1 by omega] at htip hcached hold ⊢
      refine ⟨_, _, rfl, hc.insert hK hchain htip hold, fun hcap => ?_⟩
      exact answered_insert hK hc hchain hcount hcap heq htip (hsize.imp_right And.left) hold
        fun hsame hid => hcached ⟨htip, hsame, hid⟩
    · rw [getBlockInfo64bitFields_eq hpages count hstart]
      refine ⟨_, _, rfl, hc.reload hchain hcount htip, fun hcap =>
        answered_reload hc hcount hcap hstart ?_⟩
      rintro ⟨hpos, -, hsame, -, hold, -⟩
      exact hmove ⟨by omega, htip, .inl hsame, by rwa [Nat.sub_sub]⟩
  · rw [if_neg htip, if_neg fun h => htip h.1, if_neg fun h => htip h.2.1,
      getBlockInfo64bitFields_eq hpages count hstart]
    obtain ⟨items, hfollows, -⟩ := id hc
    refine ⟨_, _, rfl, ⟨_, follows_reload hfollows _, .inl rfl⟩, fun hcap =>
      answered_reload hc hcount hcap hstart ?_⟩
    rintro ⟨-, hle, -⟩
    omega

end Query

/-! ## Runs -/

/-- The main chain and the cache. -/
structure MedianState where
  chain : List StoredBlock
  cache : LongTermCache

/-- A block is added on top, with the weight that the rule gives for it, or popped, or a query is
answered. A query that throws changes nothing. -/
inductive MedianStep (n : Node P) (K : Set Block) (weightOf : List Block → UInt64) :
    MedianState → MedianState → Prop
  | add {s : MedianState} {e : StoredBlock} (known : e.bl ∈ K)
      (prev : e.bl.prevId = topId n s.chain)
      (weight : e.longTermWeight = weightOf (e.bl :: s.chain.map bl)) :
      MedianStep n K weightOf s { s with chain := e :: s.chain }
  | pop {s : MedianState} {e : StoredBlock} {rest : List StoredBlock}
      (chain : s.chain = e :: rest) : MedianStep n K weightOf s { s with chain := rest }
  | query {s : MedianState} {pages : ℕ → ℕ × ℕ} {startHeight count : ℕ} {r : UInt64}
      {cache : LongTermCache} (covered : PagesCover pages s.chain.length)
      (answer : getLongTermBlockWeightMedian n pages s.chain s.cache startHeight count =
        .ok (r, cache)) : MedianStep n K weightOf s { s with cache }

/-- What holds after every step. -/
structure MedianInv (n : Node P) (K : Set Block) (weightOf : List Block → UInt64) (N : ℕ)
    (s : MedianState) : Prop where
  stored : WeightsStored n K weightOf s.chain
  cache : CacheHolds n K weightOf N s.cache

/-- Only queries for blocks that exist are answered. -/
theorem query_in_range {c' : LongTermCache}
    {r : UInt64}
    (h : getLongTermBlockWeightMedian n pages chain c startHeight count = .ok (r, c')) :
    1 ≤ count ∧ startHeight < chain.length := by
  unfold getLongTermBlockWeightMedian at h
  dsimp only at h
  split_ifs at h
  all_goals try omega
  all_goals
    by_contra hout
    rw [getBlockInfo64bitFields, if_pos (by omega)] at h
    cases h

theorem MedianInv.step (hK : DistinctIds n K) {s s' : MedianState}
    (h : MedianInv n K weightOf N s) (hstep : MedianStep n K weightOf s s') :
    MedianInv n K weightOf N s' := by
  cases hstep with
  | @add e known prev weight =>
    refine ⟨⟨?_, ?_⟩, h.cache⟩
    · exact Path.cons (prev ▸ h.stored.path) known
    · rw [map_cons, map_cons, weightsOf, weight, h.stored.weights]
  | @pop e rest chain =>
    refine ⟨?_, h.cache⟩
    have hdrop := h.stored.drop 1
    rwa [chain] at hdrop
  | query covered answer =>
    obtain ⟨hcount, hstart⟩ := query_in_range answer
    obtain ⟨r', c', hok, hc', -⟩ :=
      getLongTermBlockWeightMedian_spec hK h.cache h.stored hcount covered hstart
    rw [answer, Except.ok.injEq, Prod.mk.injEq] at hok
    exact ⟨h.stored, hok.2 ▸ hc'⟩

/-- An empty chain, and a rolling median as it is constructed. -/
def MedianStart (N : ℕ) (s : MedianState) : Prop :=
  s.chain = [] ∧ s.cache.tipHash = nullHash ∧
    ∃ memory, RollingMedian.create N memory = some s.cache.rollingMedian

theorem MedianInv.start {s : MedianState} (hN : 1 ≤ N) (h : MedianStart N s) :
    MedianInv n K weightOf N s := by
  obtain ⟨hchain, hnull, memory, hcreate⟩ := h
  refine ⟨hchain ▸ ⟨Path.nil, rfl⟩, [], ?_, .inl hnull⟩
  unfold RollingMedian.create at hcreate
  split_ifs at hcreate with hfits
  rw [← Option.some.inj hcreate]
  have hlt : N < 2 ^ 27 := by
    have hmax := BitVec.toInt_lt (x := BitVec.ofNat 32 (N * (8 + 4 * 2)))
    rw [RollingMedian.allocationSize] at hfits
    omega
  exact Follows.clear hN hlt

theorem MedianInv.run (hK : DistinctIds n K) {s s' : MedianState} (h : MedianInv n K weightOf N s)
    (hrun : Relation.ReflTransGen (MedianStep n K weightOf) s s') :
    MedianInv n K weightOf N s' := by
  induction hrun with
  | refl => exact h
  | tail _ hstep ih => exact ih.step hK hstep

/-- **Answers of queries after any run.** The answer is the median of the stored weights exactly if
the window is not the outgrown one, or if the one weight more makes no difference to the median. -/
theorem long_term_median_eq_iff {P : Type} (n : Node P) {K : Set Block} (hK : DistinctIds n K)
    (weightOf : List Block → UInt64) {N : ℕ} {s₀ s : MedianState} (hstart : MedianStart N s₀)
    (hrun : Relation.ReflTransGen (MedianStep n K weightOf) s₀ s) {pages : ℕ → ℕ × ℕ}
    (hpages : PagesCover pages s.chain.length) {startHeight count : ℕ} (hcount : 1 ≤ count)
    (hcap : count ≤ N) (hheight : startHeight < s.chain.length) :
    ∃ r c, getLongTermBlockWeightMedian n pages s.chain s.cache startHeight count = .ok (r, c) ∧
      (r = Core.median (storedWeights s.chain startHeight count) ↔
        (Outgrown n s.chain s.cache startHeight count →
          Core.median (storedWeights s.chain (startHeight - 1) (count + 1)) =
            Core.median (storedWeights s.chain startHeight count))) := by
  have hinv := (MedianInv.start (hcount.trans hcap) hstart).run hK hrun
  obtain ⟨r, c, hok, -, hanswer⟩ :=
    getLongTermBlockWeightMedian_spec hK hinv.cache hinv.stored hcount hpages hheight
  obtain ⟨hout, hin⟩ := hanswer hcap
  refine ⟨r, c, hok, ?_⟩
  by_cases h : Outgrown n s.chain s.cache startHeight count
  · simp [h, hout h]
  · simp [h, hin h]

/-- **The callers' queries**, for the last blocks and a rolling median of the size of the window,
are answered with the median of these blocks. -/
theorem last_blocks_median (hK : DistinctIds n K) {s₀ : MedianState} {s : Blockchain P}
    (hstart : MedianStart n.longTermBlockWeightsWindow s₀)
    (hrun : Relation.ReflTransGen (MedianStep n K weightOf) s₀ ⟨s.chain, c⟩)
    (hpages : PagesCover pages s.chain.length)
    (hwindow : 1 ≤ n.longTermBlockWeightsWindow) (hheight : 1 ≤ s.height) :
    ∃ c', getLongTermBlockWeightMedian n pages s.chain c
      (s.height - min n.longTermBlockWeightsWindow s.height)
      (min n.longTermBlockWeightsWindow s.height) = .ok (s.getLongTermBlockWeightMedian n, c') := by
  obtain ⟨hstored, hcache⟩ := (MedianInv.start hwindow hstart).run hK hrun
  dsimp only at hstored hcache
  have hN : c.rollingMedian.N = n.longTermBlockWeightsWindow := (hcache.insert_sz 0).2.2
  have hmedian : s.getLongTermBlockWeightMedian n = Core.median (storedWeights s.chain
      (s.height - min n.longTermBlockWeightsWindow s.height)
      (min n.longTermBlockWeightsWindow s.height)) := by
    have hle : min n.longTermBlockWeightsWindow s.height ≤ s.height := Nat.min_le_right _ _
    rw [Blockchain.getLongTermBlockWeightMedian, between, map_reverse, map_take,
      median_perm (reverse_perm _), median_storedWeights (by rw [Nat.sub_add_cancel hle]; rfl),
      Nat.sub_add_cancel hle, Nat.sub_sub_self hle]
  generalize hcount : min n.longTermBlockWeightsWindow s.height = count at hmedian ⊢
  have hlen : s.height = s.chain.length := rfl
  obtain ⟨r, c', hok, -, hanswer⟩ := getLongTermBlockWeightMedian_spec hK hcache hstored
    (show 1 ≤ count by omega) hpages (show s.height - count < s.chain.length by omega)
  have hr := (hanswer (by omega)).2 fun hout => by
    obtain ⟨hpos, -, -, hroom, -⟩ := hout
    omega
  exact ⟨c', by rw [hok, hr, hmedian]⟩

/-- The weights that the samples store: 1, 5 and 9. -/
def sampleWeightOf : List Block → UInt64
  | [] => 0
  | b :: _ => 4 * b.nonce.toUInt64 - 3

/-- A block for examples as it is stored, with its nonce as its id. -/
def sampleStored (nonce : UInt8) : StoredBlock where
  bl := sampleBlock 1 0 nonce (nonce - 1) 0
  txs := []
  weight := 0
  longTermWeight := 4 * nonce.toUInt64 - 3
  cumulativeDifficulty := 0
  alreadyGeneratedCoins := 0

/-- Three blocks, and a rolling median of capacity 10. -/
def sampleChain : List StoredBlock := [sampleStored 3, sampleStored 2, sampleStored 1]

def sampleCache : LongTermCache :=
  { rollingMedian := RollingMedian.clear { sampleMemory with N := 10 } }

/-- The state after a query for the first blocks. -/
def sampleQueried (count : ℕ) : MedianState where
  chain := sampleChain
  cache := match getLongTermBlockWeightMedian (sampleNode 0) (fun k => (0, k + 1)) sampleChain
      sampleCache 0 count with
    | .ok (_, c) => c
    | .error _ => sampleCache

def sampleKnown : Set Block := {b | b ∈ sampleChain.map bl}

theorem sampleKnown_distinctIds : DistinctIds (sampleNode 0) sampleKnown := by
  constructor
  · change ∀ b ∈ sampleChain.map bl, ∀ b' ∈ sampleChain.map bl, _
    decide
  · change ∀ b ∈ sampleChain.map bl, _
    decide

theorem sample_pagesCover (h : ℕ) : PagesCover (fun k => (0, k + 1)) h :=
  fun k _ => ⟨Nat.zero_le k, Nat.lt_succ_self k⟩

theorem sampleQueried_run {n : ℕ} {r : UInt64} (h : getLongTermBlockWeightMedian (sampleNode 0)
      (fun k => (0, k + 1)) sampleChain sampleCache 0 n = .ok (r, (sampleQueried n).cache)) :
    Relation.ReflTransGen (MedianStep (sampleNode 0) sampleKnown sampleWeightOf) ⟨[], sampleCache⟩
      (sampleQueried n) := by
  have hadd : Relation.ReflTransGen (MedianStep (sampleNode 0) sampleKnown sampleWeightOf)
      ⟨[], sampleCache⟩ ⟨sampleChain, sampleCache⟩ := by
    refine (((Relation.ReflTransGen.refl.tail (.add (e := sampleStored 1) ?_ rfl rfl)).tail
      (.add (e := sampleStored 2) ?_ rfl rfl)).tail (.add (e := sampleStored 3) ?_ rfl rfl))
    all_goals simp [sampleKnown, sampleChain]
  exact hadd.tail (.query (sample_pagesCover _) h)

theorem sampleCache_start : MedianStart 10 ⟨[], sampleCache⟩ := ⟨rfl, rfl, sampleMemory, rfl⟩

/-- A query for the last two blocks is answered with the median of all three. -/
theorem long_term_median_outgrown :
    MedianStart 10 ⟨[], sampleCache⟩ ∧
    Relation.ReflTransGen (MedianStep (sampleNode 0) sampleKnown sampleWeightOf)
      ⟨[], sampleCache⟩ (sampleQueried 2) ∧
    (getLongTermBlockWeightMedian (sampleNode 0) (fun k => (0, k + 1)) (sampleQueried 2).chain
      (sampleQueried 2).cache 1 2).toOption.map Prod.fst = some 5 ∧
    median (storedWeights (sampleQueried 2).chain 1 2) = 7 :=
  ⟨sampleCache_start, sampleQueried_run (r := 3) rfl, by decide, by decide⟩

theorem long_term_median_sample :
    ∃ r c, getLongTermBlockWeightMedian (sampleNode 0) (fun k => (0, k + 1)) (sampleQueried 2).chain
      (sampleQueried 2).cache 0 3 = .ok (r, c) ∧
      r = median (storedWeights (sampleQueried 2).chain 0 3) := by
  have hcount : 1 ≤ 3 := by omega
  have hheight : 0 < (sampleQueried 2).chain.length := by decide
  obtain ⟨r, c, hok, hiff⟩ := long_term_median_eq_iff (sampleNode 0) sampleKnown_distinctIds
    sampleWeightOf sampleCache_start (sampleQueried_run (r := 3) rfl) (sample_pagesCover _) hcount
    (by omega) hheight
  exact ⟨r, c, hok, hiff.2 fun h => absurd h.1 (by omega)⟩

/-- All three blocks were queried and the last was popped. -/
theorem last_blocks_median_popped :
    ∃ c, getLongTermBlockWeightMedian (sampleNode 0) (fun k => (0, k + 1)) sampleChain.tail
      (sampleQueried 3).cache 0 2 = .ok (3, c) := by
  have hrun : Relation.ReflTransGen (MedianStep (sampleNode 0) sampleKnown sampleWeightOf)
      ⟨[], sampleCache⟩ ⟨sampleChain.tail, (sampleQueried 3).cache⟩ :=
    (sampleQueried_run (r := 5) rfl).tail (.pop rfl)
  exact last_blocks_median (s := { chain := sampleChain.tail, txPool := () })
    sampleKnown_distinctIds sampleCache_start hrun (sample_pagesCover _) (by decide) (by decide)

end Hashmonkey.Core
