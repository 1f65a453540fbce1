import Hashmonkey.Lib.MedianHeap
import Hashmonkey.Core.Timestamps

/-!
# The rolling median (`rolling_median.h`)

Model of `epee::misc_utils::rolling_median_t`: the last `N` inserted items stand in the circular
queue `data`, and `heap` arranges their indices as a max heap and a min heap around the median. It
is indexed by signed integers, from `-(N / 2)` to `(N - 1) / 2`; `pos` is its inverse.

* The three arrays are functions. `malloc` does not clear what it returns, so `data` starts out
  arbitrary, and `clear` leaves the old items in it.
* The constructor computes the size of its allocation in an `int`. An allocation too small for the
  arrays, or failed, is `none`.
* The sort functions exist once for each heap; they differ in the sign of the index and in the
  order of the comparisons. Here the index `k` of a `Side` stands for the `int` `Side.place k`,
  whose half, rounded towards zero as in C++, is the place of `k / 2`.

Results:
* `Arranged`: what the arrays satisfy whatever the items are; the exchanges keep it
  (`Arranged.mmexchange`).
* `sortDownLoop_ordered`, `sortUpLoop_ordered`: the loops end by their own condition; after the sort
  down, and after a sort up that does not reach the median, both heaps are in order.
* `insert_inserted`: an insertion leaves the arrays arranged and the heaps in order.
-/

namespace Hashmonkey.Core

open Lib Function

/-- `rolling_median_t`. -/
structure RollingMedian (Item : Type) where
  /-- circular queue of values -/
  data : ℕ → Item
  /-- index into `heap` for each value -/
  pos : ℕ → ℤ
  /-- max/median/min heap holding indexes into `data` -/
  heap : ℤ → ℕ
  /-- allocated size -/
  N : ℕ
  /-- position in circular queue -/
  idx : ℕ
  /-- count of items in min heap -/
  minCt : ℕ
  /-- count of items in max heap -/
  maxCt : ℕ
  /-- count of items in heap -/
  sz : ℕ

namespace RollingMedian

variable {Item : Type}

/-! ## Sorting -/

section Insertion

variable [LT Item] [DecidableLT Item]

def mmless (q : RollingMedian Item) (i j : ℤ) : Bool := q.data (q.heap i) < q.data (q.heap j)

/-- Swaps the items `i` and `j` in the heap, maintains the indexes. -/
def mmexchange (q : RollingMedian Item) (i j : ℤ) : RollingMedian Item :=
  let t := q.heap i
  let heap := update (update q.heap i (q.heap j)) j t
  { q with heap, pos := update (update q.pos (heap i) i) (heap j) j }

/-- Swaps if less, and says whether it swapped. -/
def mmCmpExch (q : RollingMedian Item) (i j : ℤ) : Bool × RollingMedian Item :=
  if q.mmless i j then (true, q.mmexchange i j) else (false, q)

/-- `minCt` and `maxCt`. -/
def count (q : RollingMedian Item) : Side → ℕ
  | .min => q.minCt
  | .max => q.maxCt

/-- Whether entry `j` of a side belongs nearer to the median than entry `k`: `mmless(j, k)` in the
min heap, with the arguments the other way in the max heap. -/
def less (q : RollingMedian Item) (s : Side) (j k : ℕ) : Bool :=
  match s with
  | .min => q.mmless (s.place j) (s.place k)
  | .max => q.mmless (s.place k) (s.place j)

/-- `mmCmpExch(j, k)` in the min heap, with the arguments the other way in the max heap. -/
def cmpExch (q : RollingMedian Item) (s : Side) (j k : ℕ) : Bool × RollingMedian Item :=
  match s with
  | .min => q.mmCmpExch (s.place j) (s.place k)
  | .max => q.mmCmpExch (s.place k) (s.place j)

/-- The loop of `minSortDown` and `maxSortDown`, from the doubled index on. -/
def sortDownLoop (s : Side) : ℕ → ℕ → RollingMedian Item → RollingMedian Item
  | 0, _, q => q
  | fuel + 1, k, q =>
    if k ≤ q.count s then
      let k := if k < q.count s && q.less s (k + 1) k then k + 1 else k
      let (exchanged, q) := q.cmpExch s k (k / 2)
      if exchanged then sortDownLoop s fuel (k * 2) q else q
    else q

/-- The index at least doubles in each iteration, so the count bounds their number. -/
def sortDown (s : Side) (k : ℕ) (q : RollingMedian Item) : RollingMedian Item :=
  sortDownLoop s (q.count s) (k * 2) q

/-- The loop of `minSortUp` and `maxSortUp`; true if it reached the median. -/
def sortUpLoop (s : Side) : ℕ → ℕ → RollingMedian Item → Bool × RollingMedian Item
  | 0, k, q => (k == 0, q)
  | fuel + 1, k, q =>
    if 0 < k then
      let (exchanged, q) := q.cmpExch s k (k / 2)
      if exchanged then sortUpLoop s fuel (k / 2) q else (k == 0, q)
    else (k == 0, q)

def sortUp (s : Side) (k : ℕ) (q : RollingMedian Item) : Bool × RollingMedian Item :=
  sortUpLoop s k k q

/-- Maintains the min heap property for all items below `i`. -/
def minSortDown (i : ℤ) : RollingMedian Item → RollingMedian Item := sortDown .min i.natAbs

/-- Maintains the max heap property for all items below `i`. -/
def maxSortDown (i : ℤ) : RollingMedian Item → RollingMedian Item := sortDown .max i.natAbs

/-- Maintains the min heap property for all items above `i`, including the median. -/
def minSortUp (i : ℤ) : RollingMedian Item → Bool × RollingMedian Item := sortUp .min i.natAbs

/-- Maintains the max heap property for all items above `i`, including the median. -/
def maxSortUp (i : ℤ) : RollingMedian Item → Bool × RollingMedian Item := sortUp .max i.natAbs

/-! ## Insertion -/

/-- The start of `insert`: the item replaces the oldest one in the circular queue. -/
def write (q : RollingMedian Item) (v : Item) : RollingMedian Item :=
  { q with
    data := update q.data q.idx v
    idx := (q.idx + 1) % q.N
    sz := min (q.sz + 1) q.N }

/-- The end of `insert` for an item in the min heap. -/
def settleMin (p : ℤ) (q : RollingMedian Item) : RollingMedian Item :=
  let (medianChanged, q) := q.minSortUp p
  if medianChanged then
    let (exchanged, q) := q.mmCmpExch 0 (-1)
    if exchanged then q.maxSortDown (-1) else q
  else q

/-- The end of `insert` for an item in the max heap. The min heap may be empty here. -/
def settleMax (p : ℤ) (q : RollingMedian Item) : RollingMedian Item :=
  let (medianChanged, q) := q.maxSortUp p
  if medianChanged && q.minCt != 0 then
    let (exchanged, q) := q.mmCmpExch 1 0
    if exchanged then q.minSortDown 1 else q
  else q

/-- The end of `insert` for an item at the median: first the max heap, then the min heap. -/
def settleMedian (q : RollingMedian Item) : RollingMedian Item :=
  let q :=
    if q.maxCt != 0 then
      let (medianChanged, q) := q.maxSortUp (-1)
      if medianChanged then q.maxSortDown (-1) else q
    else q
  if q.minCt != 0 then
    let (medianChanged, q) := q.minSortUp 1
    if medianChanged then q.minSortDown 1 else q
  else q

/-- `insert`. -/
def insert (q : RollingMedian Item) (v : Item) : RollingMedian Item :=
  let p := q.pos q.idx
  let old := q.data q.idx
  let q := q.write v
  if 0 < p then
    if q.minCt < (q.N - 1) / 2 then settleMin p { q with minCt := q.minCt + 1 }
    else if old < v then q.minSortDown p
    else settleMin p q
  else if p < 0 then
    if q.maxCt < q.N / 2 then settleMax p { q with maxCt := q.maxCt + 1 }
    else if v < old then q.maxSortDown p
    else settleMax p q
  else settleMedian q

end Insertion

/-! ## Construction and the median -/

/-- The initial heap fill pattern: median, max, min, max, ... -/
def fillPosition (n : ℕ) : ℤ := ((n + 1) / 2 : ℕ) * (if n % 2 = 1 then -1 else 1)

/-- The loop of `clear`, from `nItems` down. -/
def fill : ℕ → RollingMedian Item → RollingMedian Item
  | 0, q => q
  | n + 1, q =>
    fill n { q with
      pos := update q.pos n (fillPosition n)
      heap := update q.heap (fillPosition n) n }

def clear (q : RollingMedian Item) : RollingMedian Item :=
  fill q.N { q with idx := 0, minCt := 0, maxCt := 0, sz := 0 }

/-- `int size = N * (sizeof(Item) + sizeof(int) * 2)`, for items of eight bytes. -/
def allocationSize (N : ℕ) : ℤ := (BitVec.ofNat 32 (N * (8 + 4 * 2))).toInt

/-- The constructor. `memory` is what the allocation holds; `none` stands for an allocation that
does not hold the three arrays. -/
def create (N : ℕ) (memory : RollingMedian UInt64) : Option (RollingMedian UInt64) :=
  if (N * 16 : ℕ) ≤ allocationSize N then some (clear { memory with N }) else none

/-- `size()`. -/
def size (q : RollingMedian Item) : ℕ := q.sz

/-- `median()`, the average of the two middle items when their number is even. -/
def median (q : RollingMedian UInt64) : UInt64 :=
  let v := q.data (q.heap 0)
  if q.minCt < q.maxCt then getMid v (q.data (q.heap (-1))) else v

/-! ## The arrays -/

/-- The index in `data` of the item that comes to an index of the heap first. -/
def slot (x : ℤ) : ℕ := if x < 0 then (-2 * x - 1).toNat else (2 * x).toNat

theorem slot_fillPosition (n : ℕ) : slot (fillPosition n) = n := by
  unfold slot fillPosition
  split_ifs <;> omega

theorem fillPosition_slot (x : ℤ) : fillPosition (slot x) = x := by
  unfold slot fillPosition
  split_ifs <;> omega

theorem slot_min (k : ℕ) : slot (Side.min.place k) = 2 * k := by
  rw [Side.place_min]
  unfold slot
  split_ifs <;> omega

theorem slot_max (k : ℕ) : slot (Side.max.place k) = 2 * k - 1 := by
  rw [Side.place_max]
  unfold slot
  split_ifs <;> omega

/-- The arrays are inverse to each other, and the part of the heap that is not in use yet is still
as `clear` filled it. -/
structure Arranged (q : RollingMedian Item) : Prop where
  capacity : 0 < q.N
  sz_le : q.sz ≤ q.N
  minCt_eq : q.minCt = (q.sz - 1) / 2
  maxCt_eq : q.maxCt = q.sz / 2
  idx_lt : q.idx < q.N
  idx_eq : q.sz < q.N → q.idx = q.sz
  pos_heap : ∀ x, slot x < q.N → q.heap x < q.N ∧ q.pos (q.heap x) = x
  heap_pos : ∀ j < q.N, slot (q.pos j) < q.N ∧ q.heap (q.pos j) = j
  fresh : ∀ x, q.sz ≤ slot x → slot x < q.N → q.heap x = slot x

variable {q : RollingMedian Item}

/-- The entries in use are those counted, and the centre as soon as there is an item. -/
theorem Arranged.slot_lt (h : q.Arranged) (hsz : 1 ≤ q.sz) (s : Side)
    (k : ℕ) : slot (s.place k) < q.sz ↔ k ≤ q.count s := by
  have hmin := h.minCt_eq
  have hmax := h.maxCt_eq
  cases s <;> simp only [slot_min, slot_max, count] <;> omega

theorem Arranged.heap_inj (h : q.Arranged) {x y : ℤ} (hx : slot x < q.N)
    (hy : slot y < q.N) (heq : q.heap x = q.heap y) : x = y := by
  rw [← (h.pos_heap x hx).2, heq, (h.pos_heap y hy).2]

/-- The items as the heap arranges them. -/
def value (q : RollingMedian Item) (x : ℤ) : Item := q.data (q.heap x)

theorem mmexchange_heap (q : RollingMedian Item) (i j : ℤ) :
    (q.mmexchange i j).heap = q.heap ∘ Equiv.swap i j := by
  funext x
  rw [comp_apply, Equiv.swap_apply_def]
  simp only [mmexchange, update_apply]
  split_ifs with hj hi hi
  · rw [← hi, hj]
  · rfl
  · rfl
  · rfl

theorem mmexchange_value (q : RollingMedian Item) (i j : ℤ) :
    (q.mmexchange i j).value = exchanged q.value i j := by
  funext x
  simp only [value, mmexchange_heap, exchanged, comp_apply]
  rfl

/-- Exchanges of entries in use keep the arrays arranged. -/
theorem Arranged.mmexchange (h : q.Arranged) {x y : ℤ}
    (hx : slot x < q.sz) (hy : slot y < q.sz) : (q.mmexchange x y).Arranged := by
  have hle := h.sz_le
  have hheap := mmexchange_heap q x y
  have hrange : ∀ z, slot z < q.N → slot (Equiv.swap x y z) < q.N := by
    intro z hz
    rw [Equiv.swap_apply_def]
    split_ifs <;> omega
  have hpos : ∀ z, slot z < q.N → (q.mmexchange x y).pos (q.heap z) = Equiv.swap x y z := by
    intro z hz
    have hleft : (q.mmexchange x y).heap x = q.heap y := by
      rw [hheap, comp_apply, Equiv.swap_apply_left]
    have hright : (q.mmexchange x y).heap y = q.heap x := by
      rw [hheap, comp_apply, Equiv.swap_apply_right]
    have hdef : (q.mmexchange x y).pos =
        update (update q.pos ((q.mmexchange x y).heap x) x)
          ((q.mmexchange x y).heap y) y := rfl
    rw [hdef, hleft, hright, update_apply, update_apply, Equiv.swap_apply_def]
    by_cases hzx : z = x
    · rw [if_pos (by rw [hzx]), if_pos hzx]
    rw [if_neg fun heq => hzx (h.heap_inj hz (by omega) heq), if_neg hzx]
    by_cases hzy : z = y
    · rw [if_pos (by rw [hzy]), if_pos hzy]
    rw [if_neg fun heq => hzy (h.heap_inj hz (by omega) heq), if_neg hzy]
    exact (h.pos_heap z hz).2
  refine ⟨h.capacity, h.sz_le, h.minCt_eq, h.maxCt_eq, h.idx_lt, h.idx_eq, ?_, ?_, ?_⟩
  · intro z hz
    rw [hheap, comp_apply]
    refine ⟨(h.pos_heap _ (hrange z hz)).1, ?_⟩
    rw [hpos _ (hrange z hz), Equiv.swap_apply_self]
  · intro j hj
    obtain ⟨hslot, hj'⟩ := h.heap_pos j hj
    have hposj : (q.mmexchange x y).pos j = Equiv.swap x y (q.pos j) := by
      rw [← hpos _ hslot, hj']
    rw [hposj, hheap, comp_apply, Equiv.swap_apply_self]
    exact ⟨hrange _ hslot, hj'⟩
  · intro z hz hzN
    have hz' : q.sz ≤ slot z := hz
    have hzx : z ≠ x := by rintro rfl; omega
    have hzy : z ≠ y := by rintro rfl; omega
    rw [hheap, comp_apply, Equiv.swap_apply_of_ne_of_ne hzx hzy]
    exact h.fresh z hz hzN

/-! ## Exchanges -/

/-- Entries in use were exchanged, and nothing else has changed. -/
structure Sifted (q q' : RollingMedian Item) : Prop where
  arranged : q'.Arranged
  frame : q' = { q with pos := q'.pos, heap := q'.heap }

theorem Sifted.refl (h : q.Arranged) : Sifted q q := ⟨h, rfl⟩

variable {q' : RollingMedian Item}

theorem Sifted.trans {q'' : RollingMedian Item} (h : Sifted q q') (h' : Sifted q' q'') :
    Sifted q q'' := by
  refine ⟨h'.arranged, ?_⟩
  rw [h'.frame, h.frame]

theorem Sifted.count_eq (h : Sifted q q') : q'.count = q.count := by
  rw [h.frame]
  rfl

theorem Sifted.sz_eq (h : Sifted q q') : q'.sz = q.sz := by
  rw [h.frame]

/-! ## A new item -/

section Written

variable (v : Item)

theorem Arranged.write (hq : q.Arranged) {m M : ℕ} (hm : m = (min (q.sz + 1) q.N - 1) / 2)
    (hM : M = min (q.sz + 1) q.N / 2) :
    ({ q.write v with minCt := m, maxCt := M } : RollingMedian Item).Arranged := by
  have hle := hq.sz_le
  refine ⟨hq.capacity, Nat.min_le_right _ _, hm, hM, Nat.mod_lt _ hq.capacity, fun hlt => ?_,
    hq.pos_heap, hq.heap_pos, fun x hx hN => hq.fresh x ?_ hN⟩
  · change min (q.sz + 1) q.N < q.N at hlt
    change (q.idx + 1) % q.N = min (q.sz + 1) q.N
    rw [hq.idx_eq (by omega), Nat.mod_eq_of_lt (by omega)]
    omega
  · change min (q.sz + 1) q.N ≤ slot x at hx
    omega

/-- While the queue is not full, the items go where `clear` has planned. -/
theorem Arranged.pos_idx (hq : q.Arranged) (hlt : q.sz < q.N) :
    q.pos q.idx = fillPosition q.sz := by
  have hslot := slot_fillPosition q.sz
  have hheap : q.heap (fillPosition q.sz) = q.idx := by
    rw [hq.fresh _ (by omega) (by omega), hslot, hq.idx_eq hlt]
  rw [← hheap]
  exact (hq.pos_heap _ (by omega)).2

theorem write_value_pos (hq : q.Arranged) : (q.write v).value (q.pos q.idx) = v := by
  unfold value write
  rw [(hq.heap_pos _ hq.idx_lt).2]
  exact update_self _ _ _

/-- Only the entry of the replaced item changes its value. -/
theorem write_agree (hq : q.Arranged) :
    AgreeOff q.count q.value (q.write v).value (q.pos q.idx) := by
  intro t k hk hne
  have hslot : slot (t.place k) < q.N := by
    have hmin := hq.minCt_eq
    have hmax := hq.maxCt_eq
    have hle := hq.sz_le
    have hpos := hq.capacity
    cases t <;> simp only [slot_min, slot_max, count] at hk ⊢ <;> omega
  refine update_of_ne ?_ _ _
  intro heq
  rw [← heq] at hne
  exact hne (hq.pos_heap _ hslot).2.symm

theorem write_sz_pos (hq : q.Arranged) : 1 ≤ (q.write v).sz := by
  have hcap := hq.capacity
  simp only [write]
  omega

end Written

/-! ## The end of `insert`, for either side -/

section Settling

variable [LT Item] [DecidableLT Item]

/-- The exchange of the median with the first entry of a side, and the sort that follows it. -/
def settleFirst (s : Side) (q : RollingMedian Item) : RollingMedian Item :=
  let (exchanged, q) := q.cmpExch s 1 0
  if exchanged then q.sortDown s 1 else q

/-- The exchange with a side that may be empty. -/
def settleSide (s : Side) (q : RollingMedian Item) : RollingMedian Item :=
  if q.count s != 0 then settleFirst s q else q

/-- A sort up from entry `k` of a side and, when it changed the median, the exchange with the other
side. -/
def settle (s : Side) (k : ℕ) (q : RollingMedian Item) : RollingMedian Item :=
  let (medianChanged, q) := q.sortUp s k
  if medianChanged then settleSide s.other q else q

/-- The sort up of a first entry is its exchange with the median. -/
theorem sortUp_one (s : Side) (q : RollingMedian Item) : q.sortUp s 1 = q.cmpExch s 1 0 := by
  rcases h : q.cmpExch s 1 0 with ⟨b, q'⟩
  have hloop : q.sortUp s 1 =
      (if (q.cmpExch s 1 0).1 then sortUpLoop s 0 0 (q.cmpExch s 1 0).2
        else (false, (q.cmpExch s 1 0).2)) := rfl
  rw [hloop, h]
  cases b <;> rfl

theorem settleMedian_eq (q : RollingMedian Item) :
    settleMedian q = settleSide .min (settleSide .max q) := by
  have hmax : q.maxSortUp (-1) = q.cmpExch .max 1 0 := sortUp_one .max q
  have hmin : ∀ q : RollingMedian Item, q.minSortUp 1 = q.cmpExch .min 1 0 := sortUp_one .min
  unfold settleMedian
  simp only [hmax, hmin]
  rfl

end Settling

variable [LE Item]

/-- What an insertion leaves. -/
structure Inserted (q : RollingMedian Item) (v : Item) (q' : RollingMedian Item) : Prop where
  arranged : q'.Arranged
  ordered : Ordered q'.count q'.value
  data_eq : q'.data = update q.data q.idx v
  idx_eq : q'.idx = (q.idx + 1) % q.N
  sz_eq : q'.sz = min (q.sz + 1) q.N
  N_eq : q'.N = q.N

theorem Inserted.of_sifted {v : Item} (base : RollingMedian Item)
    (hbase : base = { q.write v with minCt := base.minCt, maxCt := base.maxCt })
    (h : Sifted base q' ∧ Ordered base.count q'.value) : Inserted q v q' := by
  obtain ⟨hsift, hord⟩ := h
  have hframe := hsift.frame
  refine ⟨hsift.arranged, by rwa [hsift.count_eq], ?_, ?_, ?_, ?_⟩ <;> rw [hframe, hbase] <;> rfl

section Replaced

variable {q : RollingMedian Item} (hq : q.Arranged) (hord : Ordered q.count q.value) (v : Item)
  {s : Side} {k : ℕ} (hk : 1 ≤ k) (hpos : q.pos q.idx = s.place k)

include hq hord hk hpos

/-- A queue that is not full: the item takes the next entry of the heap. -/
theorem added_up (hlt : q.sz < q.N) {m M : ℕ} (hm : m = q.sz / 2) (hM : M = (q.sz + 1) / 2) :
    let base : RollingMedian Item := { q.write v with minCt := m, maxCt := M }
    k ≤ base.count s ∧ Up base.count base.value s k := by
  intro base
  have hmin := hq.minCt_eq
  have hmax := hq.maxCt_eq
  have hslot : slot (s.place k) = q.sz := by
    rw [← hpos, hq.pos_idx hlt, slot_fillPosition]
  have hagree := write_agree v hq
  rw [hpos] at hagree
  have hbase : base.count s = k ∧ q.count s = k - 1 ∧ ∀ t, t ≠ s → base.count t = q.count t := by
    cases s with
    | min =>
      rw [slot_min] at hslot
      refine ⟨by change m = k; omega, by change q.minCt = _; omega, fun t ht => ?_⟩
      rw [Side.eq_other ht]
      change M = q.maxCt
      omega
    | max =>
      rw [slot_max] at hslot
      refine ⟨by change M = k; omega, by change q.maxCt = _; omega, fun t ht => ?_⟩
      rw [Side.eq_other ht]
      change m = q.minCt
      omega
  obtain ⟨hcount, hbefore, hother⟩ := hbase
  exact ⟨by omega, hord.up_leaf (by omega) hcount hother (by omega) hagree⟩

variable [Std.IsLinearOrder Item]

/-- A full queue: the item replaces the oldest one at its entry of the heap. -/
theorem replaced_cases (hfull : q.sz = q.N) : k ≤ q.count s ∧
    (s.le (q.data q.idx) v → Down (q.write v).count (q.write v).value s k) ∧
    (s.le v (q.data q.idx) → Up (q.write v).count (q.write v).value s k) := by
  have hvalue := write_value_pos v hq
  have hold : q.value (q.pos q.idx) = q.data q.idx := by
    rw [value, (hq.heap_pos _ hq.idx_lt).2]
  have hagree := write_agree v hq
  have hslot := (hq.heap_pos _ hq.idx_lt).1
  rw [hpos] at hvalue hold hagree hslot
  have hcount : k ≤ q.count s := (hq.slot_lt (by omega) s k).1 (by omega)
  refine ⟨hcount, fun hle => hord.down hk hcount hagree ?_, fun hle => hord.up hk hcount hagree ?_⟩
  · rwa [hold, hvalue]
  · rwa [hold, hvalue]

end Replaced

/-! ## The loops -/

variable [LT Item] [DecidableLT Item] [Std.IsLinearOrder Item] [Std.LawfulOrderLT Item]

theorem less_iff (q : RollingMedian Item) (s : Side) (j k : ℕ) :
    q.less s j k = true ↔ ¬ s.le (q.value (s.place k)) (q.value (s.place j)) := by
  cases s <;> simp only [less, mmless, decide_eq_true_eq, Side.le, value, Std.not_le]

variable {s : Side} {k : ℕ}

omit [Std.IsLinearOrder Item] in
theorem le_of_less {j : ℕ} (h : q.less s j k = true) :
    s.le (q.value (s.place j)) (q.value (s.place k)) := by
  cases s <;> simp only [less, mmless, decide_eq_true_eq] at h <;> exact Std.le_of_lt h

/-- The child of entry `i` that the loop of the sort down goes on with. -/
theorem least_child (q : RollingMedian Item) (s : Side) {i : ℕ} (hi : i * 2 ≤ q.count s) :
    ∃ c, (if i * 2 < q.count s && q.less s (i * 2 + 1) (i * 2) then i * 2 + 1 else i * 2) = c ∧
      c / 2 = i ∧ c ≤ q.count s ∧ ∀ k, k / 2 = i → k ≤ q.count s →
        s.le (q.value (s.place c)) (q.value (s.place k)) := by
  by_cases hless : i * 2 < q.count s ∧ q.less s (i * 2 + 1) (i * 2) = true
  · refine ⟨i * 2 + 1, if_pos (by simpa using hless), by omega, by omega, ?_⟩
    intro k hk _
    obtain rfl | rfl : k = i * 2 ∨ k = i * 2 + 1 := by omega
    · exact le_of_less hless.2
    · exact Side.le_refl s _
  · refine ⟨i * 2, if_neg (by simpa using hless), by omega, hi, ?_⟩
    intro k hk hcount
    obtain rfl | rfl : k = i * 2 ∨ k = i * 2 + 1 := by omega
    · exact Side.le_refl s _
    have hge : q.less s (i * 2 + 1) (i * 2) ≠ true := fun h => hless ⟨by omega, h⟩
    exact not_not.1 fun hle => hge ((less_iff q s _ _).2 hle)

section Sifting

variable (hq : q.Arranged) (hsz : 1 ≤ q.sz)

include hq hsz

/-- A conditional exchange of entries in use. -/
theorem cmpExch_cases {j : ℕ} (hj : j ≤ q.count s) (hk : k ≤ q.count s) :
    (∃ q', q.cmpExch s j k = (true, q') ∧ Sifted q q' ∧
      q'.value = exchanged q.value (s.place j) (s.place k) ∧
      s.le (q.value (s.place j)) (q.value (s.place k))) ∨
    (q.cmpExch s j k = (false, q) ∧ s.le (q.value (s.place k)) (q.value (s.place j))) := by
  have hj' := (hq.slot_lt hsz s j).2 hj
  have hk' := (hq.slot_lt hsz s k).2 hk
  by_cases hless : q.less s j k = true
  · left
    have hle := le_of_less hless
    cases s with
    | min =>
      refine ⟨_, if_pos hless, ⟨hq.mmexchange hj' hk', rfl⟩, mmexchange_value q _ _, hle⟩
    | max =>
      refine ⟨_, if_pos hless, ⟨hq.mmexchange hk' hj', rfl⟩, ?_, hle⟩
      rw [mmexchange_value, exchanged_comm]
  · right
    refine ⟨?_, not_not.1 fun hle => hless ((less_iff q s j k).2 hle)⟩
    cases s <;> exact if_neg hless

/-- The loop of the sort down ends with both heaps in order, before its fuel is used up. -/
theorem sortDownLoop_ordered (s : Side) {fuel i : ℕ} (hi : 1 ≤ i)
    (hfuel : q.count s < fuel + i * 2) (hdown : Down q.count q.value s i) :
    Sifted q (sortDownLoop s fuel (i * 2) q) ∧
      Ordered q.count (sortDownLoop s fuel (i * 2) q).value := by
  induction fuel generalizing i q with
  | zero =>
    exact ⟨Sifted.refl hq, hdown.done fun k _ hk hcount => absurd hcount (by omega)⟩
  | succ fuel ih =>
    unfold sortDownLoop
    by_cases hcount : i * 2 ≤ q.count s
    · obtain ⟨c, hif, hc, hcs, hleast⟩ := least_child q s hcount
      rw [if_pos hcount]
      simp only [hif, hc]
      rcases cmpExch_cases hq hsz hcs (k := i) (by omega) with
        ⟨q', hexch, hsift, hvalue, hle⟩ | ⟨hexch, hle⟩
      · have hdown' : Down q'.count q'.value s c := by
          rw [hsift.count_eq, hvalue]
          exact hdown.move hi hc hcs hleast hle
        have hrest := ih hsift.arranged (hsift.sz_eq ▸ hsz) (by omega)
          (by rw [hsift.count_eq]; omega) hdown'
        rw [hexch]
        rw [hsift.count_eq] at hrest
        exact ⟨hsift.trans hrest.1, hrest.2⟩
      · rw [hexch]
        refine ⟨Sifted.refl hq, hdown.done fun k _ hk hkc => ?_⟩
        unfold Edge
        rw [hk]
        exact Side.le_trans hle (hleast k hk hkc)
    · rw [if_neg hcount]
      exact ⟨Sifted.refl hq, hdown.done fun k _ hk hkc => absurd hkc (by omega)⟩

theorem sortDown_ordered {i : ℕ} (hi : 1 ≤ i) (hdown : Down q.count q.value s i) :
    Sifted q (sortDown s i q) ∧ Ordered q.count (sortDown s i q).value :=
  sortDownLoop_ordered hq hsz s hi (by omega) hdown

/-- The loop of the sort up ends with both heaps in order, or with a new median that the first entry
of the other heap may be out of order with. -/
theorem sortUpLoop_ordered (s : Side) {fuel i : ℕ} (hi : 1 ≤ i) (hcount : i ≤ q.count s)
    (hfuel : i ≤ fuel) (hup : Up q.count q.value s i) :
    ∃ b q', sortUpLoop s fuel i q = (b, q') ∧ Sifted q q' ∧
      (b = false → Ordered q.count q'.value) ∧
      (b = true → Centre q.count q'.value ∧ Edge q'.value s 1) := by
  induction fuel generalizing i q with
  | zero => exact absurd hfuel (by omega)
  | succ fuel ih =>
    unfold sortUpLoop
    rw [if_pos (show 0 < i from hi)]
    rcases cmpExch_cases hq hsz hcount (k := i / 2) (by omega) with
      ⟨q', hexch, hsift, hvalue, hle⟩ | ⟨hexch, hle⟩
    · rw [hexch]
      by_cases hone : i = 1
      · subst hone
        refine ⟨true, q', ?_, hsift, fun h => absurd h (by decide), fun _ => ?_⟩
        · cases fuel <;> rfl
        · rw [hvalue]
          rw [show 1 / 2 = 0 from rfl, Side.place_zero] at hle ⊢
          exact hup.centre hle
      · have hup' : Up q'.count q'.value s (i / 2) := by
          rw [hsift.count_eq, hvalue]
          exact hup.move (by omega) hcount hle
        obtain ⟨b, q'', hloop, hsift', hfalse, htrue⟩ :=
          ih hsift.arranged (hsift.sz_eq ▸ hsz) (by omega)
            (by rw [hsift.count_eq]; omega) (by omega) hup'
        rw [hsift.count_eq] at hfalse htrue
        exact ⟨b, q'', hloop, hsift.trans hsift', hfalse, htrue⟩
    · rw [hexch]
      have hne : (i == 0) = false := by simp; omega
      exact ⟨false, q, by rw [hne]; rfl, Sifted.refl hq, fun _ => hup.done fun _ => hle,
        fun h => absurd h (by decide)⟩

/-! ## The ends of `insert` -/

/-- Afterwards the first entry of that side is in order with the median, and so is the other first
entry if it was before. -/
theorem settleFirst_centre (hcount : 1 ≤ q.count s) (hcentre : Centre q.count q.value) :
    Sifted q (settleFirst s q) ∧ Centre q.count (settleFirst s q).value ∧
      ∀ t, 1 ≤ q.count t → t = s ∨ Edge q.value t 1 → Edge (settleFirst s q).value t 1 := by
  unfold settleFirst
  rcases cmpExch_cases hq hsz hcount (k := 0) (by omega) with
    ⟨q', hexch, hsift, hvalue, hle⟩ | ⟨hexch, hle⟩
  · have hdown : Down q'.count q'.value s 1 := by
      rw [hsift.count_eq, hvalue]
      rw [Side.place_zero] at hle ⊢
      exact hcentre.move hcount hle
    have hsort := sortDown_ordered hsift.arranged (hsift.sz_eq ▸ hsz)
      (Nat.le_refl 1) hdown
    rw [hexch]
    rw [hsift.count_eq] at hsort
    refine ⟨hsift.trans hsort.1, hsort.2.centre fun _ _ _ _ => rfl, fun t ht _ => ?_⟩
    exact hsort.2 t 1 (Nat.le_refl 1) ht
  · rw [hexch]
    refine ⟨Sifted.refl hq, hcentre, fun t _ ht => ?_⟩
    rcases ht with rfl | hedge
    · exact hle
    · exact hedge

theorem settleSide_centre (s : Side)
    (hcentre : Centre q.count q.value) :
    Sifted q (settleSide s q) ∧ Centre q.count (settleSide s q).value ∧
      ∀ t, 1 ≤ q.count t → t = s ∨ Edge q.value t 1 → Edge (settleSide s q).value t 1 := by
  unfold settleSide
  split_ifs with hcount
  · exact settleFirst_centre hq hsz (Nat.pos_of_ne_zero (bne_iff_ne.1 hcount)) hcentre
  refine ⟨Sifted.refl hq, hcentre, fun t ht hts => ?_⟩
  rcases hts with rfl | hedge
  · exact absurd (bne_iff_ne.2 (by omega)) hcount
  · exact hedge

theorem settle_ordered (hk : 1 ≤ k) (hcount : k ≤ q.count s) (hup : Up q.count q.value s k) :
    Sifted q (settle s k q) ∧ Ordered q.count (settle s k q).value := by
  obtain ⟨b, q1, hloop, hsift, hfalse, htrue⟩ :=
    sortUpLoop_ordered hq hsz s hk hcount (Nat.le_refl k) hup
  unfold settle sortUp
  rw [hloop]
  cases b with
  | false => exact ⟨hsift, hfalse rfl⟩
  | true =>
    obtain ⟨hcentre, hedge⟩ := htrue rfl
    rw [← hsift.count_eq] at hcentre ⊢
    obtain ⟨hsift', hcentre', hfirst⟩ := settleSide_centre hsift.arranged
      (hsift.sz_eq ▸ hsz) s.other hcentre
    refine ⟨hsift.trans hsift', hcentre'.done fun t ht => hfirst t ht ?_⟩
    by_cases hts : t = s
    · exact Or.inr (hts ▸ hedge)
    · exact Or.inl (Side.eq_other hts)

/-- The source does not ask for a max heap here: it is not empty when the min heap is not. -/
theorem settleMin_ordered (hk : 1 ≤ k) (hcount : k ≤ q.minCt) (hup : Up q.count q.value .min k) :
    Sifted q (settleMin k q) ∧ Ordered q.count (settleMin k q).value := by
  obtain ⟨b, q1, hloop, hsift, -, -⟩ :=
    sortUpLoop_ordered hq hsz .min hk hcount (Nat.le_refl k) hup
  have hmax : q1.count .max ≠ 0 := by
    have hmin := hq.minCt_eq
    have hmax := hq.maxCt_eq
    rw [hsift.count_eq]
    change q.maxCt ≠ 0
    omega
  have heq : settleMin k q = settle .min k q := by
    have hside : settleSide .max q1 = settleFirst .max q1 := if_pos (bne_iff_ne.2 hmax)
    unfold settleMin minSortUp settle sortUp
    rw [Int.natAbs_natCast, hloop]
    simp only [Side.other, hside]
    rfl
  rw [heq]
  exact settle_ordered hq hsz hk hcount hup

theorem settleMax_ordered (hk : 1 ≤ k) (hcount : k ≤ q.maxCt) (hup : Up q.count q.value .max k) :
    Sifted q (settleMax (-k) q) ∧ Ordered q.count (settleMax (-k) q).value := by
  have heq : settleMax (-k) q = settle .max k q := by
    unfold settleMax maxSortUp settle
    rw [Int.natAbs_neg, Int.natAbs_natCast]
    rcases q.sortUp .max k with ⟨b, q1⟩
    cases b <;> rfl
  rw [heq]
  exact settle_ordered hq hsz hk hcount hup

theorem settleMedian_ordered (hcentre : Centre q.count q.value) :
    Sifted q (settleMedian q) ∧ Ordered q.count (settleMedian q).value := by
  rw [settleMedian_eq]
  obtain ⟨hsift, hcentre1, hfirst⟩ := settleSide_centre hq hsz .max hcentre
  rw [← hsift.count_eq] at hcentre1 hfirst ⊢
  obtain ⟨hsift', hcentre2, hsecond⟩ := settleSide_centre hsift.arranged
    (hsift.sz_eq ▸ hsz) .min hcentre1
  refine ⟨hsift.trans hsift', hcentre2.done fun t ht => hsecond t ht ?_⟩
  cases t with
  | min => exact Or.inl rfl
  | max => exact Or.inr (hfirst .max ht (Or.inl rfl))

end Sifting

/-! ## Insertion -/

section Branches

variable {q : RollingMedian Item} (hq : q.Arranged) (hord : Ordered q.count q.value) (v : Item)

include hq hord

/-- `insert` of an item in the min heap. -/
theorem insert_min (hp : 0 < q.pos q.idx) : Inserted q v (q.insert v) := by
  have hle := hq.sz_le
  have hmin := hq.minCt_eq
  have hmax := hq.maxCt_eq
  have hsz := write_sz_pos v hq
  obtain ⟨k, hpos⟩ : ∃ k : ℕ, q.pos q.idx = Side.min.place k := Int.eq_ofNat_of_zero_le hp.le
  have hk : 1 ≤ k := by rw [hpos, Side.place_min] at hp; omega
  have hslot : q.sz < q.N → 2 * k = q.sz := fun hlt => by
    rw [← slot_min, ← hpos, hq.pos_idx hlt, slot_fillPosition]
  unfold insert
  rw [if_pos hp, hpos]
  split <;> rename_i hroom
  · change q.minCt < (q.N - 1) / 2 at hroom
    have hlt : q.sz < q.N := by omega
    have hm : q.minCt + 1 = q.sz / 2 := by omega
    have hM : q.maxCt = (q.sz + 1) / 2 := by omega
    obtain ⟨hcount, hup⟩ := added_up hq hord v hk hpos hlt hm hM
    exact Inserted.of_sifted _ rfl
      (settleMin_ordered (hq.write v (hm.trans (by omega)) (hM.trans (by omega))) hsz hk hcount hup)
  · change ¬ q.minCt < (q.N - 1) / 2 at hroom
    have hfull : q.sz = q.N := by omega
    have harr : (q.write v).Arranged := hq.write v (by omega) (by omega)
    obtain ⟨hcount, hdown, hup⟩ := replaced_cases hq hord v hk hpos hfull
    refine Inserted.of_sifted (q.write v) rfl ?_
    split_ifs with hold
    · exact sortDown_ordered harr hsz hk (hdown (Std.le_of_lt hold))
    · exact settleMin_ordered harr hsz hk hcount (hup (Std.not_lt.1 hold))

/-- `insert` of an item in the max heap. -/
theorem insert_max (hn : q.pos q.idx < 0) : Inserted q v (q.insert v) := by
  have hle := hq.sz_le
  have hmin := hq.minCt_eq
  have hmax := hq.maxCt_eq
  have hsz := write_sz_pos v hq
  obtain ⟨k, hneg⟩ : ∃ k : ℕ, -q.pos q.idx = k := Int.eq_ofNat_of_zero_le (by omega)
  have hpos : q.pos q.idx = Side.max.place k := by rw [Side.place_max]; omega
  have hk : 1 ≤ k := by omega
  have hslot : q.sz < q.N → 2 * k - 1 = q.sz := fun hlt => by
    rw [← slot_max, ← hpos, hq.pos_idx hlt, slot_fillPosition]
  unfold insert
  rw [if_neg (not_lt.2 hn.le), if_pos hn, hpos]
  split <;> rename_i hroom
  · change q.maxCt < q.N / 2 at hroom
    have hlt : q.sz < q.N := by omega
    have hm : q.minCt = q.sz / 2 := by omega
    have hM : q.maxCt + 1 = (q.sz + 1) / 2 := by omega
    obtain ⟨hcount, hup⟩ := added_up hq hord v hk hpos hlt hm hM
    exact Inserted.of_sifted _ rfl
      (settleMax_ordered (hq.write v (hm.trans (by omega)) (hM.trans (by omega))) hsz hk hcount hup)
  · change ¬ q.maxCt < q.N / 2 at hroom
    have hfull : q.sz = q.N := by omega
    have harr : (q.write v).Arranged := hq.write v (by omega) (by omega)
    obtain ⟨hcount, hdown, hup⟩ := replaced_cases hq hord v hk hpos hfull
    refine Inserted.of_sifted (q.write v) rfl ?_
    split_ifs with hold
    · rw [maxSortDown, Side.place_max, Int.natAbs_neg, Int.natAbs_natCast]
      exact sortDown_ordered harr hsz hk (hdown (Std.le_of_lt hold))
    · exact settleMax_ordered harr hsz hk hcount (hup (Std.not_lt.1 hold))

/-- `insert` of the first item, or of one that replaces the median. -/
theorem insert_median (hpos : q.pos q.idx = 0) : Inserted q v (q.insert v) := by
  have hle := hq.sz_le
  have hmin := hq.minCt_eq
  have hmax := hq.maxCt_eq
  have hagree := write_agree v hq
  rw [hpos] at hagree
  have hins : q.insert v = settleMedian (q.write v) := by
    unfold insert
    rw [hpos, if_neg (lt_irrefl _), if_neg (lt_irrefl _)]
  have harr : (q.write v).Arranged := by
    have hzero : q.sz < q.N → q.sz = 0 := fun hlt => by
      rw [← slot_fillPosition q.sz, ← hq.pos_idx hlt, hpos]
      rfl
    exact hq.write v (by omega) (by omega)
  rw [hins]
  exact Inserted.of_sifted _ rfl
    (settleMedian_ordered harr (write_sz_pos v hq) (hord.centre hagree))

/-- **An insertion keeps the arrays arranged and both heaps in order.** -/
theorem insert_inserted : Inserted q v (q.insert v) := by
  rcases lt_trichotomy (q.pos q.idx) 0 with hneg | hzero | hpos
  · exact insert_max hq hord v hneg
  · exact insert_median hq hord v hzero
  · exact insert_min hq hord v hpos

end Branches

end RollingMedian

end Hashmonkey.Core
