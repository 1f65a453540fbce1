import Hashmonkey.Core.RollingMedian

/-!
# Runs of rolling medians (`epee/rolling_median.h`)

What the objects of `rolling_median_t` hold after any sequence of operations on them.

* `Holds`: the circular queue of an object holds the last items of a history, newest first. It is
  what `insert` and `clear` keep (`Holds.insert`, `holds_clear`).
* `median_eq`: while it holds an item, the object's `median()` is `misc_utils::median` of the items
  held.
* `Objects`: a program's objects by their names. Copy assignment is deleted, so a copy is a copy
  construction, and an assignment is a move. A moved-from object has lost its arrays: it may only be
  assigned to again.
* `Histories` is what the objects are for: each has a capacity and the items inserted since it was
  cleared, and a copy takes its source's history along.

Result: `rolling_medians_hold_histories`. Every run of operations on live objects succeeds, and
afterwards each object holds the items of its history that its capacity allows.
-/

namespace Hashmonkey.Core

open Lib List Function

/-! ## The middle of a sorted vector -/

variable {v below above : List UInt64} {m : UInt64}

/-- A sorted vector around one of its items. -/
theorem sorted_around (h : v.Perm (below ++ m :: above)) (hbelow : ∀ a ∈ below, a ≤ m)
    (habove : ∀ b ∈ above, m ≤ b) : sorted v = sorted below ++ m :: sorted above := by
  refine sorted_eq_of_perm ?_ ?_
  · exact h.trans ((sorted_perm below).symm.append ((sorted_perm above).symm.cons m))
  · have hbelow' : ∀ a ∈ sorted below, a ≤ m :=
      fun a ha => hbelow a ((sorted_perm below).mem_iff.1 ha)
    have habove' : ∀ b ∈ sorted above, m ≤ b :=
      fun b hb => habove b ((sorted_perm above).mem_iff.1 hb)
    refine pairwise_append.2 ⟨sorted_pairwise below,
      pairwise_cons.2 ⟨habove', sorted_pairwise above⟩, ?_⟩
    intro a ha b hb
    rcases mem_cons.1 hb with rfl | hb
    · exact hbelow' a ha
    · exact UInt64.le_trans (hbelow' a ha) (habove' b hb)

theorem length_sorted (v : List UInt64) : (sorted v).length = v.length := (sorted_perm v).length_eq

theorem median_odd (h : v.Perm (below ++ m :: above)) (hbelow : ∀ a ∈ below, a ≤ m)
    (habove : ∀ b ∈ above, m ≤ b) (hlen : below.length = above.length) : median v = m := by
  have hv := h.length_eq
  rw [length_append, length_cons] at hv
  have hempty : v.isEmpty = false := by
    rw [isEmpty_eq_false_iff, ← length_pos_iff]
    omega
  have hhalf : v.length / 2 = (sorted below).length := by rw [length_sorted]; omega
  unfold median
  rw [hempty, if_neg (by decide), if_pos (by omega), sorted_around h hbelow habove, hhalf]
  simp

theorem median_even {x : UInt64} (h : v.Perm (x :: below ++ m :: above)) (hx : ∀ a ∈ below, a ≤ x)
    (hxm : x ≤ m) (habove : ∀ b ∈ above, m ≤ b) (hlen : below.length = above.length) :
    median v = getMid x m := by
  have hv := h.length_eq
  rw [length_append, length_cons, length_cons] at hv
  have hempty : v.isEmpty = false := by
    rw [isEmpty_eq_false_iff, ← length_pos_iff]
    omega
  have hhalf : v.length / 2 = (sorted below).length + 1 := by rw [length_sorted]; omega
  have hsorted : sorted v = sorted below ++ x :: m :: sorted above := by
    have hperm : v.Perm (below ++ x :: (m :: above)) := h.trans perm_middle.symm
    have habove' : ∀ b ∈ m :: above, x ≤ b := by
      intro b hb
      rcases mem_cons.1 hb with rfl | hb
      · exact hxm
      · exact UInt64.le_trans hxm (habove b hb)
    have hmin : sorted ([] ++ m :: above) = sorted [] ++ m :: sorted above :=
      sorted_around (List.Perm.refl _) (by simp) habove
    rw [sorted_around hperm hx habove']
    exact congrArg (fun l => sorted below ++ x :: l) hmin
  unfold median
  rw [hempty, if_neg (by decide), if_neg (by omega), hsorted, hhalf]
  simp

theorem getMid_comm (a b : UInt64) : getMid a b = getMid b a := by
  rw [← UInt64.toNat_inj, toNat_getMid, toNat_getMid, Nat.add_comm]

namespace RollingMedian

/-! ## `clear` -/

section Clear

variable {Item : Type}

theorem fill_frame (n : ℕ) (q : RollingMedian Item) :
    fill n q = { q with pos := (fill n q).pos, heap := (fill n q).heap } := by
  induction n generalizing q with
  | zero => rfl
  | succ n ih =>
    unfold fill
    rw [ih]

theorem fill_pos (n : ℕ) (q : RollingMedian Item) (k : ℕ) :
    (fill n q).pos k = if k < n then fillPosition k else q.pos k := by
  induction n generalizing q with
  | zero => rfl
  | succ n ih =>
    unfold fill
    rw [ih]
    rcases lt_trichotomy k n with hk | rfl | hk
    · rw [if_pos hk, if_pos (by omega)]
    · rw [if_neg (lt_irrefl k), if_pos k.lt_succ_self]
      exact update_self k _ _
    rw [if_neg (by omega), if_neg (by omega)]
    exact update_of_ne (by omega) _ _

theorem fill_heap (n : ℕ) (q : RollingMedian Item) (x : ℤ) :
    (fill n q).heap x = if slot x < n then slot x else q.heap x := by
  induction n generalizing q with
  | zero => rfl
  | succ n ih =>
    have hx : x = fillPosition n ↔ slot x = n := by
      constructor
      · rintro rfl
        exact slot_fillPosition n
      · rintro rfl
        exact (fillPosition_slot x).symm
    unfold fill
    rw [ih]
    simp only [update_apply, hx]
    split_ifs <;> omega

theorem clear_frame (q : RollingMedian Item) : q.clear.N = q.N ∧ q.clear.sz = 0 ∧
    q.clear.minCt = 0 ∧ q.clear.maxCt = 0 ∧ q.clear.idx = 0 := by
  unfold clear
  rw [fill_frame]
  exact ⟨rfl, rfl, rfl, rfl, rfl⟩

theorem clear_arranged (q : RollingMedian Item) (hN : 0 < q.N) : q.clear.Arranged := by
  have hpos : ∀ j < q.N, q.clear.pos j = fillPosition j := fun j hj => by
    unfold clear
    rw [fill_pos, if_pos hj]
  have hheap : ∀ x, slot x < q.N → q.clear.heap x = slot x := fun x hx => by
    unfold clear
    rw [fill_heap, if_pos hx]
  obtain ⟨hN', hsz, hmin, hmax, hidx⟩ := clear_frame q
  refine ⟨by omega, by omega, by omega, by omega, by omega, by omega, ?_, ?_, ?_⟩
  · intro x hx
    rw [hN'] at hx ⊢
    rw [hheap x hx, hpos _ hx, fillPosition_slot]
    exact ⟨hx, rfl⟩
  · intro j hj
    rw [hN'] at hj ⊢
    rw [hpos j hj, slot_fillPosition]
    refine ⟨hj, ?_⟩
    rw [hheap _ (by rwa [slot_fillPosition]), slot_fillPosition]
  · intro x _ hx
    rw [hN'] at hx
    exact hheap x hx

end Clear

/-! ## The items held -/

/-- The circular queue holds the newest items of the history, which lists the newest first. -/
structure Holds {Item : Type} (q : RollingMedian Item) (history : List Item) : Prop where
  sz_eq : q.sz = min history.length q.N
  item : ∀ j < q.sz, history[j]? = some (q.data ((q.idx + q.N - 1 - j) % q.N))

/-- The item before the newest `j` ones, seen from the next index. -/
theorem queue_next {N idx j : ℕ} (hidx : idx < N) (hj : j + 1 < N) :
    ((idx + 1) % N + N - 1 - (j + 1)) % N = (idx + N - 1 - j) % N := by
  by_cases hlast : idx + 1 = N
  · have hsplit : idx + N - 1 - j = N + (N - 2 - j) := by omega
    rw [hlast, Nat.mod_self, hsplit, Nat.add_mod_left]
    congr 1
    omega
  · rw [Nat.mod_eq_of_lt (show idx + 1 < N by omega)]
    congr 1
    omega

/-- The index of the item before the newest `j` ones, and back. -/
theorem queue_index {N idx j : ℕ} (hidx : idx < N) (hj : j < N) :
    (idx + N - 1 - j) % N = if j < idx then idx - 1 - j else idx + N - 1 - j := by
  split_ifs with h
  · rw [show idx + N - 1 - j = N + (idx - 1 - j) by omega, Nat.add_mod_left,
      Nat.mod_eq_of_lt (by omega)]
  · exact Nat.mod_eq_of_lt (by omega)

theorem Holds.insert {Item : Type} [LE Item] {q q' : RollingMedian Item} {v : Item}
    {history : List Item} (hq : q.Arranged) (h : Holds q history) (hins : Inserted q v q') :
    Holds q' (v :: history) := by
  have hsz := h.sz_eq
  have hidx := hq.idx_lt
  refine ⟨?_, ?_⟩
  · rw [hins.sz_eq, hins.N_eq, hsz, length_cons]
    omega
  · intro j hj
    rw [hins.sz_eq] at hj
    rw [hins.data_eq, hins.idx_eq, hins.N_eq]
    cases j with
    | zero =>
      have hnew : ((q.idx + 1) % q.N + q.N - 1 - 0) % q.N = q.idx := by
        by_cases hlast : q.idx + 1 = q.N
        · rw [hlast, Nat.mod_self, Nat.mod_eq_of_lt (by omega)]
          omega
        rw [Nat.mod_eq_of_lt (show q.idx + 1 < q.N by omega),
          show q.idx + 1 + q.N - 1 - 0 = q.N + q.idx by omega, Nat.add_mod_left,
          Nat.mod_eq_of_lt hidx]
      rw [hnew, update_self]
      rfl
    | succ j =>
      have hjN : j + 1 < q.N := by omega
      have hne : (q.idx + q.N - 1 - j) % q.N ≠ q.idx := by
        rw [queue_index hidx (by omega)]
        split_ifs <;> omega
      rw [queue_next hidx hjN, update_of_ne hne, getElem?_cons_succ]
      exact h.item j (by omega)

theorem holds_clear {Item : Type} (q : RollingMedian Item) : Holds q.clear [] := by
  have hsz := (clear_frame q).2.1
  refine ⟨by rw [hsz]; rfl, fun j hj => ?_⟩
  rw [hsz] at hj
  exact absurd hj (Nat.not_lt_zero j)

/-! ## The median of the items held -/

section Median

variable {Item : Type} {q : RollingMedian Item}

/-- The items held, in the order of the heap: the max heap, the median, the min heap. -/
def heapItems (q : RollingMedian Item) : List Item :=
  (List.range q.maxCt).map (fun k => q.value (Side.max.place (k + 1))) ++
    q.value 0 :: (List.range q.minCt).map fun k => q.value (Side.min.place (k + 1))

theorem range_perm_of_subset {l : List ℕ} {n : ℕ} (hlen : l.length ≤ n)
    (h : ∀ j < n, j ∈ l) : (List.range n).Perm l := by
  have hsub : (List.range n).Subperm l :=
    subperm_of_subset nodup_range fun j hj => h j (mem_range.1 hj)
  exact hsub.perm_of_length_le (by rwa [length_range])

/-- Each index of the queue in use stands at an entry of the heap in use. -/
theorem heapItems_perm (hq : q.Arranged) (hsz : 1 ≤ q.sz) :
    ((List.range q.sz).map q.data).Perm q.heapItems := by
  have hmin := hq.minCt_eq
  have hmax := hq.maxCt_eq
  have hle := hq.sz_le
  have hperm : (List.range q.sz).Perm
      ((List.range q.maxCt).map (fun k => q.heap (Side.max.place (k + 1))) ++
        q.heap 0 :: (List.range q.minCt).map fun k => q.heap (Side.min.place (k + 1))) := by
    refine range_perm_of_subset ?_ fun j hj => ?_
    · simp only [length_append, length_map, length_range, length_cons]
      omega
    · obtain ⟨hslot, hheap⟩ := hq.heap_pos j (by omega)
      have hused : slot (q.pos j) < q.sz := by
        by_contra hge
        have := hq.fresh _ (Nat.le_of_not_lt hge) hslot
        omega
      rw [← hheap]
      generalize q.pos j = x at hused
      rcases lt_trichotomy x 0 with hneg | rfl | hpos
      · obtain ⟨k, rfl⟩ : ∃ k : ℕ, x = Side.max.place (k + 1) :=
          ⟨(-x - 1).toNat, by rw [Side.place_max]; omega⟩
        have hk := (hq.slot_lt hsz .max (k + 1)).1 hused
        exact mem_append_left _ (mem_map.2 ⟨k, mem_range.2 hk, rfl⟩)
      · exact mem_append_right _ mem_cons_self
      · obtain ⟨k, rfl⟩ : ∃ k : ℕ, x = Side.min.place (k + 1) :=
          ⟨(x - 1).toNat, by rw [Side.place_min]; omega⟩
        have hk := (hq.slot_lt hsz .min (k + 1)).1 hused
        exact mem_append_right _
          (mem_cons_of_mem _ (mem_map.2 ⟨k, mem_range.2 hk, rfl⟩))
  have hmap := hperm.map q.data
  rwa [map_append, map_cons, map_map, map_map] at hmap

/-- The items of the history that are held are the items in the queue. -/
theorem Holds.perm {history : List Item} (hq : q.Arranged) (h : Holds q history) :
    (history.take q.N).Perm ((List.range q.sz).map q.data) := by
  have hsz := h.sz_eq
  have hidx := hq.idx_lt
  have heq : history.take q.N =
      (List.range q.sz).map fun j => q.data ((q.idx + q.N - 1 - j) % q.N) := by
    refine ext_getElem? fun j => ?_
    by_cases hj : j < q.sz
    · rw [getElem?_take, if_pos (by omega), h.item j hj, getElem?_map,
        getElem?_range hj]
      rfl
    · rw [getElem?_eq_none (by rw [length_take]; omega),
        getElem?_eq_none (by simpa using hj)]
  have hperm : (List.range q.sz).Perm
      ((List.range q.sz).map fun j => (q.idx + q.N - 1 - j) % q.N) := by
    refine range_perm_of_subset (by simp) fun k hk => mem_map.2 ?_
    have hfull := hq.idx_eq
    by_cases hki : k < q.idx
    · refine ⟨q.idx - 1 - k, mem_range.2 (by omega), ?_⟩
      rw [queue_index hidx (by omega), if_pos (by omega)]
      omega
    · refine ⟨q.idx + q.N - 1 - k, mem_range.2 (by omega), ?_⟩
      rw [queue_index hidx (by omega), if_neg (by omega)]
      omega
  rw [heq]
  have hmap := hperm.map q.data
  rw [map_map] at hmap
  exact hmap.symm

end Median

variable {q : RollingMedian UInt64}

/-- **While an item is held, `median()` is the median of the items held.** -/
theorem median_eq {history : List UInt64} (hq : q.Arranged) (hord : Ordered q.count q.value)
    (h : Holds q history) (hsz : 1 ≤ q.sz) : q.median = Core.median (history.take q.N) := by
  have hmin := hq.minCt_eq
  have hmax := hq.maxCt_eq
  have hperm := (h.perm hq).trans (heapItems_perm hq hsz)
  have habove : ∀ b ∈ (List.range q.minCt).map fun k => q.value (Side.min.place (k + 1)),
      q.value 0 ≤ b := by
    intro b hb
    obtain ⟨k, hk, rfl⟩ := mem_map.1 hb
    exact hord.centre_le .min (mem_range.1 hk)
  unfold median
  dsimp only
  split_ifs with heven
  · obtain ⟨n, hn⟩ : ∃ n, q.maxCt = n + 1 := ⟨q.maxCt - 1, by omega⟩
    unfold heapItems at hperm
    rw [hn, range_succ_eq_map, map_cons, map_map] at hperm
    refine ((median_even hperm ?_ ?_ habove ?_).trans (getMid_comm _ _)).symm
    · intro a ha
      obtain ⟨k, hk, rfl⟩ := mem_map.1 ha
      have hk' := mem_range.1 hk
      exact hord.first_le .max (k := k + 1 + 1) (by omega) (by change k + 2 ≤ q.maxCt; omega)
    · exact hord.centre_le .max (k := 1) (by change 1 ≤ q.maxCt; omega)
    · simp only [length_map, length_range]
      omega
  · refine (median_odd hperm ?_ habove ?_).symm
    · intro a ha
      obtain ⟨k, hk, rfl⟩ := mem_map.1 ha
      exact hord.centre_le .max (mem_range.1 hk)
    · simp only [length_map, length_range]
      omega

/-! ## Objects and their histories -/

/-- The copy constructor: a new allocation of the same size, with the same contents. -/
def copyConstruct (q : RollingMedian UInt64) : Option (RollingMedian UInt64) :=
  if (q.N * 16 : ℕ) ≤ allocationSize q.N then some q else none

theorem allocationSize_fits {N : ℕ} (hN : N < 2 ^ 27) : (N * 16 : ℕ) ≤ allocationSize N := by
  unfold allocationSize
  rw [BitVec.toInt_eq_toNat_of_lt] <;> rw [BitVec.toNat_ofNat] <;> omega

/-- The operations on named objects. Construction and copy give the name a new object, as a
declaration or an assignment from a temporary does. -/
inductive Operation where
  | construct (i N : ℕ) (memory : RollingMedian UInt64)
  | copy (i j : ℕ)
  | move (i j : ℕ)
  | insert (i : ℕ) (v : UInt64)
  | clear (i : ℕ)

/-- The objects of a program; a name without arrays has none. -/
abbrev Objects := ℕ → Option (RollingMedian UInt64)

/-- One operation; `none` is one on a name without arrays, or one whose allocation fails. -/
def Objects.step (σ : Objects) : Operation → Option Objects
  | .construct i N memory => (create N memory).map fun q => update σ i (some q)
  | .copy i j => ((σ j).bind copyConstruct).map fun q => update σ i (some q)
  | .move i j => some (update (update σ i (σ j)) j none)
  | .insert i v => (σ i).map fun q => update σ i (some (q.insert v))
  | .clear i => (σ i).map fun q => update σ i (some q.clear)

def Objects.run (ops : List Operation) : Option Objects :=
  ops.foldlM Objects.step fun _ => none

/-- What an object is for: the items inserted since it was cleared, the newest first. -/
structure History where
  capacity : ℕ
  items : List UInt64

abbrev Histories := ℕ → Option History

/-- The same operation on the histories; `none` is one on a name without a history, or a capacity
out of range. -/
def Histories.step (H : Histories) : Operation → Option Histories
  | .construct i N _ =>
    if 1 ≤ N ∧ N < 2 ^ 27 then some (update H i (some ⟨N, []⟩)) else none
  | .copy i j => (H j).map fun h => update H i (some h)
  | .move i j => some (update (update H i (H j)) j none)
  | .insert i v => (H i).map fun h => update H i (some { h with items := v :: h.items })
  | .clear i => (H i).map fun h => update H i (some { h with items := [] })

def Histories.run (ops : List Operation) : Option Histories :=
  ops.foldlM Histories.step fun _ => none

/-- The invariant of an object with a history. -/
structure Follows (q : RollingMedian UInt64) (h : History) : Prop where
  arranged : q.Arranged
  ordered : Ordered q.count q.value
  holds : Holds q h.items
  N_eq : q.N = h.capacity
  N_lt : q.N < 2 ^ 27

theorem Follows.clear (hN : 1 ≤ q.N) (hlt : q.N < 2 ^ 27) : Follows q.clear ⟨q.N, []⟩ := by
  obtain ⟨hN', -, hmin, hmax, -⟩ := clear_frame q
  refine ⟨clear_arranged q hN, ?_, holds_clear q, hN', by rw [hN']; exact hlt⟩
  intro s k hk hcount
  have hzero : q.clear.count s = 0 := by
    cases s
    · exact hmin
    · exact hmax
  omega

section Kept

variable {h : History} (hq : Follows q h)

include hq

theorem Follows.sz_eq : q.sz = min h.items.length h.capacity := hq.N_eq ▸ hq.holds.sz_eq

theorem Follows.cleared : Follows q.clear { h with items := [] } :=
  hq.N_eq ▸ Follows.clear hq.arranged.capacity hq.N_lt

theorem Follows.insert (v : UInt64) :
    Follows (q.insert v) { h with items := v :: h.items } := by
  have hins := insert_inserted hq.arranged hq.ordered v
  exact ⟨hins.arranged, hins.ordered, hq.holds.insert hq.arranged hins,
    hins.N_eq.trans hq.N_eq, by rw [hins.N_eq]; exact hq.N_lt⟩

end Kept

/-- Each name has an object that follows its history, or neither. -/
def FollowAll (σ : Objects) (H : Histories) : Prop := ∀ i, Option.Rel Follows (σ i) (H i)

variable {σ : Objects} {H : Histories}

theorem FollowAll.update (h : FollowAll σ H) (i : ℕ)
    {q : Option (RollingMedian UInt64)} {h' : Option History} (hq : Option.Rel Follows q h') :
    FollowAll (update σ i q) (update H i h') := by
  intro j
  by_cases hj : j = i
  · subst hj
    rwa [update_self, update_self]
  rw [update_of_ne hj, update_of_ne hj]
  exact h j

theorem FollowAll.some_of (h : FollowAll σ H) {i : ℕ} {h' : History}
    (hi : H i = some h') : ∃ q, σ i = some q ∧ Follows q h' := by
  have hrel := h i
  rw [hi] at hrel
  generalize σ i = o at hrel
  cases hrel with
  | some hq => exact ⟨_, rfl, hq⟩

/-- One operation keeps the objects with their histories. -/
theorem FollowAll.step {H' : Histories} {op : Operation} (h : FollowAll σ H)
    (hstep : H.step op = some H') : ∃ σ', σ.step op = some σ' ∧ FollowAll σ' H' := by
  cases op with
  | construct i N memory =>
    simp only [Histories.step] at hstep
    split_ifs at hstep with hN
    cases hstep
    refine ⟨_, ?_, h.update i (Option.Rel.some (Follows.clear (q := { memory with N }) hN.1 hN.2))⟩
    simp only [Objects.step, create, if_pos (allocationSize_fits hN.2), Option.map_some]
  | copy i j =>
    obtain ⟨h', hj, rfl⟩ := Option.map_eq_some_iff.1 hstep
    obtain ⟨q, hq, hfollows⟩ := h.some_of hj
    refine ⟨_, ?_, h.update i (Option.Rel.some hfollows)⟩
    simp only [Objects.step, hq, Option.bind_some, copyConstruct,
      if_pos (allocationSize_fits hfollows.N_lt), Option.map_some]
  | move i j =>
    cases hstep
    exact ⟨_, rfl, (h.update i (h j)).update j Option.Rel.none⟩
  | insert i v =>
    obtain ⟨h', hi, rfl⟩ := Option.map_eq_some_iff.1 hstep
    obtain ⟨q, hq, hfollows⟩ := h.some_of hi
    refine ⟨_, ?_, h.update i (Option.Rel.some (hfollows.insert v))⟩
    simp only [Objects.step, hq, Option.map_some]
  | clear i =>
    obtain ⟨h', hi, rfl⟩ := Option.map_eq_some_iff.1 hstep
    obtain ⟨q, hq, hfollows⟩ := h.some_of hi
    refine ⟨_, ?_, h.update i (Option.Rel.some hfollows.cleared)⟩
    simp only [Objects.step, hq, Option.map_some]

theorem FollowAll.run {H' : Histories} {ops : List Operation} (h : FollowAll σ H)
    (hrun : ops.foldlM Histories.step H = some H') :
    ∃ σ', ops.foldlM Objects.step σ = some σ' ∧ FollowAll σ' H' := by
  induction ops generalizing σ H with
  | nil =>
    cases hrun
    exact ⟨σ, rfl, h⟩
  | cons op ops ih =>
    obtain ⟨H1, hstep, hrest⟩ := Option.bind_eq_some_iff.1 hrun
    obtain ⟨σ₁, hstep', h1⟩ := h.step hstep
    obtain ⟨σ', hrest', h'⟩ := ih h1 hrest
    refine ⟨σ', ?_, h'⟩
    rw [foldlM_cons, hstep']
    exact hrest'

/-- What the operations of an object tell of its history. -/
structure Answers (q : RollingMedian UInt64) (h : History) : Prop where
  size_eq : q.size = min h.items.length h.capacity
  median_eq : h.items ≠ [] → q.median = Core.median (h.items.take h.capacity)

/-- **After every run of operations, each object holds as many of the newest items of its history as
its capacity allows, and its median is their median**, where the mean of the two middle items is
rounded down and does not wrap. -/
theorem rolling_medians_hold_histories (ops : List Operation) (H : Histories)
    (hrun : Histories.run ops = some H) :
    (∃ σ, Objects.run ops = some σ ∧ ∀ i, Option.Rel Answers (σ i) (H i)) ∧
    ∀ a b, (getMid a b).toNat = (a.toNat + b.toNat) / 2 := by
  refine ⟨?_, toNat_getMid⟩
  obtain ⟨σ, hσ, hfollow⟩ := FollowAll.run (fun _ => Option.Rel.none) hrun
  refine ⟨σ, hσ, fun i => ?_⟩
  have hrel := hfollow i
  generalize σ i = o, H i = o' at hrel
  cases hrel with
  | none => exact Option.Rel.none
  | some hq =>
    refine Option.Rel.some ⟨hq.sz_eq, fun hne => ?_⟩
    have hsz := hq.holds.sz_eq
    have hN := hq.arranged.capacity
    have hlen := length_pos_iff.2 hne
    rw [← hq.N_eq]
    exact median_eq hq.arranged hq.ordered hq.holds (by omega)

/-- An allocation of zeros. -/
def sampleMemory : RollingMedian UInt64 := ⟨fun _ => 0, fun _ => 0, fun _ => 0, 0, 0, 0, 0, 0⟩

/-- Four items into an object of capacity three, a copy of it that a fifth goes into, and a move. -/
def sampleOperations : List Operation :=
  [.construct 0 3 sampleMemory, .insert 0 5, .insert 0 9, .insert 0 7, .insert 0 2, .copy 1 0,
    .insert 1 8, .move 2 0]

theorem rolling_medians_hold_sample : ∃ H, Histories.run sampleOperations = some H ∧
    (H 1).map History.items = some [8, 2, 7, 9, 5] ∧
    (∃ σ, Objects.run sampleOperations = some σ ∧ ∀ i, Option.Rel Answers (σ i) (H i)) ∧
    ∀ a b, (getMid a b).toNat = (a.toNat + b.toNat) / 2 :=
  ⟨_, rfl, rfl, rolling_medians_hold_histories sampleOperations _ rfl⟩

/-- The median of an object that was cleared is the item that its queue started with. -/
theorem cleared_median_stale :
    ((Objects.run [.construct 0 3 sampleMemory, .insert 0 7, .clear 0]).bind fun σ => σ 0).map
      (fun q => (q.size, q.median)) = some (0, 7) := by
  decide

end RollingMedian

end Hashmonkey.Core
