import Mathlib.Data.List.Basic

/-!
# A vector with an index

A vector of values is often kept together with an ordered map from a key of each value to its place,
so that a value can be found by its key. A value may have no key.

* `IndexesOn`: the map has exactly the keys of the values at some of the places;
* `Indexes`: of all values. Two values then have no key in common (`Indexes.unique`).

A value with a new key can be appended (`Indexes.append`), values can be changed as long as their
keys stay (`Indexes.congr`, `map_modify_congr`), and the end of the vector can be cut off after its
keys were erased one by one (`IndexesOn.erase_next`, `IndexesOn.erased`). If it is cut off where a
test fails for the first time, exactly what passes the test is left, unless something passes it
later (`takeWhile_eq_filter_iff`).
-/

namespace Hashmonkey.Lib

open Std List

variable {κ α : Type} {cmp : κ → κ → Ordering} [TransCmp cmp]
  {m : ExtTreeMap κ Nat cmp} {f : α → Option κ} {l : List α}

/-- The map has the keys of the values at the places in `S`, and no others. -/
def IndexesOn (m : ExtTreeMap κ Nat cmp) (f : α → Option κ) (l : List α) (S : Nat → Prop) : Prop :=
  ∀ (k : κ) (i : Nat), m[k]? = some i ↔ S i ∧ ∃ x, l[i]? = some x ∧ f x = some k

/-- The map has the keys of all values, and no others. -/
def Indexes (m : ExtTreeMap κ Nat cmp) (f : α → Option κ) (l : List α) : Prop :=
  ∀ (k : κ) (i : Nat), m[k]? = some i ↔ ∃ x, l[i]? = some x ∧ f x = some k

theorem Indexes.on (h : Indexes m f l) : IndexesOn m f l fun _ => True := by
  intro k i
  rw [h k i, true_and]

/-- Only places of values matter. -/
theorem IndexesOn.restrict {S T : Nat → Prop} (h : IndexesOn m f l S)
    (hST : ∀ i < l.length, S i ↔ T i) : IndexesOn m f l T := by
  intro k i
  rw [h k i]
  refine and_congr_left ?_
  rintro ⟨x, hx, _⟩
  exact hST i (List.getElem?_eq_some_iff.mp hx).1

theorem indexes_nil : Indexes (∅ : ExtTreeMap κ Nat cmp) f [] := by
  intro k i
  simp

variable {k : κ} {x : α}

/-- A key that is not in the map is not the key of a value. -/
theorem Indexes.ne_of_none (h : Indexes m f l) (hk : m[k]? = none) (hx : x ∈ l) : f x ≠ some k := by
  intro hfx
  obtain ⟨i, hi⟩ := mem_iff_getElem?.mp hx
  rw [(h k i).mpr ⟨x, hi, hfx⟩] at hk
  cases hk

/-- Only the keys of the values matter. -/
theorem Indexes.congr (h : Indexes m f l) {l' : List α} (hl : l'.map f = l.map f) :
    Indexes m f l' := by
  have hat : ∀ i : Nat, l'[i]?.map f = l[i]?.map f := by
    intro i
    rw [← getElem?_map, ← getElem?_map, hl]
  have hkey : ∀ (l : List α) (i : Nat) (k : κ),
      (∃ x, l[i]? = some x ∧ f x = some k) ↔ l[i]?.map f = some (some k) := by
    intro l i k
    rw [Option.map_eq_some_iff]
  intro k i
  rw [h k i, hkey, hkey, hat]

variable {i : Nat}

/-- A value is changed, but not what `g` says about it. -/
theorem map_modify_congr {β : Type} {g : α → β} {h : α → α}
    (hg : ∀ x, l[i]? = some x → g (h x) = g x) : (l.modify i h).map g = l.map g := by
  refine ext_getElem? fun j => ?_
  rw [getElem?_map, getElem?_map]
  by_cases hij : i = j
  · subst hij
    rw [getElem?_modify_eq]
    cases hx : l[i]? with
    | none => rfl
    | some x => exact congrArg some (hg x hx)
  · rw [getElem?_modify_ne _ _ hij]

theorem getElem?_modify_self {h : α → α} {x : α} (hx : l[i]? = some x) :
    (l.modify i h)[i]? = some (h x) := by
  rw [getElem?_modify_eq, hx]
  rfl

theorem getElem?_modify_other {h : α → α} {x : α} {j : Nat} (hij : i ≠ j) (hx : l[j]? = some x) :
    (l.modify i h)[j]? = some x := by
  rw [getElem?_modify_ne _ _ hij, hx]

theorem mem_of_map_eq {β : Type} {g : α → β} {l' : List α} (h : l'.map g = l.map g) {x : α}
    (hx : x ∈ l') : ∃ y ∈ l, g x = g y := by
  have hmem := mem_map_of_mem (f := g) hx
  rw [h] at hmem
  obtain ⟨y, hy, heq⟩ := mem_map.mp hmem
  exact ⟨y, hy, heq.symm⟩

/-- The values at the places below `n` are left. -/
theorem IndexesOn.take {n : Nat} (h : IndexesOn m f l fun i => i < n) : Indexes m f (l.take n) := by
  intro k i
  rw [h k i]
  constructor
  · rintro ⟨hi, x, hx, hfx⟩
    exact ⟨x, by rw [getElem?_take_of_lt hi, hx], hfx⟩
  · rintro ⟨x, hx, hfx⟩
    have hi : i < n := by
      have hlt := (List.getElem?_eq_some_iff.mp hx).1
      rw [length_take] at hlt
      omega
    rw [getElem?_take_of_lt hi] at hx
    exact ⟨hi, x, hx, hfx⟩

/-- The keys from place `n` on are erased. -/
theorem IndexesOn.erased {n j : Nat} (h : IndexesOn m f l fun i => i < n ∨ j ≤ i)
    (hj : l.length ≤ j) : Indexes m f (l.take n) := by
  refine IndexesOn.take (h.restrict fun i hi => ?_)
  omega

variable [LawfulEqCmp cmp]

/-- **A value with a new key at the end.** -/
theorem Indexes.append (h : Indexes m f l) (hk : f x = some k)
    (hnew : m[k]? = none) : Indexes (m.insert k l.length) f (l ++ [x]) := by
  intro k' i
  rw [ExtTreeMap.getElem?_insert]
  by_cases hkk : cmp k k' = .eq
  · obtain rfl := LawfulEqCmp.eq_of_compare hkk
    rw [if_pos hkk, Option.some.injEq]
    constructor
    · rintro rfl
      exact ⟨x, getElem?_concat_length, hk⟩
    · rintro ⟨y, hy, hfy⟩
      rcases Nat.lt_trichotomy i l.length with hlt | heq | hgt
      · rw [List.getElem?_append_left hlt] at hy
        exact absurd hfy (h.ne_of_none hnew (mem_of_getElem? hy))
      · exact heq.symm
      rw [getElem?_eq_none (by rw [length_append]; exact hgt)] at hy
      cases hy
  · rw [if_neg hkk, h k' i]
    constructor
    · rintro ⟨y, hy, hfy⟩
      exact ⟨y, by rw [List.getElem?_append_left (List.getElem?_eq_some_iff.mp hy).1, hy], hfy⟩
    · rintro ⟨y, hy, hfy⟩
      rcases Nat.lt_or_ge i l.length with hlt | hge
      · rw [List.getElem?_append_left hlt] at hy
        exact ⟨y, hy, hfy⟩
      rw [getElem?_append_right hge, getElem?_singleton] at hy
      split at hy
      · cases hy
        exact absurd (Option.some.inj (hk.symm.trans hfy)) fun heq =>
          hkk (heq ▸ ReflCmp.compare_self)
      · cases hy

/-- Erasing the key of one value. -/
theorem IndexesOn.erase {S : Nat → Prop} (h : IndexesOn m f l S) (hi : S i) (hx : l[i]? = some x)
    (hk : f x = some k) : m[k]? = some i ∧ IndexesOn (m.erase k) f l fun j => S j ∧ j ≠ i := by
  have hm : m[k]? = some i := (h k i).mpr ⟨hi, x, hx, hk⟩
  refine ⟨hm, fun k' j => ?_⟩
  rw [ExtTreeMap.getElem?_erase]
  by_cases hkk : cmp k k' = .eq
  · obtain rfl := LawfulEqCmp.eq_of_compare hkk
    rw [if_pos hkk]
    constructor
    · exact fun hnone => by cases hnone
    · rintro ⟨⟨hj, hne⟩, hy⟩
      have hmj := (h k j).mpr ⟨hj, hy⟩
      exact absurd (Option.some.inj (hmj.symm.trans hm)) hne
  · rw [if_neg hkk, h k' j]
    constructor
    · rintro ⟨hj, y, hy, hfy⟩
      refine ⟨⟨hj, ?_⟩, y, hy, hfy⟩
      rintro rfl
      have hxy : x = y := Option.some.inj (hx.symm.trans hy)
      rw [hxy] at hk
      exact hkk (Option.some.inj (hk.symm.trans hfy) ▸ ReflCmp.compare_self)
    · rintro ⟨⟨hj, _⟩, hy⟩
      exact ⟨hj, hy⟩

/-- The keys from place `n` on are erased one by one: the next is that of place `j`. -/
theorem IndexesOn.erase_next {n j : Nat} (h : IndexesOn m f l fun i => i < n ∨ j ≤ i) (hnj : n ≤ j)
    (hx : l[j]? = some x) (hk : f x = some k) :
    k ∈ m ∧ IndexesOn (m.erase k) f l fun i => i < n ∨ j + 1 ≤ i := by
  obtain ⟨hm, herased⟩ := h.erase (.inr (Nat.le_refl j)) hx hk
  refine ⟨ExtTreeMap.mem_iff_isSome_getElem?.mpr (by rw [hm]; rfl), herased.restrict fun i _ => ?_⟩
  omega

theorem takeWhile_prefix_filter (p : α → Bool) (l : List α) : l.takeWhile p <+: l.filter p := by
  refine ⟨(l.dropWhile p).filter p, ?_⟩
  have hpass : (l.takeWhile p).filter p = l.takeWhile p :=
    filter_eq_self.mpr (all_eq_true.mp all_takeWhile)
  calc l.takeWhile p ++ (l.dropWhile p).filter p
      = (l.takeWhile p).filter p ++ (l.dropWhile p).filter p := by rw [hpass]
    _ = l.filter p := by rw [← filter_append, takeWhile_append_dropWhile]

/-- What comes before the first that fails a test is everything that passes it, if and only if
nothing passes it after one that fails. -/
theorem takeWhile_eq_filter_iff (p : α → Bool) (l : List α) :
    l.takeWhile p = l.filter p ↔ l.Pairwise fun x y => p y = true → p x = true := by
  induction l with
  | nil => simp
  | cons x l ih =>
    rw [pairwise_cons]
    cases hx : p x with
    | true =>
      rw [takeWhile_cons_of_pos hx, filter_cons_of_pos hx, List.cons.injEq, ih]
      simp
    | false =>
      have hx' : ¬ p x = true := by simp [hx]
      rw [takeWhile_cons_of_neg hx', filter_cons_of_neg hx', eq_comm, filter_eq_nil_iff]
      constructor
      · intro hnone
        refine ⟨fun y hy hpy => absurd hpy (hnone y hy), ?_⟩
        exact pairwise_of_forall_mem_list fun y _ z hz hpz => absurd hpz (hnone z hz)
      · rintro ⟨hnone, _⟩ y hy hpy
        exact Bool.false_ne_true (hnone y hy hpy)

/-- An element that passes a test is kept, if nothing passes it after one that fails. -/
theorem getElem?_takeWhile {q : α → Bool} {l : List α} (hx : l[i]? = some x) (hq : q x = true)
    (h : l.Pairwise fun x y => q y = true → q x = true) : (l.takeWhile q)[i]? = some x := by
  induction l generalizing i with
  | nil => cases hx
  | cons y l ih =>
    obtain ⟨hy, hrest⟩ := pairwise_cons.mp h
    cases i with
    | zero =>
      cases hx
      rw [takeWhile_cons_of_pos hq]
      rfl
    | succ i =>
      rw [takeWhile_cons_of_pos (hy x (mem_of_getElem? hx) hq)]
      exact ih hx hrest

end Hashmonkey.Lib
