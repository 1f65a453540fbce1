import Mathlib.Algebra.BigOperators.Group.List.Basic
import Mathlib.Tactic.Abel

/-!
# Small tables of amounts

A tally is a list of keys and values, the way a short-lived hash map is used to collect amounts:
values are read with a default (`getD`) and written under a key (`set`), and in the end all of them
are added up (`total`). The order of the keys has no meaning.

* `total_set`: a write changes the total by the difference of the two values;
* `total_filter`: the total splits along any property of the entries.

Values are in any commutative group, so this covers sums that wrap.
-/

namespace Hashmonkey.Lib

open List

variable {κ α : Type} [DecidableEq κ]

/-- Keys with values. -/
abbrev Tally (κ α : Type) := List (κ × α)

namespace Tally

/-- The value under a key, or a default. -/
def getD (t : Tally κ α) (k : κ) (d : α) : α := (t.lookup k).getD d

/-- Writes the value under a key; a new key goes to the end. -/
def set : Tally κ α → κ → α → Tally κ α
  | [], k, v => [(k, v)]
  | (l, w) :: t, k, v => if k = l then (k, v) :: t else (l, w) :: set t k v

theorem getD_cons (l : κ) (w : α) (t : Tally κ α) (k : κ) (d : α) :
    getD ((l, w) :: t) k d = if k = l then w else getD t k d := by
  rw [getD, lookup_cons]
  by_cases hkl : k = l
  · rw [if_pos hkl, beq_iff_eq.mpr hkl]
    rfl
  rw [if_neg hkl, beq_false_of_ne hkl]
  rfl

section Total

variable {M : Type}

/-- All values added up. -/
def total [AddCommMonoid M] (t : Tally κ M) : M := (t.map Prod.snd).sum

omit [DecidableEq κ] in
@[simp] theorem total_nil [AddCommMonoid M] : total ([] : Tally κ M) = 0 := rfl

omit [DecidableEq κ] in
@[simp] theorem total_cons [AddCommMonoid M] (e : κ × M) (t : Tally κ M) :
    total (e :: t) = e.2 + total t := by
  rw [total, map_cons, sum_cons]
  rfl

/-- **A write changes the total by the difference of the values.** -/
theorem total_set [AddCommGroup M] (t : Tally κ M) (k : κ) (v : M) :
    (t.set k v).total = t.total + v - t.getD k 0 := by
  induction t with
  | nil =>
    change v + 0 = 0 + v - 0
    abel
  | cons e t ih =>
    obtain ⟨l, w⟩ := e
    rw [set, getD_cons]
    by_cases hk : k = l
    · rw [if_pos hk, if_pos hk, total_cons, total_cons]
      abel
    rw [if_neg hk, if_neg hk, total_cons, total_cons, ih]
    abel

omit [DecidableEq κ] in
/-- The total splits along a property. -/
theorem total_filter [AddCommGroup M] (p : κ × M → Bool) (t : Tally κ M) :
    total (t.filter p) + total (t.filter fun e => !p e) = t.total := by
  induction t with
  | nil => exact add_zero 0
  | cons e t ih =>
    rw [total_cons, ← ih, filter_cons, filter_cons]
    cases p e
    · rw [if_neg Bool.false_ne_true, Bool.not_false, if_pos rfl, total_cons]
      abel
    · rw [if_pos rfl, Bool.not_true, if_neg Bool.false_ne_true, total_cons]
      abel

end Total

end Tally

/-- A sum over a list when one element is replaced. -/
theorem sum_map_modify {β M : Type} [AddCommGroup M] (g : β → M) (f : β → β) {l : List β} {i : Nat}
    {x : β} (h : l[i]? = some x) :
    ((l.modify i f).map g).sum = (l.map g).sum + g (f x) - g x := by
  induction l generalizing i with
  | nil => simp at h
  | cons y l ih =>
    cases i with
    | zero =>
      cases Option.some.inj h
      rw [modify_zero_cons, map_cons, map_cons, sum_cons, sum_cons]
      abel
    | succ i =>
      rw [modify_succ_cons, map_cons, map_cons, sum_cons, sum_cons, ih h]
      abel

end Hashmonkey.Lib
