import Mathlib.Algebra.BigOperators.Group.List.Basic
import Mathlib.Algebra.GroupWithZero.Nat

/-!
# Tables of an embedded key-value store

A table is an ordered map of the standard library, `Std.ExtTreeMap`. What a store adds to it are
writes that can be refused:

* `append`: the key has to be above every key of the table;
* `putNew`: the key must not be in the table yet;
* tables with duplicates, keyed by pairs in lexicographic order: `appendDup`, where only the second
  components under the same first one count.

An accepted write of one of these kinds inserts a key that was not there, so erasing the key gives
the table back (`erase_append`, `erase_putNew`, `erase_appendDup`), and a count over the table grows
by the new entry alone (`count_insert`), as does a sum over it (`total_insert`). The values of one
key are read in order with `dups`.
-/

namespace Hashmonkey.Lib.Table

open Std List ExtTreeMap

section Writes

variable {κ α : Type} {cmp : κ → κ → Ordering} [TransCmp cmp]

/-- An entry after the last one. -/
def append (t : ExtTreeMap κ α cmp) (k : κ) (v : α) : Option (ExtTreeMap κ α cmp) :=
  if t.keys.all fun l => cmp l k = .lt then some (t.insert k v) else none

/-- An entry under a key that is not in use. -/
def putNew (t : ExtTreeMap κ α cmp) (k : κ) (v : α) : Option (ExtTreeMap κ α cmp) :=
  if t.contains k then none else some (t.insert k v)

/-- How many entries satisfy a test. -/
def count (p : κ → α → Bool) (t : ExtTreeMap κ α cmp) : Nat := (t.filter p).size

end Writes

section Lawful

variable {κ α : Type} {cmp : κ → κ → Ordering} [TransCmp cmp] [LawfulEqCmp cmp]
  {t t' : ExtTreeMap κ α cmp} {k : κ} {v : α}

theorem append_eq_some : append t k v = some t' ↔ (∀ l ∈ t, cmp l k = .lt) ∧ t' = t.insert k v := by
  unfold append
  split
  · rename_i h
    simp only [all_eq_true, decide_eq_true_eq, ExtTreeMap.mem_keys] at h
    rw [Option.some.injEq]
    exact ⟨fun e => ⟨h, e.symm⟩, fun e => e.2.symm⟩
  · rename_i h
    simp only [all_eq_true, decide_eq_true_eq, ExtTreeMap.mem_keys] at h
    exact ⟨fun e => by simp at e, fun e => absurd e.1 h⟩

theorem not_mem_of_append (h : append t k v = some t') : k ∉ t := by
  intro hk
  have hlt := (append_eq_some.mp h).1 k hk
  have hself : cmp k k = .eq := ReflCmp.compare_self
  rw [hself] at hlt
  cases hlt

omit [LawfulEqCmp cmp] in
theorem putNew_eq_some : putNew t k v = some t' ↔ k ∉ t ∧ t' = t.insert k v := by
  unfold putNew
  rw [← ExtTreeMap.contains_iff_mem]
  split
  · simp [*]
  · simp [*, eq_comm]

/-- **Erasing a new key gives the table back.** -/
theorem erase_insert (h : k ∉ t) : (t.insert k v).erase k = t := by
  apply ExtTreeMap.ext_getElem?
  intro l
  rw [ExtTreeMap.getElem?_erase, ExtTreeMap.getElem?_insert]
  by_cases hl : cmp k l = .eq
  · rw [if_pos hl, ← LawfulEqCmp.eq_of_compare hl, ExtTreeMap.getElem?_eq_none h]
  · rw [if_neg hl, if_neg hl]

theorem erase_comm (k l : κ) : (t.erase k).erase l = (t.erase l).erase k := by
  apply ExtTreeMap.ext_getElem?
  intro i
  simp only [ExtTreeMap.getElem?_erase]
  split <;> split <;> rfl

theorem erase_append (h : append t k v = some t') : t'.erase k = t := by
  rw [(append_eq_some.mp h).2, erase_insert (not_mem_of_append h)]

theorem erase_putNew (h : putNew t k v = some t') : t'.erase k = t := by
  obtain ⟨hk, rfl⟩ := putNew_eq_some.mp h
  exact erase_insert hk

theorem getElem?_append_self (h : append t k v = some t') : t'[k]? = some v := by
  rw [(append_eq_some.mp h).2, ExtTreeMap.getElem?_insert_self]

/-- A new entry is counted if it satisfies the test; nothing else changes. -/
theorem count_insert (p : κ → α → Bool) (h : k ∉ t) :
    count p (t.insert k v) = count p t + if p k v then 1 else 0 := by
  have hf : (t.insert k v).filter p = if p k v then (t.filter p).insert k v else t.filter p := by
    apply ExtTreeMap.ext_getElem?
    intro l
    rw [ExtTreeMap.getElem?_filter', ExtTreeMap.getElem?_insert]
    by_cases hl : cmp k l = .eq
    · cases LawfulEqCmp.eq_of_compare hl
      by_cases hp : p k v
      · simp [hp]
      · simp [hp, ExtTreeMap.getElem?_eq_none h]
    · by_cases hp : p k v
      · rw [if_neg hl, if_pos hp, ExtTreeMap.getElem?_insert, if_neg hl,
          ExtTreeMap.getElem?_filter']
      · rw [if_neg hl, if_neg hp, ExtTreeMap.getElem?_filter']
  have hk : k ∉ t.filter p := fun hk => h (mem_of_mem_filter hk)
  unfold count
  rw [hf]
  split
  · rw [ExtTreeMap.size_insert, if_neg (by rwa [ExtTreeMap.contains_iff_mem])]
  · rfl

omit [LawfulEqCmp cmp] in
theorem count_eq_countP (p : κ → α → Bool) : count p t = t.toList.countP fun e => p e.1 e.2 := by
  rw [count, ← length_toList, toList_filter, countP_eq_length_filter]

end Lawful

/-! ## Contents -/

section Contents

variable {κ α : Type} {cmp : κ → κ → Ordering} [TransCmp cmp] {t t' : ExtTreeMap κ α cmp} {k : κ}
  {v w : α} (f : α → Nat)

theorem isSome_of_rel {r : α → α → Prop} {a b : Option α} (h : Option.Rel r a b) :
    a.isSome = b.isSome := by
  cases h <;> rfl

theorem getD_map_of_rel {a b : Option α} (h : Option.Rel (fun v w => f v = f w) a b) :
    (a.map f).getD 0 = (b.map f).getD 0 := by
  cases h with
  | some hf => exact hf
  | none => rfl

theorem mem_of_getElem? (h : t[k]? = some v) : k ∈ t := by
  rw [mem_iff_isSome_getElem?, h]
  rfl

theorem exists_getElem? (h : k ∈ t) : ∃ v, t[k]? = some v := by
  rwa [mem_iff_isSome_getElem?, Option.isSome_iff_exists] at h

/-- The sum of a quantity over the entries. -/
def total (t : ExtTreeMap κ α cmp) : Nat := (t.toList.map fun e => f e.2).sum

variable [LawfulEqCmp cmp]

/-- Tables with the same keys list them in the same order, up to a permutation. -/
theorem keys_perm (h : ∀ k, k ∈ t ↔ k ∈ t') : t.keys.Perm t'.keys := by
  rw [perm_ext_iff_of_nodup nodup_keys nodup_keys]
  intro k
  rw [ExtTreeMap.mem_keys, ExtTreeMap.mem_keys, h]

theorem keys_insert_perm (h : k ∉ t) : (t.insert k v).keys.Perm (k :: t.keys) := by
  rw [perm_ext_iff_of_nodup nodup_keys
    (nodup_cons.mpr ⟨fun hk => h (ExtTreeMap.mem_keys.mp hk), nodup_keys⟩)]
  intro l
  rw [ExtTreeMap.mem_keys, mem_insert, mem_cons, ExtTreeMap.mem_keys,
    LawfulEqCmp.compare_eq_iff_eq, eq_comm]

theorem total_eq_keys : total f t = (t.keys.map fun k => (t[k]?.map f).getD 0).sum := by
  rw [total, ← map_fst_toList_eq_keys, List.map_map]
  refine congrArg List.sum (map_congr_left fun e he => ?_)
  rw [mem_toList_iff_getElem?_eq_some] at he
  simp [he]

theorem total_congr (h : ∀ k : κ, Option.Rel (fun v w => f v = f w) t[k]? t'[k]?) :
    total f t = total f t' := by
  have hmem : ∀ k, k ∈ t ↔ k ∈ t' := by
    intro k
    rw [mem_iff_isSome_getElem?, mem_iff_isSome_getElem?, isSome_of_rel (h k)]
  rw [total_eq_keys, total_eq_keys]
  exact ((keys_perm hmem).map _).sum_eq.trans
    (congrArg List.sum (map_congr_left fun k _ => getD_map_of_rel f (h k)))

variable [DecidableEq κ]

theorem getElem?_insert (t : ExtTreeMap κ α cmp) (k l : κ) (v : α) :
    (t.insert k v)[l]? = if k = l then some v else t[l]? := by
  simp only [ExtTreeMap.getElem?_insert, LawfulEqCmp.compare_eq_iff_eq]

theorem getElem?_erase (t : ExtTreeMap κ α cmp) (k l : κ) :
    (t.erase k)[l]? = if k = l then none else t[l]? := by
  simp only [ExtTreeMap.getElem?_erase, LawfulEqCmp.compare_eq_iff_eq]

theorem getElem?_insert_eq_some {l : κ} :
    (t.insert k v)[l]? = some w ↔ k = l ∧ v = w ∨ k ≠ l ∧ t[l]? = some w := by
  rw [getElem?_insert]
  split <;> simp [*]

theorem getElem?_erase_eq_some {l : κ} :
    (t.erase k)[l]? = some v ↔ k ≠ l ∧ t[l]? = some v := by
  rw [getElem?_erase]
  split <;> simp [*]

theorem getD_insert (t : ExtTreeMap κ α cmp) (k l : κ) (v d : α) :
    (t.insert k v).getD l d = if k = l then v else t.getD l d := by
  simp only [ExtTreeMap.getD_insert, LawfulEqCmp.compare_eq_iff_eq]

theorem total_insert (h : k ∉ t) : total f (t.insert k v) = f v + total f t := by
  rw [total_eq_keys, total_eq_keys, ((keys_insert_perm h).map _).sum_eq, map_cons, sum_cons]
  congr 1
  · simp
  · refine congrArg List.sum (map_congr_left fun l hl => ?_)
    have hkl : k ≠ l := fun e => h (e ▸ ExtTreeMap.mem_keys.mp hl)
    rw [getElem?_insert, if_neg hkl]

theorem insert_erase (t : ExtTreeMap κ α cmp) (k : κ) (v : α) :
    (t.erase k).insert k v = t.insert k v := by
  apply ExtTreeMap.ext_getElem?
  intro l
  simp only [getElem?_insert, getElem?_erase]
  split <;> rfl

theorem not_mem_erase (t : ExtTreeMap κ α cmp) (k : κ) : k ∉ t.erase k := by
  rw [mem_iff_isSome_getElem?, getElem?_erase, if_pos rfl]
  exact Bool.false_ne_true

theorem insert_of_getElem? (h : t[k]? = some v) : t.insert k v = t := by
  apply ExtTreeMap.ext_getElem?
  intro l
  rw [getElem?_insert]
  split
  · rename_i hkl
    rw [← hkl, h]
  · rfl

theorem total_erase (h : t[k]? = some v) : total f t = f v + total f (t.erase k) := by
  rw [← total_insert f (not_mem_erase t k), insert_erase, insert_of_getElem? h]

theorem total_insert_of_getElem? (h : t[k]? = some w) (hf : f v = f w) :
    total f (t.insert k v) = total f t := by
  rw [total_erase f h, ← insert_erase, total_insert f (not_mem_erase t k), hf]

end Contents

/-! ## Duplicates -/

section Dups

variable {κ ι α : Type} [Ord κ] [Ord ι]

/-- The order of a table with duplicates: by key, then by the duplicates' own order. -/
def dupCmp : κ × ι → κ × ι → Ordering := compareLex (compareOn Prod.fst) (compareOn Prod.snd)

instance [TransOrd κ] [TransOrd ι] : TransCmp (@dupCmp κ ι _ _) :=
  inferInstanceAs (TransCmp (compareLex _ _))

instance [LawfulEqOrd κ] [LawfulEqOrd ι] : LawfulEqCmp (@dupCmp κ ι _ _) where
  compare_self {a} := by simp [dupCmp, compareLex, compareOn]
  eq_of_compare {a b} h := by
    simp only [dupCmp, compareLex, compareOn, Ordering.then_eq_eq, Std.compare_eq_iff_eq] at h
    exact Prod.ext h.1 h.2

variable [DecidableEq κ] [TransOrd κ] [TransOrd ι]

/-- How many duplicates a key has. -/
def dupCount (t : ExtTreeMap (κ × ι) α dupCmp) (k : κ) : Nat := count (fun l _ => l.1 = k) t

/-- A duplicate after the last one of its key. -/
def appendDup (t : ExtTreeMap (κ × ι) α dupCmp) (k : κ) (i : ι) (v : α) :
    Option (ExtTreeMap (κ × ι) α dupCmp) :=
  if t.keys.all fun l => l.1 ≠ k ∨ compare l.2 i = .lt then some (t.insert (k, i) v) else none

/-- The values of a key, in the order of the duplicates. -/
def dups (t : ExtTreeMap (κ × ι) α dupCmp) (k : κ) : List α :=
  (t.toList.filter fun e => e.1.1 = k).map Prod.snd

variable {t t' : ExtTreeMap (κ × ι) α dupCmp} {k : κ} {i : ι} {v : α}

theorem appendDup_eq_some [LawfulEqOrd κ] [LawfulEqOrd ι] (h : appendDup t k i v = some t') :
    (k, i) ∉ t ∧ t' = t.insert (k, i) v := by
  unfold appendDup at h
  split at h
  · rename_i hl
    simp only [all_eq_true, decide_eq_true_eq, ExtTreeMap.mem_keys] at hl
    refine ⟨fun hk => ?_, (Option.some.inj h).symm⟩
    have := hl _ hk
    simp at this
  · simp at h

theorem erase_appendDup [LawfulEqOrd κ] [LawfulEqOrd ι] (h : appendDup t k i v = some t') :
    t'.erase (k, i) = t := by
  obtain ⟨hk, rfl⟩ := appendDup_eq_some h
  exact erase_insert hk

theorem lt_of_appendDup [LawfulEqOrd κ] [LawfulEqOrd ι] (h : appendDup t k i v = some t') {j : ι}
    (hj : (k, j) ∈ t) : compare j i = .lt := by
  unfold appendDup at h
  split at h
  · rename_i hl
    simp only [all_eq_true, decide_eq_true_eq, ExtTreeMap.mem_keys] at hl
    exact (hl _ hj).resolve_left fun hne => hne rfl
  · simp at h

theorem countP_dups (q : α → Bool) : (dups t k).countP q = count (fun l v => l.1 = k && q v) t := by
  rw [dups, countP_map, countP_filter, count_eq_countP]
  apply countP_congr
  simp [and_comm]

/-- What holds between the values of a key in their order holds along the list. -/
theorem pairwise_dups [LawfulEqOrd κ] [LawfulEqOrd ι] {r : α → α → Prop}
    (h : ∀ (i j : ι) (v w : α), t[(k, i)]? = some v → t[(k, j)]? = some w → compare i j = .lt →
      r v w) :
    (dups t k).Pairwise r := by
  rw [dups, pairwise_map, pairwise_filter]
  refine (ordered_keys_toList (t := t)).imp_of_mem ?_
  rintro ⟨⟨k1, i⟩, v⟩ ⟨⟨k2, j⟩, w⟩ hv hw hlt h1 h2
  obtain rfl : k1 = k := of_decide_eq_true h1
  obtain rfl : k2 = k1 := of_decide_eq_true h2
  rw [mem_toList_iff_getElem?_eq_some] at hv hw
  refine h i j v w hv hw ?_
  simpa [dupCmp, compareLex, compareOn] using hlt

end Dups

end Hashmonkey.Lib.Table
