import Mathlib.Algebra.GroupWithZero.Nat
import Mathlib.Data.List.GetD

/-!
# Balanced pair trees

A row of `2 ^ k` entries is folded to one by merging adjacent entries with `h`, `k` times. The
file names no hash function: `h` is any binary operation on any type.

* `pairUp` merges one row, `reduce k` merges `k` rows.
* `opening k r i` is the path of entry `i`: at each level, whether the entry is a right child, and
  its sibling. `recompute` climbs such a path.
* `recompute_opening`: climbing the path of entry `i` from entry `i` ends at the root.
* `merges k r` are the pairs the reduction feeds to `h`, and `reduce_inj`: two rows of one length
  with one root are equal, unless a merge of one and a merge of the other are different pairs with
  the same image.
-/

namespace Hashmonkey.Lib.PairTree

open List

variable {α : Type}

/-- Replacing the first entries leaves the others. -/
theorem getD_append_drop {p l : List α} {n i : Nat} (d : α) (hp : p.length = n) (hi : n ≤ i) :
    (p ++ l.drop n).getD i d = l.getD i d := by
  simp only [getD_eq_getElem?_getD]
  rw [getElem?_append_right (by omega), hp, getElem?_drop]
  congr 2
  omega

/-- Adjacent pairs of a row; a last odd entry is dropped. -/
def pairs : List α → List (α × α)
  | a :: b :: l => (a, b) :: pairs l
  | _ => []

theorem length_pairs : ∀ l : List α, (pairs l).length = l.length / 2
  | [] => by simp [pairs]
  | [_] => by simp [pairs]
  | _ :: _ :: l => by
    simp only [pairs, length_cons, length_pairs l]
    omega

theorem getD_pairs (d : α) : ∀ (l : List α) (i : Nat), 2 * i + 1 < l.length →
    (pairs l).getD i (d, d) = (l.getD (2 * i) d, l.getD (2 * i + 1) d)
  | [], i, hi => absurd hi (by simp)
  | a :: b :: l, 0, _ => rfl
  | a :: b :: l, i + 1, hi => by
    have hi' : 2 * i + 1 < l.length := by
      simp only [length_cons] at hi
      omega
    have e : 2 * (i + 1) = 2 * i + 2 := by omega
    rw [e]
    simpa [pairs] using getD_pairs d l i hi'

/-- Two more entries add one pair. -/
theorem pairs_take_succ (d : α) : ∀ (l : List α) (n : Nat), 2 * n + 1 < l.length →
    pairs (l.take (2 * (n + 1))) =
      pairs (l.take (2 * n)) ++ [(l.getD (2 * n) d, l.getD (2 * n + 1) d)]
  | [], _, hn => absurd hn (by simp)
  | a :: b :: l, 0, _ => by simp [pairs]
  | a :: b :: l, n + 1, hn => by
    have hn' : 2 * n + 1 < l.length := by
      simp only [length_cons] at hn
      omega
    have e : 2 * (n + 1 + 1) = 2 * (n + 1) + 2 := by omega
    rw [e, take_succ_cons, take_succ_cons, pairs, pairs_take_succ d l n hn']
    rfl

/-- A row of even length is determined by its pairs. -/
theorem pairs_inj : ∀ {l l' : List α}, l.length = l'.length → 2 ∣ l.length →
    pairs l = pairs l' → l = l'
  | [], [], _, _, _ => rfl
  | [_], _ :: _, _, h2, _ => absurd h2 (by simp)
  | a :: b :: l, a' :: b' :: l', h, h2, hp => by
    simp only [length_cons] at h h2
    simp only [pairs, List.cons.injEq, Prod.mk.injEq] at hp
    obtain ⟨⟨rfl, rfl⟩, hp⟩ := hp
    rw [pairs_inj (by omega) (by omega) hp]

variable (h : α → α → α)

/-- One level: merge adjacent entries. -/
def pairUp (l : List α) : List α := (pairs l).map fun p => h p.1 p.2

theorem length_pairUp (l : List α) : (pairUp h l).length = l.length / 2 := by
  rw [pairUp, length_map, length_pairs]

theorem getD_pairUp (d : α) {l : List α} {i : Nat} (hi : 2 * i + 1 < l.length) :
    (pairUp h l).getD i d = h (l.getD (2 * i) d) (l.getD (2 * i + 1) d) := by
  have hlt : i < (pairs l).length := by rw [length_pairs]; omega
  have hp := getD_pairs d l i hi
  rw [getD_eq_getElem _ _ hlt] at hp
  rw [getD_eq_getElem _ _ (by rw [length_pairUp]; omega)]
  simp only [pairUp, getElem_map, hp]

theorem pairUp_take_succ (d : α) {l : List α} {n : Nat} (hn : 2 * n + 1 < l.length) :
    pairUp h (l.take (2 * (n + 1))) =
      pairUp h (l.take (2 * n)) ++ [h (l.getD (2 * n) d) (l.getD (2 * n + 1) d)] := by
  rw [pairUp, pairs_take_succ d l n hn, map_append]
  rfl

/-- `k` levels. -/
def reduce : Nat → List α → List α
  | 0, r => r
  | k + 1, r => reduce k (pairUp h r)

theorem length_reduce (m : Nat) : ∀ (k : Nat) (r : List α), r.length = 2 ^ (k + m) →
    (reduce h k r).length = 2 ^ m
  | 0, _, hr => by simpa [reduce] using hr
  | k + 1, r, hr => by
    refine length_reduce m k (pairUp h r) ?_
    rw [length_pairUp, hr, Nat.succ_add, Nat.pow_succ]
    omega

theorem reduce_succ : ∀ (k : Nat) (r : List α), reduce h (k + 1) r = pairUp h (reduce h k r)
  | 0, _ => rfl
  | k + 1, r => reduce_succ k (pairUp h r)

/-! ## Openings -/

/-- The other entry of `i`'s pair. -/
def sib (i : Nat) : Nat := if i % 2 = 0 then i + 1 else i - 1

/-- The path of entry `i`, leaf first: is it a right child, and its sibling. -/
def opening (d : α) : Nat → List α → Nat → List (Bool × α)
  | 0, _, _ => []
  | k + 1, r, i => (decide (i % 2 = 1), r.getD (sib i) d) :: opening d k (pairUp h r) (i / 2)

theorem opening_succ (d : α) : ∀ (k : Nat) (r : List α) (i : Nat),
    opening h d (k + 1) r i = opening h d k r i ++
      [(decide (i / 2 ^ k % 2 = 1), (reduce h k r).getD (sib (i / 2 ^ k)) d)]
  | 0, r, i => by simp [opening, reduce]
  | k + 1, r, i => by
    have e : i / 2 / 2 ^ k = i / 2 ^ (k + 1) := by
      rw [Nat.div_div_eq_div_mul, Nat.pow_succ, Nat.mul_comm]
    rw [opening, opening_succ d k (pairUp h r) (i / 2), e, opening, reduce]
    rfl

/-- Climb a path from `x`. -/
def recompute : α → List (Bool × α) → α
  | x, [] => x
  | x, (right, s) :: l => recompute (if right then h s x else h x s) l

theorem recompute_append : ∀ (x : α) (l l' : List (Bool × α)),
    recompute h x (l ++ l') = recompute h (recompute h x l) l'
  | _, [], _ => rfl
  | _, (_, _) :: l, l' => recompute_append _ l l'

theorem length_opening (d : α) : ∀ (k : Nat) (r : List α) (i : Nat),
    (opening h d k r i).length = k
  | 0, _, _ => rfl
  | k + 1, r, i => by rw [opening, length_cons, length_opening d k]

/-- Merging entry `i` with its sibling gives the parent entry. -/
theorem merge_sib (d : α) {r : List α} {i : Nat} (hi : i < r.length) (he : 2 ∣ r.length) :
    (if decide (i % 2 = 1) then h (r.getD (sib i) d) (r.getD i d)
      else h (r.getD i d) (r.getD (sib i) d)) = (pairUp h r).getD (i / 2) d := by
  rw [getD_pairUp h d (by omega)]
  unfold sib
  rcases Nat.mod_two_eq_zero_or_one i with h0 | h1
  · have e : 2 * (i / 2) = i := by omega
    rw [if_neg (by simp [h0]), if_pos h0, e]
  have e : 2 * (i / 2) = i - 1 := by omega
  have e' : i - 1 + 1 = i := by omega
  rw [if_pos (by simp [h1]), if_neg (by omega), e, e']

/-- **Climbing the path of entry `i` from entry `i` ends at the root.** -/
theorem recompute_opening (d : α) : ∀ (k : Nat) (r : List α) (i : Nat), r.length = 2 ^ k →
    i < r.length → recompute h (r.getD i d) (opening h d k r i) = (reduce h k r).getD 0 d
  | 0, r, i, hr, hi => by
    have : i = 0 := by rw [hr] at hi; omega
    rw [this]
    rfl
  | k + 1, r, i, hr, hi => by
    have hev : 2 ∣ r.length := ⟨2 ^ k, by rw [hr, Nat.pow_succ]; omega⟩
    have hlen : (pairUp h r).length = 2 ^ k := by rw [length_pairUp, hr, Nat.pow_succ]; omega
    rw [opening, recompute, merge_sib h d hi hev]
    exact recompute_opening d k (pairUp h r) (i / 2) hlen (by rw [length_pairUp]; omega)

/-! ## Collisions -/

/-- The pairs a reduction merges, row by row. -/
def merges : Nat → List α → List (α × α)
  | 0, _ => []
  | k + 1, r => pairs r ++ merges k (pairUp h r)

theorem merges_succ : ∀ (k : Nat) (r : List α),
    merges h (k + 1) r = merges h k r ++ pairs (reduce h k r)
  | 0, r => by simp [merges, reduce]
  | k + 1, r => by
    rw [merges, merges_succ k (pairUp h r), merges, reduce, append_assoc]

/-- Two lists of pairs with the same images are equal, or differ at one pair with one image. -/
theorem map_merge_inj : ∀ {p q : List (α × α)},
    (p.map fun x => h x.1 x.2) = (q.map fun x => h x.1 x.2) →
      p = q ∨ ∃ x ∈ p, ∃ y ∈ q, x ≠ y ∧ h x.1 x.2 = h y.1 y.2
  | [], [], _ => Or.inl rfl
  | x :: p, y :: q, he => by
    simp only [map_cons, List.cons.injEq] at he
    obtain ⟨hxy, hpq⟩ := he
    by_cases hne : x = y
    · rcases map_merge_inj hpq with rfl | ⟨x', hx', y', hy', hn, hh⟩
      · exact Or.inl (by rw [hne])
      · exact Or.inr ⟨x', mem_cons_of_mem _ hx', y', mem_cons_of_mem _ hy', hn, hh⟩
    · exact Or.inr ⟨x, mem_cons_self, y, mem_cons_self, hne, hxy⟩

/-- One level up is injective on rows of one even length, up to a collision of the merges. -/
theorem pairUp_inj {r r' : List α} (hlen : r.length = r'.length) (hev : 2 ∣ r.length)
    (he : pairUp h r = pairUp h r') :
    r = r' ∨ ∃ x ∈ pairs r, ∃ y ∈ pairs r', x ≠ y ∧ h x.1 x.2 = h y.1 y.2 := by
  rcases map_merge_inj h he with hp | hc
  · exact Or.inl (pairs_inj hlen hev hp)
  · exact Or.inr hc

/-- **A root determines its row**, unless two different merges have one image. -/
theorem reduce_inj : ∀ (k : Nat) {r r' : List α}, r.length = 2 ^ k → r'.length = 2 ^ k →
    reduce h k r = reduce h k r' →
      r = r' ∨ ∃ x ∈ merges h k r, ∃ y ∈ merges h k r', x ≠ y ∧ h x.1 x.2 = h y.1 y.2
  | 0, _, _, _, _, he => Or.inl he
  | k + 1, r, r', hr, hr', he => by
    have hev : 2 ∣ r.length := ⟨2 ^ k, by rw [hr, Nat.pow_succ]; omega⟩
    have hl : (pairUp h r).length = 2 ^ k := by rw [length_pairUp, hr, Nat.pow_succ]; omega
    have hl' : (pairUp h r').length = 2 ^ k := by rw [length_pairUp, hr', Nat.pow_succ]; omega
    rcases reduce_inj k hl hl' he with hup | ⟨x, hx, y, hy, hn, hh⟩
    · rcases pairUp_inj h (hr.trans hr'.symm) hev hup with hrr | ⟨x, hx, y, hy, hn, hh⟩
      · exact Or.inl hrr
      · exact Or.inr ⟨x, mem_append_left _ hx, y, mem_append_left _ hy, hn, hh⟩
    · exact Or.inr ⟨x, mem_append_right _ hx, y, mem_append_right _ hy, hn, hh⟩

end Hashmonkey.Lib.PairTree
