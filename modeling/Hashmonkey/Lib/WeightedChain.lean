import Mathlib.Order.Nat

/-!
# Chains of blocks with accumulated weights

A chain is a list with its newest element first.

* `Segment`: every element names its predecessor by an id. Where ids determine what they stand for
  (`Determined`), the id of the newest element determines the whole chain (`segment_unique`). Two
  chains with one newest id and one oldest id agree in all ids as soon as an id determines the
  predecessor (`segment_ids_eq`);
* `annotate`: each element gets the weight of the chain that ends in it, when the weight that the
  next element must add depends on the annotated chain so far. A longer chain does not weigh less
  (`weight_append_le`).

Everything is over arbitrary types of elements, ids and labels.
-/

namespace Hashmonkey.Lib

open List

/-! ## Chains by ids -/

section Segment

variable {B H T : Type} (id prev : B → H)

/-- The elements lead from the id `top` down to the id `bottom`, which is not part of them. -/
def Segment : List B → H → H → Prop
  | [], top, bottom => top = bottom
  | b :: bs, top, bottom => id b = top ∧ Segment bs (prev b) bottom

/-- Within `K`, an id determines the predecessor and the label, and is not the root. -/
structure Determined (label : B → T) (root : H) (K : Set B) : Prop where
  prev_eq : ∀ b ∈ K, ∀ b' ∈ K, id b = id b' → prev b = prev b'
  label_eq : ∀ b ∈ K, ∀ b' ∈ K, id b = id b' → label b = label b'
  ne_root : ∀ b ∈ K, id b ≠ root

variable {id prev}

theorem Segment.of_append {bs bs' : List B} {top bottom : H}
    (h : Segment id prev (bs ++ bs') top bottom) : ∃ mid, Segment id prev bs' mid bottom := by
  induction bs generalizing top with
  | nil => exact ⟨top, h⟩
  | cons b bs ih => exact ih h.2

/-- **A chain down to the root is determined by the id it starts from**, up to labels. -/
theorem segment_unique {label : B → T} {root : H} {K : Set B}
    (hK : Determined id prev label root K) {bs bs' : List B} {top : H}
    (h : Segment id prev bs top root) (h' : Segment id prev bs' top root)
    (hbs : ∀ b ∈ bs, b ∈ K) (hbs' : ∀ b ∈ bs', b ∈ K) : bs.map label = bs'.map label := by
  induction bs generalizing top bs' with
  | nil =>
    cases bs' with
    | nil => rfl
    | cons b' bs' => exact absurd (h'.1.trans h) (hK.ne_root b' (hbs' b' mem_cons_self))
  | cons b bs ih =>
    cases bs' with
    | nil => exact absurd (h.1.trans h') (hK.ne_root b (hbs b mem_cons_self))
    | cons b' bs' =>
      have hb := hbs b mem_cons_self
      have hb' := hbs' b' mem_cons_self
      have hid : id b = id b' := h.1.trans h'.1.symm
      have hrest := h.2
      rw [hK.prev_eq b hb b' hb' hid] at hrest
      rw [map_cons, map_cons, hK.label_eq b hb b' hb' hid,
        ih hrest h'.2 (fun x hx => hbs x (mem_cons_of_mem b hx))
          fun x hx => hbs' x (mem_cons_of_mem b' hx)]

/-- **Two chains with the same newest id** agree in all their ids if their oldest elements have the
same id, none has an id twice, and an id determines the predecessor. -/
theorem segment_ids_eq {a b : List B} {top bottom bottom' : H}
    (ha : Segment id prev a top bottom) (hb : Segment id prev b top bottom')
    (hane : a ≠ []) (hbne : b ≠ []) (hlast : id (a.getLast hane) = id (b.getLast hbne))
    (hanodup : (a.map id).Nodup) (hbnodup : (b.map id).Nodup)
    (hprev : ∀ x ∈ a, ∀ y ∈ b, id x = id y → prev x = prev y) : a.map id = b.map id := by
  induction a generalizing b top with
  | nil => exact absurd rfl hane
  | cons x a ih =>
    cases b with
    | nil => exact absurd rfl hbne
    | cons y b =>
      have hxy : id x = id y := ha.1.trans hb.1.symm
      rw [map_cons, nodup_cons] at hanodup hbnodup
      by_cases hane' : a = []
      · by_cases hbne' : b = []
        · rw [hane', hbne', map_singleton, map_singleton, hxy]
        · -- the oldest id of the longer chain would be its newest, too
          subst hane'
          rw [getLast_singleton, getLast_cons hbne'] at hlast
          refine absurd (mem_map.mpr ⟨_, getLast_mem hbne', ?_⟩) hbnodup.1
          exact hlast.symm.trans hxy
      · by_cases hbne' : b = []
        · subst hbne'
          rw [getLast_singleton, getLast_cons hane'] at hlast
          refine absurd (mem_map.mpr ⟨_, getLast_mem hane', ?_⟩) hanodup.1
          exact hlast.trans hxy.symm
        · rw [getLast_cons hane', getLast_cons hbne'] at hlast
          have hrest := ha.2
          rw [hprev x mem_cons_self y mem_cons_self hxy] at hrest
          rw [map_cons, map_cons, hxy,
            ih hrest hb.2 hane' hbne' hlast hanodup.2 hbnodup.2 fun x' hx' y' hy' =>
              hprev x' (mem_cons_of_mem x hx') y' (mem_cons_of_mem y hy')]

end Segment

/-! ## Weights -/

section Weight

variable {T : Type} (req : List (T × Nat) → Nat)

/-- The weight noted at the newest element. -/
def topWeight : List (T × Nat) → Nat
  | [] => 0
  | (_, w) :: _ => w

/-- Notes with each element the weight of the chain that ends in it. -/
def annotate : List T → List (T × Nat)
  | [] => []
  | t :: ts => (t, topWeight (annotate ts) + req (annotate ts)) :: annotate ts

/-- The weight of a chain. -/
def weight (ts : List T) : Nat := topWeight (annotate req ts)

/-- A longer chain does not weigh less. -/
theorem weight_append_le (ts ts' : List T) : weight req ts' ≤ weight req (ts ++ ts') := by
  induction ts with
  | nil => exact Nat.le_refl _
  | cons t ts ih => exact ih.trans (Nat.le_add_right _ _)

end Weight

end Hashmonkey.Lib
