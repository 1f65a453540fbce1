import Mathlib.Logic.Equiv.Basic

/-!
# Two heaps around a centre

A min heap and a max heap share one array of values, indexed by integers: the min heap lies at the
positive indices, the max heap at the negative ones, and the entry at `0` is the root of both. The
parent of the `k`-th entry of a side is the `k / 2`-th, so the parent of both first entries is the
centre.

* `Ordered`: on each side no entry is nearer to the centre's value than its parent;
* `Down`: all but the children of one entry are in order, which is what sifting down starts from;
* `Up`: all but one entry are in order, which is what sifting up starts from;
* `Centre`: all but the entries next to the centre are in order.

An exchange of two values turns one of these into another (`Down.move`, `Up.move`, `Up.centre`,
`Centre.move`), or it is not needed and the heaps are in order (`Down.done`, `Up.done`,
`Centre.done`). In `Ordered` heaps the centre separates the two sides (`Ordered.centre_le`) and the
first entry of a side is the nearest of its side (`Ordered.first_le`). A value that replaces one of
ordered heaps, or is added to them, leaves one of the three (`Ordered.down`, `Ordered.up`,
`Ordered.up_leaf`, `Ordered.centre`).

Values are of any linearly ordered type.
-/

namespace Hashmonkey.Lib

/-- The two heaps. -/
inductive Side where
  | min
  | max
  deriving DecidableEq

namespace Side

def other : Side → Side
  | min => max
  | max => min

/-- Where the `k`-th entry of a side stands; the centre is the entry `0` of both. -/
def place : Side → ℕ → ℤ
  | min, k => k
  | max, k => -k

theorem place_min (k : ℕ) : place min k = k := rfl

theorem place_max (k : ℕ) : place max k = -k := rfl

variable {s : Side}

theorem eq_other {t : Side} (h : s ≠ t) : s = t.other := by
  cases s <;> cases t <;> first | rfl | exact absurd rfl h

@[simp] theorem place_zero (s : Side) : s.place 0 = 0 := by cases s <;> rfl

theorem place_ne_zero {k : ℕ} (hk : 1 ≤ k) : s.place k ≠ 0 := by
  cases s <;> simp only [Side.place] <;> omega

@[simp] theorem place_inj {j k : ℕ} : s.place j = s.place k ↔ j = k := by
  cases s <;> simp only [Side.place] <;> omega

theorem place_ne {t : Side} (h : t ≠ s) {j : ℕ} (hj : 1 ≤ j) (k : ℕ) : t.place k ≠ s.place j := by
  cases s <;> cases t <;> simp only [Side.place] <;> first | omega | exact absurd rfl h

variable {α : Type} [LE α]

/-- The order of a side, from the centre outwards. -/
def le : Side → α → α → Prop
  | min, a, b => a ≤ b
  | max, a, b => b ≤ a

theorem le_other {a b : α} : s.other.le a b ↔ s.le b a := by cases s <;> exact Iff.rfl

variable [Std.IsLinearOrder α]

theorem le_refl (s : Side) (a : α) : s.le a a := by cases s <;> exact Std.le_refl a

theorem le_trans {a b c : α} (h : s.le a b) (h' : s.le b c) : s.le a c := by
  cases s with
  | min => exact Std.le_trans h h'
  | max => exact Std.le_trans h' h

end Side

/-! ## Order -/

section Order

variable {α : Type} [LE α] (count : Side → ℕ) (w : ℤ → α)

/-- The `k`-th entry of a side is in order with its parent. -/
def Edge (s : Side) (k : ℕ) : Prop := s.le (w (s.place (k / 2))) (w (s.place k))

def Ordered : Prop := ∀ s k, 1 ≤ k → k ≤ count s → Edge w s k

/-- Only the children of the `i`-th entry of `s` may be out of order, and those are in order with
the parent of that entry. -/
structure Down (s : Side) (i : ℕ) : Prop where
  rest : ∀ t k, 1 ≤ k → k ≤ count t → (t = s → k / 2 ≠ i) → Edge w t k
  grand : ∀ k, k / 2 = i → k ≤ count s → s.le (w (s.place (i / 2))) (w (s.place k))

/-- Only the `i`-th entry of `s` may be out of order with its parent, and its children are in order
with that parent. -/
structure Up (s : Side) (i : ℕ) : Prop where
  rest : ∀ t k, 1 ≤ k → k ≤ count t → (t = s → k ≠ i) → Edge w t k
  grand : ∀ k, k / 2 = i → k ≤ count s → s.le (w (s.place (i / 2))) (w (s.place k))

/-- Only the first entries of the sides may be out of order with the centre, and those are in order
with each other. -/
structure Centre : Prop where
  rest : ∀ t k, 2 ≤ k → k ≤ count t → Edge w t k
  sides : ∀ s : Side, 1 ≤ count s → 1 ≤ count s.other → s.le (w (s.other.place 1)) (w (s.place 1))

/-- The values after an exchange of two entries. -/
def exchanged (i j : ℤ) : ℤ → α := w ∘ Equiv.swap i j

end Order

section Exchange

variable {α : Type} (w : ℤ → α)

@[simp] theorem exchanged_left (i j : ℤ) : exchanged w i j i = w j := by
  simp [exchanged]

@[simp] theorem exchanged_right (i j : ℤ) : exchanged w i j j = w i := by
  simp [exchanged]

theorem exchanged_of_ne {i j x : ℤ} (hi : x ≠ i) (hj : x ≠ j) : exchanged w i j x = w x := by
  simp [exchanged, Equiv.swap_apply_of_ne_of_ne hi hj]

theorem exchanged_comm (i j : ℤ) : exchanged w i j = exchanged w j i := by
  rw [exchanged, exchanged, Equiv.swap_comm]

/-- An exchange within a side leaves its other entries. -/
theorem exchanged_place {s : Side} {i j k : ℕ} (hi : k ≠ i) (hj : k ≠ j) :
    exchanged w (s.place i) (s.place j) (s.place k) = w (s.place k) :=
  exchanged_of_ne w (by simpa using hi) (by simpa using hj)

/-- An exchange within a side that spares the centre leaves the other side. -/
theorem exchanged_place_other {s t : Side} (h : t ≠ s) {i j : ℕ} (hi : 1 ≤ i) (hj : 1 ≤ j) (k : ℕ) :
    exchanged w (s.place i) (s.place j) (t.place k) = w (t.place k) :=
  exchanged_of_ne w (Side.place_ne h hi k) (Side.place_ne h hj k)

/-- An exchange of a first entry with the centre leaves the entries further out. -/
theorem exchanged_centre {s t : Side} {k : ℕ} (hk : 1 ≤ k) (h : t = s → 2 ≤ k) :
    exchanged w (s.place 1) 0 (t.place k) = w (t.place k) := by
  refine exchanged_of_ne w ?_ ?_
  · by_cases hts : t = s
    · subst hts
      have := h rfl
      simp only [ne_eq, Side.place_inj]
      omega
    · exact Side.place_ne hts (Nat.le_refl 1) k
  · exact Side.place_ne_zero hk

end Exchange

variable {α : Type} [LE α] {count : Side → ℕ} {w : ℤ → α}

variable {s : Side} {i : ℕ}

theorem edge_one : Edge w s 1 ↔ s.le (w 0) (w (s.place 1)) := by
  rw [Edge, show 1 / 2 = 0 from rfl, Side.place_zero]

theorem Edge.parent {k : ℕ} (h : Edge w s k) (hk : k / 2 = i) :
    s.le (w (s.place i)) (w (s.place k)) := hk ▸ h

/-! ## Sifting down -/

/-- The least child is exchanged with its parent: then only the children of its old place may be out
of order. -/
theorem Down.move {c : ℕ} (h : Down count w s i) (hi : 1 ≤ i) (hc : c / 2 = i)
    (hcount : c ≤ count s)
    (hleast : ∀ k, k / 2 = i → k ≤ count s → s.le (w (s.place c)) (w (s.place k)))
    (hlt : s.le (w (s.place c)) (w (s.place i))) :
    Down count (exchanged w (s.place c) (s.place i)) s c := by
  constructor
  · intro t k hk hkt hne
    unfold Edge
    by_cases hts : t = s
    · subst hts
      by_cases hki : k = i
      · subst hki
        rw [exchanged_right, exchanged_place w (by omega) (by omega)]
        exact h.grand c hc hcount
      by_cases hkp : k / 2 = i
      · rw [hkp, exchanged_right]
        by_cases hkc : k = c
        · rw [hkc, exchanged_left]
          exact hlt
        rw [exchanged_place w hkc hki]
        exact hleast k hkp hkt
      · have hkc : k ≠ c := by rintro rfl; exact hkp hc
        rw [exchanged_place w (hne rfl) hkp, exchanged_place w hkc hki]
        exact h.rest t k hk hkt fun _ => hkp
    · rw [exchanged_place_other w hts (by omega) hi, exchanged_place_other w hts (by omega) hi]
      exact h.rest t k hk hkt (absurd · hts)
  · intro k hk hkt
    have hkc : k ≠ c := by omega
    have hki : k ≠ i := by omega
    rw [hc, exchanged_right, exchanged_place w hkc hki, ← hk]
    exact h.rest s k (by omega) hkt fun _ => by omega

theorem Down.done (h : Down count w s i)
    (hi : ∀ k, 1 ≤ k → k / 2 = i → k ≤ count s → Edge w s k) : Ordered count w := by
  intro t k hk hkt
  by_cases hts : t = s
  · subst hts
    by_cases hki : k / 2 = i
    · exact hi k hk hki hkt
    · exact h.rest t k hk hkt fun _ => hki
  · exact h.rest t k hk hkt (absurd · hts)

/-! ## Sifting up -/

/-- An entry that is out of order is exchanged with its parent, which is not the centre. -/
theorem Up.move [Std.IsLinearOrder α] (h : Up count w s i) (hi : 2 ≤ i) (hcount : i ≤ count s)
    (hlt : s.le (w (s.place i)) (w (s.place (i / 2)))) :
    Up count (exchanged w (s.place i) (s.place (i / 2))) s (i / 2) := by
  have hparent := h.rest s (i / 2) (by omega) (by omega) fun _ => by omega
  have hchild : ∀ k, k / 2 = i / 2 → k ≤ count s → k ≠ i →
      s.le (w (s.place (i / 2))) (w (s.place k)) :=
    fun k hk hkt hki => (h.rest s k (by omega) hkt fun _ => hki).parent hk
  constructor
  · intro t k hk hkt hne
    unfold Edge
    by_cases hts : t = s
    · subst hts
      by_cases hki : k = i
      · rw [hki, exchanged_left, exchanged_right]
        exact hlt
      rw [exchanged_place w hki (hne rfl)]
      by_cases hkp : k / 2 = i
      · rw [hkp, exchanged_left]
        exact h.grand k hkp hkt
      by_cases hks : k / 2 = i / 2
      · rw [hks, exchanged_right]
        exact Side.le_trans hlt (hchild k hks hkt hki)
      rw [exchanged_place w hkp hks]
      exact h.rest t k hk hkt fun _ => hki
    · rw [exchanged_place_other w hts (by omega) (by omega),
        exchanged_place_other w hts (by omega) (by omega)]
      exact h.rest t k hk hkt (absurd · hts)
  · intro k hk hkt
    rw [exchanged_place w (k := i / 2 / 2) (by omega) (by omega)]
    by_cases hki : k = i
    · rw [hki, exchanged_left]
      exact hparent
    rw [exchanged_place w hki (by omega)]
    exact Side.le_trans hparent (hchild k hk hkt hki)

/-- The first entry of a side is exchanged with the centre: its own side is in order then, the first
entry of the other side may not be. -/
theorem Up.centre (h : Up count w s 1) (hlt : s.le (w (s.place 1)) (w 0)) :
    Centre count (exchanged w (s.place 1) 0) ∧ Edge (exchanged w (s.place 1) 0) s 1 := by
  refine ⟨⟨?_, ?_⟩, ?_⟩
  · intro t k hk hkt
    unfold Edge
    by_cases hts : t = s
    · subst hts
      rw [exchanged_centre w (by omega) fun _ => hk]
      by_cases hone : k / 2 = 1
      · rw [hone, exchanged_left]
        exact Side.place_zero t ▸ h.grand k hone hkt
      · rw [exchanged_centre w (by omega) fun _ => by omega]
        exact h.rest t k (by omega) hkt fun _ => by omega
    · rw [exchanged_centre w (by omega) (absurd · hts),
        exchanged_centre w (by omega) (absurd · hts)]
      exact h.rest t k (by omega) hkt (absurd · hts)
  · intro t ht hto
    have hne : s.other ≠ s := by cases s <;> decide
    have hedge : 1 ≤ count s.other → s.le (w (s.other.place 1)) (w 0) := by
      intro hone
      exact Side.le_other.1 (edge_one.1 (h.rest s.other 1 (Nat.le_refl 1) hone (absurd · hne)))
    by_cases hts : t = s
    · subst hts
      rw [exchanged_left, exchanged_centre w (Nat.le_refl 1) (absurd · hne)]
      exact hedge hto
    · have ht' : t = s.other := Side.eq_other hts
      have hs' : t.other = s := (Side.eq_other (Ne.symm hts)).symm
      rw [hs', exchanged_left, ht', exchanged_centre w (Nat.le_refl 1) (absurd · hne)]
      exact Side.le_other.2 (hedge (ht' ▸ ht))
  · rw [edge_one, exchanged_left, exchanged_right]
    exact hlt

theorem Up.done (h : Up count w s i) (hi : i ≤ count s → Edge w s i) : Ordered count w := by
  intro t k hk hkt
  by_cases hki : t = s ∧ k = i
  · obtain ⟨rfl, rfl⟩ := hki
    exact hi hkt
  · exact h.rest t k hk hkt fun hs hk' => hki ⟨hs, hk'⟩

/-! ## The centre -/

/-- The first entry of a side that is out of order is exchanged with the centre: then only its
children may be out of order. -/
theorem Centre.move (h : Centre count w) (hcount : 1 ≤ count s)
    (hlt : s.le (w (s.place 1)) (w 0)) : Down count (exchanged w (s.place 1) 0) s 1 := by
  constructor
  · intro t k hk hkt hne
    by_cases hone : k = 1
    · subst hone
      rw [edge_one, exchanged_right]
      by_cases hts : t = s
      · subst hts
        rw [exchanged_left]
        exact hlt
      · rw [exchanged_centre w (Nat.le_refl 1) (absurd · hts)]
        obtain rfl : s = t.other := Side.eq_other (Ne.symm hts)
        exact h.sides t hkt hcount
    · have hparent : t = s → 2 ≤ k / 2 := fun hs => by have := hne hs; omega
      rw [Edge, exchanged_centre w (by omega) hparent, exchanged_centre w hk fun _ => by omega]
      exact h.rest t k (by omega) hkt
  · intro k hk hkt
    rw [show 1 / 2 = 0 from rfl, Side.place_zero, exchanged_right,
      exchanged_centre w (by omega) fun _ => by omega]
    exact (h.rest s k (by omega) hkt).parent hk

theorem Centre.done (h : Centre count w) (hone : ∀ s, 1 ≤ count s → Edge w s 1) :
    Ordered count w := by
  intro t k hk hkt
  by_cases hk1 : k = 1
  · subst hk1
    exact hone t hkt
  · exact h.rest t k (by omega) hkt

/-! ## What the order says -/

variable [Std.IsLinearOrder α]

variable {k : ℕ}

theorem Ordered.centre_le (h : Ordered count w) (s : Side) (hk : k ≤ count s) :
    s.le (w 0) (w (s.place k)) := by
  induction k using Nat.strongRecOn with
  | ind k ih =>
    by_cases hzero : k = 0
    · rw [hzero, Side.place_zero]
      exact Side.le_refl s _
    · exact Side.le_trans (ih (k / 2) (by omega) (by omega)) (h s k (by omega) hk)

theorem Ordered.first_le (h : Ordered count w) (s : Side) (hone : 1 ≤ k)
    (hk : k ≤ count s) : s.le (w (s.place 1)) (w (s.place k)) := by
  induction k using Nat.strongRecOn with
  | ind k ih =>
    by_cases hfirst : k = 1
    · rw [hfirst]
      exact Side.le_refl s _
    · exact Side.le_trans (ih (k / 2) (by omega) (by omega) (by omega)) (h s k hone hk)

/-! ## A new value

One entry of ordered heaps takes another value, and all the others keep theirs. -/

variable {w' : ℤ → α}

/-- The values agree on the heaps, except perhaps at one index. -/
def AgreeOff (count : Side → ℕ) (w w' : ℤ → α) (x : ℤ) : Prop :=
  ∀ t k, k ≤ count t → Side.place t k ≠ x → w' (t.place k) = w (t.place k)

omit [LE α] [Std.IsLinearOrder α] in
theorem AgreeOff.same (h : AgreeOff count w w' (s.place i))
    (hk : k ≤ count s) (hki : k ≠ i) : w' (s.place k) = w (s.place k) :=
  h s k hk (by simpa using hki)

omit [LE α] [Std.IsLinearOrder α] in
theorem AgreeOff.other {t : Side} (h : AgreeOff count w w' (s.place i)) (hi : 1 ≤ i)
    (hts : t ≠ s) (hk : k ≤ count t) : w' (t.place k) = w (t.place k) :=
  h t k hk (Side.place_ne hts hi k)

/-- The children of the entry are in order with its parent, whatever its value is. -/
theorem Ordered.grand (h : Ordered count w) (hi : 1 ≤ i) (hcount : i ≤ count s)
    (hw : AgreeOff count w w' (s.place i)) :
    ∀ k, k / 2 = i → k ≤ count s → s.le (w' (s.place (i / 2))) (w' (s.place k)) := by
  intro k hk hkt
  rw [hw.same (by omega) (by omega), hw.same hkt (by omega)]
  exact Side.le_trans (h s i hi hcount) ((h s k (by omega) hkt).parent hk)

/-- A value that moves outwards may only be out of order with its children. -/
theorem Ordered.down (h : Ordered count w) (hi : 1 ≤ i) (hcount : i ≤ count s)
    (hw : AgreeOff count w w' (s.place i)) (hle : s.le (w (s.place i)) (w' (s.place i))) :
    Down count w' s i := by
  refine ⟨fun t k hk hkt hne => ?_, h.grand hi hcount hw⟩
  have hedge := h t k hk hkt
  unfold Edge at hedge ⊢
  by_cases hts : t = s
  · subst hts
    rw [hw.same (by omega) (hne rfl)]
    by_cases hki : k = i
    · rw [hki] at hedge ⊢
      exact Side.le_trans hedge hle
    · rwa [hw.same hkt hki]
  · rwa [hw.other hi hts (by omega), hw.other hi hts hkt]

/-- A value that moves inwards may only be out of order with its parent. -/
theorem Ordered.up (h : Ordered count w) (hi : 1 ≤ i) (hcount : i ≤ count s)
    (hw : AgreeOff count w w' (s.place i)) (hle : s.le (w' (s.place i)) (w (s.place i))) :
    Up count w' s i := by
  refine ⟨fun t k hk hkt hne => ?_, h.grand hi hcount hw⟩
  have hedge := h t k hk hkt
  unfold Edge at hedge ⊢
  by_cases hts : t = s
  · subst hts
    rw [hw.same hkt (hne rfl)]
    by_cases hki : k / 2 = i
    · rw [hki] at hedge ⊢
      exact Side.le_trans hle hedge
    · rwa [hw.same (by omega) hki]
  · rwa [hw.other hi hts (by omega), hw.other hi hts hkt]

omit [Std.IsLinearOrder α] in
/-- A new last entry may only be out of order with its parent. -/
theorem Ordered.up_leaf (h : Ordered count w) {count' : Side → ℕ}
    (hs : count s < i) (hs' : count' s = i) (hother : ∀ t, t ≠ s → count' t = count t)
    (hlast : i ≤ count s + 1) (hw : AgreeOff count w w' (s.place i)) : Up count' w' s i := by
  constructor
  · intro t k hk hkt hne
    have hkt' : k ≤ count t := by
      by_cases hts : t = s
      · subst hts
        have := hne rfl
        omega
      · have := hother t hts
        omega
    have hedge := h t k hk hkt'
    unfold Edge at hedge ⊢
    by_cases hts : t = s
    · subst hts
      rwa [hw.same (by omega) (by omega), hw.same hkt' (hne rfl)]
    · rwa [hw.other (by omega) hts (by omega), hw.other (by omega) hts hkt']
  · intro k hk hkt
    exfalso
    omega

/-- A new value at the centre may only be out of order with the first entries. -/
theorem Ordered.centre (h : Ordered count w) (hw : AgreeOff count w w' 0) : Centre count w' := by
  constructor
  · intro t k hk hkt
    unfold Edge
    rw [hw t k hkt (Side.place_ne_zero (by omega)),
      hw t (k / 2) (by omega) (Side.place_ne_zero (by omega))]
    exact h t k (by omega) hkt
  · intro s hs hs'
    have hone : ∀ t : Side, t.place 1 ≠ 0 := fun _ => Side.place_ne_zero (Nat.le_refl 1)
    rw [hw s 1 hs (hone s), hw s.other 1 hs' (hone _)]
    exact Side.le_trans (Side.le_other.1 (h.centre_le s.other hs')) (h.centre_le s hs)

end Hashmonkey.Lib
