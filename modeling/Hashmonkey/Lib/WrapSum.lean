import Mathlib.Algebra.GroupWithZero.Nat
import Mathlib.Data.List.Basic
import Mathlib.Data.Nat.Basic

/-!
# Running sums in a register that wraps

A register of modulus `N` adds modulo `N`. `runningSums N a l` is the list of the values such a
register takes when it starts at `a` and the numbers of `l` are added one after the other.

* `wrap_lt_iff`: an addition wraps if and only if the register falls;
* `runningSums_pairwise_le`: a register that never wraps only goes up;
* **`runningSums_pairwise_lt_iff`**: with steps that are not zero, the values go strictly up if
  and only if the register never wraps, that is if the natural-number total stays below `N`.
-/

namespace Hashmonkey.Lib

open List

/-- An addition wraps if and only if the register falls below where it stood. -/
theorem wrap_lt_iff {N a x : Nat} (ha : a < N) (hx : x < N) : (a + x) % N < a ↔ N ≤ a + x := by
  by_cases hw : a + x < N
  · rw [Nat.mod_eq_of_lt hw]
    omega
  · rw [Nat.mod_eq_sub_mod (by omega), Nat.mod_eq_of_lt (by omega)]
    omega

/-- The values of a register of modulus `N` that starts at `a`, after each number of the list. -/
def runningSums (N : Nat) : Nat → List Nat → List Nat
  | _, [] => []
  | a, x :: xs => (a + x) % N :: runningSums N ((a + x) % N) xs

variable {N : Nat}

theorem le_of_mem_runningSums {a : Nat} {l : List Nat} (h : a + l.sum < N) :
    ∀ y ∈ runningSums N a l, a ≤ y := by
  induction l generalizing a with
  | nil => intro y hy; cases hy
  | cons x xs ih =>
    intro y hy
    rw [sum_cons] at h
    have hx : (a + x) % N = a + x := Nat.mod_eq_of_lt (by omega)
    rw [runningSums, hx] at hy
    rcases mem_cons.mp hy with rfl | hy
    · exact Nat.le_add_right a x
    · exact Nat.le_trans (Nat.le_add_right a x) (ih (by omega) y hy)

/-- A register that never wraps only goes up. -/
theorem runningSums_pairwise_le {a : Nat} {l : List Nat} (h : a + l.sum < N) :
    (a :: runningSums N a l).Pairwise (· ≤ ·) := by
  induction l generalizing a with
  | nil => exact pairwise_singleton _ a
  | cons x xs ih =>
    refine pairwise_cons.mpr ⟨le_of_mem_runningSums h, ?_⟩
    rw [sum_cons] at h
    have hx : (a + x) % N = a + x := Nat.mod_eq_of_lt (by omega)
    exact ih (by omega)

/-- **Steps that are not zero take the register strictly up if and only if it never wraps.** -/
theorem runningSums_pairwise_lt_iff {a : Nat} {l : List Nat} (ha : a < N)
    (hl : ∀ x ∈ l, 0 < x ∧ x < N) : (a :: runningSums N a l).Pairwise (· < ·) ↔ a + l.sum < N := by
  induction l generalizing a with
  | nil => exact ⟨fun _ => ha, fun _ => pairwise_singleton _ a⟩
  | cons x xs ih =>
    obtain ⟨hx, hxs⟩ := forall_mem_cons.mp hl
    have hlt : (a + x) % N < N := Nat.mod_lt _ (by omega)
    have ih' := ih hlt hxs
    rw [sum_cons]
    by_cases hw : a + x < N
    · have hmod : (a + x) % N = a + x := Nat.mod_eq_of_lt hw
      rw [hmod] at ih'
      rw [runningSums, hmod, pairwise_cons, ih']
      constructor
      · omega
      · intro hs
        refine ⟨fun y hy => ?_, by omega⟩
        rcases mem_cons.mp hy with rfl | hy
        · omega
        have := le_of_mem_runningSums (N := N) (a := a + x) (l := xs) (by omega) y hy
        omega
    · have hfall : (a + x) % N < a := (wrap_lt_iff ha hx.2).mpr (Nat.le_of_not_lt hw)
      constructor
      · intro hp
        have := (pairwise_cons.mp hp).1 _ (mem_cons_self ..)
        omega
      · omega

end Hashmonkey.Lib
