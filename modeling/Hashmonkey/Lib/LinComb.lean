import Mathlib.Algebra.Module.Basic
import Mathlib.Tactic.FieldSimp
import Mathlib.Tactic.Module
import Mathlib.Tactic.LinearCombination

/-!
# Linear combinations

* `lincomb`: a list of scalars times a list of vectors, over any module. The longer list is cut.
* `challengeProducts`: the products of challenges or their inverses, one for each choice: the
  scalars of the generators when a commitment to a vector is folded to one entry. A further pair
  doubles them in their places (`challengeProducts_concat`), which is how a table of them is built
  without a second table.
-/

namespace Hashmonkey.Lib

open List

variable {K V : Type} [Field K] [AddCommGroup V] [Module K V]

/-! ## Linear combinations -/

def lincomb (a : List K) (G : List V) : V := (List.zipWith (fun a G => a • G) a G).sum

@[simp] theorem lincomb_nil (G : List V) : lincomb ([] : List K) G = 0 := rfl

@[simp] theorem lincomb_cons (x : K) (a : List K) (P : V) (G : List V) :
    lincomb (x :: a) (P :: G) = x • P + lincomb a G := by
  simp [lincomb]

theorem lincomb_map (c : K) : ∀ (a : List K) (G : List V),
    lincomb (a.map fun x => x * c) G = c • lincomb a G
  | [], _ => by simp
  | _ :: _, [] => by simp [lincomb]
  | x :: a, P :: G => by
    rw [map_cons, lincomb_cons, lincomb_cons, lincomb_map c a G]
    module

/-! ## Products of challenges -/

/-- For pairs of an inverse and a challenge: the products of one of each, in the order of the
choices as binary numbers, the first pair being the most significant. -/
def challengeProducts : List (K × K) → List K
  | [] => [1]
  | (ci, c) :: cs => (challengeProducts cs).map (fun x => x * ci) ++
      (challengeProducts cs).map fun x => x * c

theorem length_challengeProducts :
    ∀ cs : List (K × K), (challengeProducts cs).length = 2 ^ cs.length
  | [] => rfl
  | (ci, c) :: cs => by
    rw [challengeProducts, length_append, length_map, length_map,
      length_challengeProducts cs, length_cons, pow_succ, Nat.mul_two]

/-- A further pair doubles the products in their places. -/
theorem challengeProducts_concat (ci c : K) : ∀ cs : List (K × K),
    challengeProducts (cs ++ [(ci, c)]) =
      (challengeProducts cs).flatMap fun x => [x * ci, x * c]
  | [] => by simp [challengeProducts]
  | (di, d) :: cs => by
    simp only [cons_append, challengeProducts, challengeProducts_concat ci c cs,
      map_flatMap, flatMap_append, flatMap_map, map_cons, map_nil]
    congr 1
    · refine flatMap_congr fun x _ => ?_
      rw [mul_right_comm x ci, mul_right_comm x c]
    · refine flatMap_congr fun x _ => ?_
      rw [mul_right_comm x ci, mul_right_comm x c]

theorem lincomb_getD : ∀ {a : List K} {G : List V} {n : ℕ}, a.length = n → G.length = n →
    lincomb a G = ∑ i ∈ Finset.range n, a.getD i 0 • G.getD i 0
  | [], _, _, rfl, _ => by simp
  | x :: a, P :: G, _, rfl, h => by
    rw [lincomb_cons, length_cons, Finset.sum_range_succ', add_comm,
      lincomb_getD rfl (Nat.succ.inj h)]
    rfl

end Hashmonkey.Lib
