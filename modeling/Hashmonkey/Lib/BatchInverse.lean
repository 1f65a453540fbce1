import Mathlib.Algebra.Field.Basic

/-!
# Inverting many elements with one inversion

The products of the initial segments of a list are stored on the way forward. From the inverse of
the product of all, the way back gives the inverse of each entry: it is the inverse of the product
up to the entry, times the stored product before it.

* `storedProducts`: the way forward, with the product it ends in;
* `inversesBack`: the way back over the entries, last one first.

Result: **`inversesBack_storedProducts`**, in any field, for entries that are not zero.
-/

namespace Hashmonkey.Lib

variable {K : Type} [Field K]

/-- The way forward: what `acc` was before each entry, and the product at the end. -/
def storedProducts : K → List K → List K × K
  | acc, [] => ([], acc)
  | acc, x :: xs =>
    let (scratch, last) := storedProducts (acc * x) xs
    (acc :: scratch, last)

/-- The way back, over the entries with what was stored for them. -/
def inversesBack (acc : K) : List (K × K) → List K × K
  | [] => ([], acc)
  | (x, stored) :: rest =>
    let (inverses, acc) := inversesBack acc rest
    (acc * stored :: inverses, acc * x)

theorem storedProducts_ne_zero : ∀ {xs : List K} {acc : K}, acc ≠ 0 → (∀ x ∈ xs, x ≠ 0) →
    (storedProducts acc xs).2 ≠ 0
  | [], _, hacc, _ => hacc
  | x :: xs, acc, hacc, hxs => by
    have hx : acc * x ≠ 0 := mul_ne_zero hacc (hxs x List.mem_cons_self)
    have htail : ∀ x ∈ xs, x ≠ 0 := fun x hx => hxs x (List.mem_cons_of_mem _ hx)
    simpa only [storedProducts] using storedProducts_ne_zero hx htail

/-- **The way back inverts every entry**, and ends with the inverse of what the way forward started
with. -/
theorem inversesBack_storedProducts : ∀ {xs : List K} {acc : K}, acc ≠ 0 → (∀ x ∈ xs, x ≠ 0) →
    inversesBack (storedProducts acc xs).2⁻¹ (xs.zip (storedProducts acc xs).1) =
      (xs.map fun x => x⁻¹, acc⁻¹)
  | [], _, _, _ => rfl
  | x :: xs, acc, hacc, hxs => by
    have hx : x ≠ 0 := hxs x List.mem_cons_self
    have ih := inversesBack_storedProducts (mul_ne_zero hacc hx)
      fun x hx => hxs x (List.mem_cons_of_mem _ hx)
    simp only [storedProducts, List.zip_cons_cons, inversesBack, ih, List.map_cons, mul_inv_rev]
    rw [mul_assoc, inv_mul_cancel₀ hacc, mul_one, mul_comm x⁻¹, mul_assoc, inv_mul_cancel₀ hx,
      mul_one]

end Hashmonkey.Lib
