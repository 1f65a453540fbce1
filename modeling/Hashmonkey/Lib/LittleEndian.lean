import Mathlib.Tactic.Ring

/-!
# Little-endian bytes

A number as a fixed count of bytes, the least significant first (`toLE`), and the number that a
list of bytes spells (`ofLE`). `ofLE_toLE` is the reading of what was written, for a number that the
bytes can hold. `fieldLE` reads a number at an offset of a longer list, as a packed structure is
read: it does not see what stands before (`fieldLE_skip`) or behind (`fieldLE_append`).
-/

namespace Hashmonkey.Lib

variable {w n : ℕ}

/-- The number that some bytes spell, the least significant byte first. -/
def ofLE : List UInt8 → ℕ
  | [] => 0
  | b :: bs => b.toNat + 256 * ofLE bs

/-- The lowest `w` bytes of a number, the least significant first. -/
def toLE : ℕ → ℕ → List UInt8
  | 0, _ => []
  | w + 1, n => UInt8.ofNat (n % 256) :: toLE w (n / 256)

@[simp] theorem length_toLE (w n : ℕ) : (toLE w n).length = w := by
  induction w generalizing n with
  | zero => rfl
  | succ w ih => simp [toLE, ih]

theorem ofLE_toLE (hn : n < 256 ^ w) : ofLE (toLE w n) = n := by
  induction w generalizing n with
  | zero =>
    simp only [pow_zero, Nat.lt_one_iff] at hn
    simp [toLE, ofLE, hn]
  | succ w ih =>
    have hd : n / 256 < 256 ^ w := by
      exact Nat.div_lt_of_lt_mul (by omega)
    have hb : (UInt8.ofNat (n % 256)).toNat = n % 256 := by
      simp [UInt8.toNat_ofNat']
    simp only [toLE, ofLE, ih hd, hb]
    omega

/-- The number in the `w` bytes at an offset. -/
def fieldLE (off w : ℕ) (bs : List UInt8) : ℕ := ofLE ((bs.drop off).take w)

/-- A field does not see the numbers before it. -/
theorem fieldLE_skip {v off : ℕ} (m : ℕ) (hv : v ≤ off) (rest : List UInt8) :
    fieldLE off w (toLE v m ++ rest) = fieldLE (off - v) w rest := by
  rw [fieldLE, fieldLE, List.drop_append, List.drop_of_length_le (by simpa using hv), length_toLE,
    List.nil_append]

/-- A field at the front is what was written there. -/
theorem fieldLE_zero (hn : n < 256 ^ w) (rest : List UInt8) :
    fieldLE 0 w (toLE w n ++ rest) = n := by
  rw [fieldLE, List.drop_zero, List.take_append_of_le_length (by simp),
    List.take_of_length_le (by simp), ofLE_toLE hn]

/-- A field does not see what stands behind it. -/
theorem fieldLE_append {off : ℕ} {bs : List UInt8} (hlen : off + w ≤ bs.length)
    (rest : List UInt8) : fieldLE off w (bs ++ rest) = fieldLE off w bs := by
  rw [fieldLE, fieldLE, List.drop_append_of_le_length (by omega),
    List.take_append_of_le_length (by rw [List.length_drop]; omega)]

end Hashmonkey.Lib
