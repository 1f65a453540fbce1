import Hashmonkey.Crypto.Hash
import Mathlib.Data.Nat.Digits.Defs
import Mathlib.Data.ZMod.Basic
import Mathlib.Tactic.LinearCombination

/-!
# Points of the curve from bytes (`crypto/crypto-ops.c`)

`check_key` accepts 32 bytes iff `ge_frombytes_vartime` finds a point of the twisted Edwards curve
`-x² + y² = 1 + d x² y²` over the integers modulo `2^255 - 19`: the bytes hold `y` and the sign of
`x`. A field element is a number below the modulus here, not ten limbs, and the addition chain of
`fe_divpowm1` is its power. The checks are those of the source, in its order: `y` must be below the
modulus, the root must solve the equation, and zero has no negative.

Result: `geFrombytesVartime_onCurve`, that what is accepted is a point of the curve. Whether it is
in the subgroup of the base point is not checked there, nor here.
-/

namespace Hashmonkey.Crypto

/-! ## The field -/

/-- The modulus `q` of the field. -/
def fieldPrime : Nat := 2 ^ 255 - 19

/-- `fe_add`. -/
def feAdd (a b : Nat) : Nat := (a + b) % fieldPrime

/-- `fe_sub`. -/
def feSub (a b : Nat) : Nat := (a + (fieldPrime - b % fieldPrime)) % fieldPrime

/-- `fe_mul`. -/
def feMul (a b : Nat) : Nat := a * b % fieldPrime

/-- A power by squaring, for exponents of up to `fuel` bits. -/
def fePow : Nat → Nat → Nat → Nat
  | 0, _, _ => 1
  | fuel + 1, a, e =>
    if e % 2 = 1 then feMul a (fePow fuel (feMul a a) (e / 2))
    else fePow fuel (feMul a a) (e / 2)

/-- `fe_d`. -/
def feD : Nat := 37095705934669439343138083508754565189542113879843219016388785533085940283555

/-- `fe_sqrtm1`. -/
def feSqrtm1 : Nat :=
  19681161376707505956807079304988542015446066515923890162744021073123829784752

/-- `fe_divpowm1`: `u v³ (u v⁷)^((q - 5) / 8)`. -/
def feDivpowm1 (u v : Nat) : Nat :=
  let v3 := feMul (feMul v v) v
  let uv7 := feMul (feMul (feMul v3 v3) v) u
  feMul (feMul u v3) (fePow 252 uv7 ((fieldPrime - 5) / 8))

/-! ## Points -/

/-- The root that `ge_frombytes_vartime` takes for `x`, before its sign. -/
def feRoot (u v : Nat) : Option Nat :=
  let x := feDivpowm1 u v
  let vxx := feMul (feMul x x) v
  if feSub vxx u ≠ 0 then
    if feAdd vxx u ≠ 0 then none else some (feMul x feSqrtm1)
  else some x

/-- `ge_frombytes_vartime`: the affine coordinates of the point. -/
def geFrombytesVartime (s : Blob 32) : Option (Nat × Nat) :=
  let n := Nat.ofDigits 256 (s.1.map UInt8.toNat)
  let y := n % 2 ^ 255
  if fieldPrime ≤ y then none
  else
    let u := feSub (feMul y y) 1
    let v := feAdd (feMul (feMul y y) feD) 1
    match feRoot u v with
    | none => none
    | some x =>
      if x % 2 ≠ n / 2 ^ 255 then
        -- if x is 0, the sign must be positive
        if x = 0 then none else some (feSub 0 x, y)
      else some (x, y)

/-- `check_key`. -/
def checkKey (key : Blob 32) : Bool := (geFrombytesVartime key).isSome

/-! ## On the curve -/

/-- The field, as a ring. -/
abbrev Field := ZMod fieldPrime

theorem cast_feAdd (a b : Nat) : (feAdd a b : Field) = a + b := by
  rw [feAdd, ZMod.natCast_mod, Nat.cast_add]

theorem cast_feMul (a b : Nat) : (feMul a b : Field) = a * b := by
  rw [feMul, ZMod.natCast_mod, Nat.cast_mul]

theorem cast_feSub (a b : Nat) : (feSub a b : Field) = a - b := by
  have hle : b % fieldPrime ≤ fieldPrime := (Nat.mod_lt _ (by decide)).le
  rw [feSub, ZMod.natCast_mod, Nat.cast_add, Nat.cast_sub hle, ZMod.natCast_self,
    ZMod.natCast_mod, zero_sub, sub_eq_add_neg]

theorem sqrtm1_sq : (feSqrtm1 : Field) * feSqrtm1 = -1 := by
  have h : ((feMul feSqrtm1 feSqrtm1 + 1 : Nat) : Field) = 0 := by
    rw [show feMul feSqrtm1 feSqrtm1 + 1 = fieldPrime by decide, ZMod.natCast_self]
  exact eq_neg_of_add_eq_zero_left h

/-- The root solves `v x² = u`. -/
theorem feRoot_spec {u v x : Nat} (h : feRoot u v = some x) : (v : Field) * (x * x) = u := by
  unfold feRoot at h
  dsimp only at h
  split at h
  · split at h
    · simp at h
    · -- the other root: `v x² = -u`, and the square root of -1 turns the sign
      rename_i hadd
      rw [not_not] at hadd
      rw [Option.some.injEq] at h
      have hz : ((feAdd (feMul (feMul (feDivpowm1 u v) (feDivpowm1 u v)) v) u :
          Nat) : Field) = 0 := by
        rw [hadd, Nat.cast_zero]
      rw [cast_feAdd, cast_feMul, cast_feMul] at hz
      rw [← h, cast_feMul]
      linear_combination (v * (feDivpowm1 u v * feDivpowm1 u v) : Field) * sqrtm1_sq - hz
  · rename_i hsub
    rw [not_not] at hsub
    rw [Option.some.injEq] at h
    have hz : ((feSub (feMul (feMul (feDivpowm1 u v) (feDivpowm1 u v)) v) u :
        Nat) : Field) = 0 := by
      rw [hsub, Nat.cast_zero]
    rw [cast_feSub, cast_feMul, cast_feMul, h] at hz
    linear_combination hz

/-- **What `check_key` accepts is a point of the curve.** -/
theorem geFrombytesVartime_onCurve {s : Blob 32} {x y : Nat}
    (h : geFrombytesVartime s = some (x, y)) :
    -(x : Field) ^ 2 + (y : Field) ^ 2 = 1 + feD * (x : Field) ^ 2 * (y : Field) ^ 2 := by
  unfold geFrombytesVartime at h
  dsimp only at h
  split at h
  · simp at h
  split at h
  · simp at h
  rename_i r hr
  have hroot := feRoot_spec hr
  rw [cast_feAdd, cast_feMul, cast_feMul, cast_feSub, cast_feMul, Nat.cast_one] at hroot
  split at h
  · split at h
    · simp at h
    · obtain ⟨rfl, rfl⟩ := h
      rw [cast_feSub, Nat.cast_zero]
      linear_combination -hroot
  · obtain ⟨rfl, rfl⟩ := h
    linear_combination -hroot

/-- The base point of the curve. -/
theorem geFrombytesVartime_onCurve_base : ∃ x y : Nat,
    geFrombytesVartime ⟨0x58 :: List.replicate 31 0x66, rfl⟩ = some (x, y) ∧
      -(x : Field) ^ 2 + (y : Field) ^ 2 = 1 + feD * (x : Field) ^ 2 * (y : Field) ^ 2 := by
  have hkey : checkKey ⟨0x58 :: List.replicate 31 0x66, rfl⟩ = true := by decide +kernel
  obtain ⟨⟨x, y⟩, h⟩ := Option.isSome_iff_exists.mp hkey
  exact ⟨x, y, h, geFrombytesVartime_onCurve h⟩

/-- The base point of the curve, and a `y` that is on no point of it. -/
example : checkKey ⟨0x58 :: List.replicate 31 0x66, rfl⟩ = true ∧
    checkKey (Blob.fill 2) = false := by
  decide +kernel

end Hashmonkey.Crypto
