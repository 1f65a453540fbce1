import Hashmonkey.Crypto.CurveOrder
import Hashmonkey.Ringct.Types

/-!
# Operations on scalars and points (`ringct/rctOps.cpp`)

A `rct::key` is 32 bytes that stand for a scalar or for a point. Where the code computes with a key
it is a `Scalar` here, or an element of the group `Pt`, whose order is the prime `l`: a module over
the scalars. What is not computed with stays a `Key`, and what is hashed becomes one
(`scalarBytes`, `Curve.pointBytes`). A scalar that is received and checked by `sc_check` is the
number its bytes stand for.

`Curve` has what belongs to the curve: the two base points, the encoding of points, the map from
field elements to points and `cn_fast_hash`. Nothing is assumed about them.
-/

namespace Hashmonkey.Ringct

/-! ## Bytes -/

/-- The number that bytes stand for, the least significant first. -/
def leNat : Bytes → ℕ
  | [] => 0
  | b :: bs => b.toNat + 256 * leNat bs

/-- The 32 bytes of a number, the least significant first. -/
def leKey (n : ℕ) : Key := ⟨(List.range 32).map fun i => UInt8.ofNat (n / 256 ^ i), by simp⟩

/-- The bytes of a scalar. -/
def scalarBytes (x : Scalar) : Key := leKey x.val

/-- `sc_check(..) == 0`: the number is reduced. -/
def scCheck (n : ℕ) : Bool := n < curveOrder

/-! ## Points -/

/-- The curve, as the signatures use it. -/
structure Curve (Pt : Type) where
  /-- the base point -/
  G : Pt
  /-- the base of the amounts -/
  H : Pt
  /-- `ge_p3_tobytes` -/
  pointBytes : Pt → Key
  /-- `ge_fromfe_frombytes_vartime` -/
  fromFe : Key → Pt
  cnFastHash : Bytes → Hash

namespace Curve

variable {Pt : Type} (cv : Curve Pt)

/-- `hash_to_scalar` of bytes: the hash, reduced. -/
def hashToScalar (data : Bytes) : Scalar := (leNat (cv.cnFastHash data).1 : Scalar)

/-- `hash_to_scalar` of a key vector. -/
def hashKeys (keys : List Key) : Scalar := cv.hashToScalar (keys.flatMap Subtype.val)

variable [AddCommGroup Pt] [Module Scalar Pt]

/-- `scalarmult8`. -/
def scalarmult8 (P : Pt) : Pt := (8 : Scalar) • P

/-- `hash_to_p3`. -/
def hashToP3 (k : Key) : Pt := scalarmult8 (cv.fromFe (cv.cnFastHash k.1))

end Curve

end Hashmonkey.Ringct
