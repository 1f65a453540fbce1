import Hashmonkey.Lib.BatchInverse
import Hashmonkey.Ringct.Ops

/-!
# Range proofs (`ringct/bulletproofs_plus.cc`)

Model of `bulletproof_plus_VERIFY`.

* The vectors of the source are lists, `multiexp` is the exact sum, and a transcript is a key that
  `transcript_update` hashes into the next one.
* `collect` is the first pass of the verifier, over the structural checks and challenges of each
  proof; `addProof` is the second, which adds a proof with its weight to scalars that the batch
  shares. `batchElement` is the group element that is compared with the identity.

The generators `Gi`, `Hi` are functions of the index. The source has 1024 of each, which is enough
for 16 commitments; with more, `bulletproof_plus_VERIFY` would read past them. Nothing here is
claimed about that.
-/

namespace Hashmonkey.Ringct.Bpp

open Lib

/-! ## Data -/

/-- `maxM`: `BULLETPROOF_PLUS_MAX_OUTPUTS`. -/
def maxM : ℕ := 16

/-- `logN` and `N`: a range has 64 bits. -/
def logN : ℕ := 6

def N : ℕ := 1 <<< logN

/-- The curve with the generators of the vectors. -/
structure Generators (Pt : Type) extends Curve Pt where
  Gi : ℕ → Pt
  Hi : ℕ → Pt

/-- `rct::BulletproofPlus`, with its points as group elements and its scalars as received. -/
structure Proof (Pt : Type) where
  V : List Pt
  A : Pt
  A1 : Pt
  B : Pt
  r1 : ℕ
  s1 : ℕ
  d1 : ℕ
  L : List Pt
  R : List Pt

/-- `MINUS_ONE`. -/
def minusOne : Scalar := 0x1000000000000000000000000000000014def9dea2f79cd65812631a5cf5d3ec

/-- `TWO_SIXTY_FOUR_MINUS_ONE`: six squarings of 2. -/
def twoSixtyFourMinusOne : Scalar := (fun x : Scalar => x * x)^[6] 2 - 1

/-! ## Scalars and vectors -/

/-- The loop of `sum_of_even_powers`. -/
def sumOfEvenPowersLoop : ℕ → ℕ → Scalar → Scalar → Scalar
  | 0, _, _, res => res
  | fuel + 1, n, x1, res =>
    if n > 2 then sumOfEvenPowersLoop fuel (n / 2) (x1 * x1) (x1 * res + res) else res

/-- `sum_of_even_powers`, for a power of 2. -/
def sumOfEvenPowers (x : Scalar) (n : ℕ) : Scalar := sumOfEvenPowersLoop n n (x * x) (x * x)

/-- The first loop of `sum_of_scalar_powers`, where the number of terms is a power of 2. -/
def sumByDoubling : ℕ → ℕ → Scalar → Scalar → Scalar
  | 0, _, _, res => res
  | fuel + 1, n, x1, res =>
    if n > 2 then sumByDoubling fuel (n / 2) (x1 * x1) (x1 * x1 * res + res) else res

/-- The second loop of `sum_of_scalar_powers`. -/
def sumByTerms (x1 : Scalar) : ℕ → Scalar → Scalar → Scalar
  | 0, _, res => res
  | k + 1, prev, res => sumByTerms x1 k (prev * x1) (res + prev)

/-- `sum_of_scalar_powers`. -/
def sumOfScalarPowers (x : Scalar) (n : ℕ) : Scalar :=
  if n = 1 then x
  else
    let n := n + 1
    let res := if n &&& (n - 1) = 0 then sumByDoubling n n x (1 + x) else sumByTerms x (n - 1) x 1
    res - 1

/-- `sm`: `n` squarings of `y`, and a multiplication by `x`. -/
def sm (y : Scalar) (n : ℕ) (x : Scalar) : Scalar := (fun y : Scalar => y * y)^[n] y * x

/-- The addition chain of `invert`. -/
def inversionChain (x : Scalar) : Scalar :=
  let _1 := x
  let _10 := _1 * _1
  let _100 := _10 * _10
  let _11 := _10 * _1
  let _101 := _10 * _11
  let _111 := _10 * _101
  let _1001 := _10 * _111
  let _1011 := _10 * _1001
  let _1111 := _100 * _1011
  let inv := _1111 * _1
  let inv := sm inv (123 + 3) _101
  let inv := sm inv (2 + 2) _11
  let inv := sm inv (1 + 4) _1111
  let inv := sm inv (1 + 4) _1111
  let inv := sm inv 4 _1001
  let inv := sm inv 2 _11
  let inv := sm inv (1 + 4) _1111
  let inv := sm inv (1 + 3) _101
  let inv := sm inv (3 + 3) _101
  let inv := sm inv 3 _111
  let inv := sm inv (1 + 4) _1111
  let inv := sm inv (2 + 3) _111
  let inv := sm inv (2 + 2) _11
  let inv := sm inv (1 + 4) _1011
  let inv := sm inv (2 + 4) _1011
  let inv := sm inv (6 + 4) _1001
  let inv := sm inv (2 + 2) _11
  let inv := sm inv (3 + 2) _11
  let inv := sm inv (3 + 2) _11
  let inv := sm inv (1 + 4) _1001
  let inv := sm inv (1 + 3) _111
  let inv := sm inv (2 + 4) _1111
  let inv := sm inv (1 + 4) _1011
  let inv := sm inv 3 _101
  let inv := sm inv (2 + 4) _1111
  let inv := sm inv 3 _101
  sm inv (1 + 2) _11

/-- `invert` of a scalar. -/
def invert (x : Scalar) : Except String Scalar :=
  if x = 0 then .error "Cannot invert zero!" else .ok (inversionChain x)

/-- `invert` of a batch: one inversion for all. -/
def invertBatch (xs : List Scalar) : Except String (List Scalar) :=
  if xs.any (· = 0) then .error "Cannot invert zero!"
  else do
    let (scratch, acc) := storedProducts 1 xs
    let acc ← invert acc
    .ok (inversesBack acc (xs.zip scratch)).1

/-- The vector `d` with `d[j*N+i] = z^(2*(j+1)) * 2^i`; `double` is how an entry is doubled. -/
def windowed (double : Scalar → Scalar) (z_squared : Scalar) (M : ℕ) : List Scalar :=
  (List.iterate (fun block => block.map fun x => x * z_squared)
    (List.iterate double z_squared N) M).flatten

/-- The loop that finds `logM`: the first power of 2 that is at least the number of commitments, or
exceeds the largest aggregation. -/
def logMLoop (size : ℕ) : ℕ → ℕ → ℕ
  | 0, logM => logM
  | fuel + 1, logM =>
    if 1 <<< logM ≤ maxM ∧ 1 <<< logM < size then logMLoop size fuel (logM + 1) else logM

def logMOf (size : ℕ) : ℕ := logMLoop size (maxM + 1) 0

/-! ## Points -/

variable {Pt : Type} [AddCommGroup Pt] [Module Scalar Pt] (cv : Generators Pt)

/-- `multiexp`. -/
def multiexp (data : List (Scalar × Pt)) : Pt := (data.map fun (s, P) => s • P).sum

/-! ## Transcripts -/

/-- `initial_transcript`. -/
def initialTranscript : Key :=
  cv.pointBytes (cv.hashToP3 (cv.cnFastHash (asciiBytes "bulletproof_plus_transcript")))

/-- `transcript_update`: the challenge; its bytes are the next transcript. -/
def transcriptUpdate (transcript : Key) (updates : List Key) : Scalar :=
  cv.hashKeys (transcript :: updates)

/-- The challenge `y`, from the commitments and `A`. -/
def challengeY (V : List Pt) (A : Pt) : Scalar :=
  let transcript := transcriptUpdate cv (initialTranscript cv)
    [scalarBytes (cv.hashKeys (V.map cv.pointBytes))]
  transcriptUpdate cv (scalarBytes transcript) [cv.pointBytes A]

/-- The challenge `z`, which is also the transcript after it. -/
def challengeZ (y : Scalar) : Scalar := cv.hashKeys [scalarBytes y]

/-! ## The verifier: challenges and checks -/

/-- `bp_plus_proof_data_t`. -/
structure ProofData where
  y : Scalar
  z : Scalar
  e : Scalar
  challenges : List Scalar
  logM : ℕ
  inv_offset : ℕ

/-- `rounds`. -/
def ProofData.rounds (pd : ProofData) : ℕ := pd.logM + logN

/-- The challenges of the rounds and the transcript after them. -/
def roundChallenges : Key → List (Pt × Pt) → List Scalar × Key
  | transcript, [] => ([], transcript)
  | transcript, (L, R) :: rest =>
    let challenge := transcriptUpdate cv transcript [cv.pointBytes L, cv.pointBytes R]
    let (challenges, transcript) := roundChallenges (scalarBytes challenge) rest
    (challenge :: challenges, transcript)

/-- What the first pass computes for a proof. -/
def proofData (p : Proof Pt) (inv_offset : ℕ) : ProofData :=
  let y := challengeY cv p.V p.A
  let z := challengeZ cv y
  let (challenges, transcript) := roundChallenges cv (scalarBytes z) (p.L.zip p.R)
  let e := transcriptUpdate cv transcript [cv.pointBytes p.A1, cv.pointBytes p.B]
  { y, z, e, challenges, logM := logMOf p.V.length, inv_offset }

/-- Checks in their order, each with its message. -/
def firstFailure : List (Bool × String) → Except String Unit
  | [] => .ok ()
  | (passed, message) :: checks => if passed then firstFailure checks else .error message

/-- The checks of the first pass. -/
def structuralChecks (p : Proof Pt) (pd : ProofData) : List (Bool × String) :=
  [(scCheck p.r1, "Input scalar not in range"),
    (scCheck p.s1, "Input scalar not in range"),
    (scCheck p.d1, "Input scalar not in range"),
    (p.V.length ≥ 1, "V does not have at least one element"),
    (p.L.length = p.R.length, "Mismatched L and R sizes"),
    (p.L.length > 0, "Empty proof"),
    (pd.y ≠ 0, "y == 0"),
    (pd.z ≠ 0, "z == 0"),
    (p.L.length = 6 + pd.logM, "Proof is not the expected size"),
    (pd.challenges.all (· ≠ 0), "challenges[j] == 0"),
    (pd.e ≠ 0, "e == 0")]

/-- The result of the first pass. -/
structure Collected where
  max_length : ℕ := 0
  inv_offset : ℕ := 0
  proof_data : List ProofData := []
  to_invert : List Scalar := []

def collectProof (st : Collected) (p : Proof Pt) : Except String Collected :=
  let pd := proofData cv p st.inv_offset
  match firstFailure (structuralChecks p pd) with
  | .error message => .error message
  | .ok () =>
    .ok { max_length := max st.max_length p.L.length
          inv_offset := st.inv_offset + (pd.rounds + 1)
          proof_data := st.proof_data ++ [pd]
          to_invert := st.to_invert ++ (pd.challenges ++ [pd.y]) }

/-- The first pass. -/
def collect (proofs : List (Proof Pt)) : Except String Collected :=
  proofs.foldlM (collectProof cv) {}

/-! ## The verifier: the weighted batch -/

/-- The scalars of the generators and the other data of the multiexponentiation, and the products of
challenges, which each proof overwrites. -/
structure BatchState (Pt : Type) where
  G_scalar : Scalar := 0
  H_scalar : Scalar := 0
  Gi_scalars : List Scalar
  Hi_scalars : List Scalar
  challenges_cache : List Scalar := []
  multiexp_data : List (Scalar × Pt) := []

/-- The loop for `y_MN`. -/
def squareLoop : ℕ → ℕ → Scalar → Scalar
  | 0, _, y_MN => y_MN
  | fuel + 1, temp_MN, y_MN =>
    if temp_MN > 1 then squareLoop fuel (temp_MN / 2) (y_MN * y_MN) else y_MN

/-- `resize` of a vector. -/
def resize (v : List Scalar) (n : ℕ) : List Scalar := v.take n ++ List.replicate (n - v.length) 0

/-- The inner loop over the slots of `challenges_cache`, with `k` pairs of slots still to do, from
the highest down. -/
def cacheSlots (c c_inv : Scalar) : ℕ → List Scalar → List Scalar
  | 0, cache => cache
  | k + 1, cache =>
    let s := 2 * k + 1
    let cache := cache.set s (cache.getD (s / 2) 0 * c)
    let cache := cache.set (s - 1) (cache.getD (s / 2) 0 * c_inv)
    cacheSlots c c_inv k cache

/-- The outer loop, from round `j` on, over the inverses and challenges. -/
def cacheRounds : ℕ → List (Scalar × Scalar) → List Scalar → List Scalar
  | _, [], cache => cache
  | j, (c_inv, c) :: rest, cache => cacheRounds (j + 1) rest (cacheSlots c c_inv (1 <<< j) cache)

/-- `challenges_cache` after a proof. -/
def challengesCache (cache : List Scalar) (pairs : List (Scalar × Scalar)) : List Scalar :=
  let cache := resize cache (1 <<< pairs.length)
  let cache := cache.set 0 (pairs.getD 0 (0, 0)).1
  let cache := cache.set 1 (pairs.getD 0 (0, 0)).2
  cacheRounds 1 pairs.tail cache

/-- The variables of the loop over the generators. -/
structure GeneratorLoop where
  Gi_scalars : List Scalar
  Hi_scalars : List Scalar
  e_r1_w_y : Scalar
  minus_e_squared_w_y : Scalar

/-- A step of that loop. -/
def generatorStep (cache d : List Scalar) (MN : ℕ) (e_s1_w e_squared_z_w yinv : Scalar)
    (st : GeneratorLoop) (i : ℕ) : GeneratorLoop :=
  let g_scalar := st.e_r1_w_y * cache.getD i 0 + e_squared_z_w
  -- `(~i) & (MN-1)`, for a power of 2
  let h_scalar := e_s1_w * cache.getD (MN - 1 - i) 0 + (0 - e_squared_z_w)
  let h_scalar := st.minus_e_squared_w_y * d.getD i 0 + h_scalar
  { Gi_scalars := st.Gi_scalars.modify i (· + g_scalar)
    Hi_scalars := st.Hi_scalars.modify i (· + h_scalar)
    e_r1_w_y := st.e_r1_w_y * yinv
    minus_e_squared_w_y := st.minus_e_squared_w_y * yinv }

/-- A proof is added to the batch. -/
def addProof (inverses : List Scalar) (weight : Scalar) (p : Proof Pt) (pd : ProofData)
    (st : BatchState Pt) : Except String (BatchState Pt) :=
  if p.L.length ≠ 6 + pd.logM then .error "Proof is not the expected size"
  else
    let M := 1 <<< pd.logM
    let MN := M * N
    let y_MN := squareLoop MN MN pd.y
    let y_MN_1 := y_MN * pd.y
    let e_squared := pd.e * pd.e
    let z_squared := pd.z * pd.z
    -- V_j: -e^2 * z^(2*(j+1)) * y^(MN+1) * weight
    let temp := (0 - e_squared) * y_MN_1 * weight
    let V_data := (List.iterate (fun t => t * z_squared) (temp * z_squared) p.V.length).zip
      (p.V.map Curve.scalarmult8)
    let minus_weight := minusOne * weight
    let minus_weight_e := minus_weight * pd.e
    let minus_weight_e_squared := minus_weight_e * pd.e
    let d := windowed (fun x => x + x) z_squared M
    let sum_d := twoSixtyFourMinusOne * sumOfEvenPowers pd.z (2 * M)
    let sum_y := sumOfScalarPowers pd.y MN
    -- H: weight*( r1*y*s1 + e^2*( y^(MN+1)*z*sum(d) + (z^2-z)*sum(y) ) )
    let H_term := ((z_squared - pd.z) * sum_y + y_MN_1 * pd.z * sum_d) * e_squared +
      p.r1 * pd.y * p.s1
    let rounds := pd.rounds
    let challenges_inv := (inverses.drop pd.inv_offset).take rounds
    let yinv := inverses.getD (pd.inv_offset + rounds) 0
    let cache := challengesCache st.challenges_cache (challenges_inv.zip pd.challenges)
    let loop := (List.range MN).foldl
      (generatorStep cache d MN (pd.e * p.s1 * weight) (e_squared * pd.z * weight) yinv)
      ⟨st.Gi_scalars, st.Hi_scalars, pd.e * p.r1 * weight, (0 - e_squared) * weight * y_MN⟩
    let LR_data := (List.range rounds).flatMap fun j =>
      let c := pd.challenges.getD j 0
      let c_inv := challenges_inv.getD j 0
      [(c * c * minus_weight_e_squared, Curve.scalarmult8 (p.L.getD j 0)),
        (c_inv * c_inv * minus_weight_e_squared, Curve.scalarmult8 (p.R.getD j 0))]
    .ok { G_scalar := weight * p.d1 + st.G_scalar
          H_scalar := H_term * weight + st.H_scalar
          Gi_scalars := loop.Gi_scalars
          Hi_scalars := loop.Hi_scalars
          challenges_cache := cache
          multiexp_data := st.multiexp_data ++ V_data ++
            [(minus_weight, Curve.scalarmult8 p.B), (minus_weight_e, Curve.scalarmult8 p.A1),
              (minus_weight_e_squared, Curve.scalarmult8 p.A)] ++ LR_data }

/-- The second pass; `weights k` is drawn for the proof at `k`. -/
def addProofs (inverses : List Scalar) (weights : ℕ → Scalar) :
    ℕ → List (Proof Pt × ProofData) → BatchState Pt → Except String (BatchState Pt)
  | _, [], st => .ok st
  | k, (p, pd) :: rest, st =>
    match addProof inverses (weights k) p pd st with
    | .error message => .error message
    | .ok st => addProofs inverses weights (k + 1) rest st

/-- The group element that `bulletproof_plus_VERIFY` compares with the identity. -/
def batchElement (proofs : List (Proof Pt)) (weights : ℕ → Scalar) : Except String Pt :=
  match collect cv proofs with
  | .error message => .error message
  | .ok c =>
    if ¬ c.max_length < 32 then .error "At least one proof is too large"
    else
      let maxMN := 1 <<< c.max_length
      match invertBatch c.to_invert with
      | .error message => .error message
      | .ok inverses =>
        match addProofs inverses weights 0 (proofs.zip c.proof_data)
          { Gi_scalars := List.replicate maxMN 0, Hi_scalars := List.replicate maxMN 0 } with
        | .error message => .error message
        | .ok st =>
          .ok (multiexp (((List.range maxMN).flatMap fun i =>
              [(st.Gi_scalars.getD i 0, cv.Gi i), (st.Hi_scalars.getD i 0, cv.Hi i)]) ++
            st.multiexp_data ++ [(st.G_scalar, cv.G), (st.H_scalar, cv.H)]))

/-- `bulletproof_plus_VERIFY`, with the weights that are drawn for the proofs. -/
def verify [DecidableEq Pt] (proofs : List (Proof Pt)) (weights : ℕ → Scalar) : Bool :=
  match batchElement cv proofs weights with
  | .error _ => false
  | .ok element => element = 0

end Hashmonkey.Ringct.Bpp
