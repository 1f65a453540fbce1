import Hashmonkey.Ringct.BulletproofPlusScalars

/-!
# The batch check of the range proofs is linear (`bulletproofs_plus.cc`)

`bulletproof_plus_VERIFY` adds up the scalars of the shared generators over all proofs of a batch,
with one inversion for all of them and a table of challenge products that each proof overwrites.

* `GeneratorLoop.At`: what the loop over the generators has added after `k` steps, in closed form
  (`generatorLoop_at`).
* `proofElement` is what a proof contributes with weight 1; it depends on the proof
  alone.
* `addProof_element`: adding a proof adds its weight times that element, from any state.
* `collect_ok`: the first pass finds the challenges of each proof, and where their inverses will be.

The group is any module over the scalars. Generators, encodings and hashes are those of `Generators`
and nothing is assumed about them; the weights are given, where the source draws them at random.

Result: `batchElement_eq`, `verify_batch`. **The element that is compared with the identity is the
sum of the elements of the proofs, each times its weight.** A batch of accepted proofs is accepted,
and one with exactly one that is not is rejected, for all weights other than zero.
-/

namespace Hashmonkey.Ringct.Bpp

open Lib List

variable {Pt : Type} [AddCommGroup Pt] [Module Scalar Pt]

/-! ## Multiexponentiation -/

@[simp] theorem multiexp_nil : multiexp ([] : List (Scalar × Pt)) = 0 := rfl

@[simp] theorem multiexp_cons (s : Scalar) (P : Pt) (data : List (Scalar × Pt)) :
    multiexp ((s, P) :: data) = s • P + multiexp data := by
  simp [multiexp]

@[simp] theorem multiexp_append (data data' : List (Scalar × Pt)) :
    multiexp (data ++ data') = multiexp data + multiexp data' := by
  simp [multiexp]

theorem multiexp_zip : ∀ (a : List Scalar) (G : List Pt), multiexp (a.zip G) = lincomb a G
  | [], _ => by simp
  | _ :: _, [] => by simp [lincomb]
  | x :: a, P :: G => by rw [zip_cons_cons, multiexp_cons, multiexp_zip a G, lincomb_cons]

theorem multiexp_range_pairs (f g : ℕ → Scalar × Pt) : ∀ n : ℕ,
    multiexp ((List.range n).flatMap fun i => [f i, g i]) =
      ∑ i ∈ Finset.range n, ((f i).1 • (f i).2 + (g i).1 • (g i).2)
  | 0 => by simp
  | n + 1 => by
    rw [range_succ, flatMap_append, multiexp_append, multiexp_range_pairs f g n,
      Finset.sum_range_succ]
    simp [multiexp]

/-! ## The loop over the generators -/

theorem getD_modify (l : List Scalar) (s i : ℕ) (x : Scalar) (hs : s < l.length) :
    (l.modify s (· + x)).getD i 0 = l.getD i 0 + if i = s then x else 0 := by
  by_cases h : s = i
  · subst h
    simp [getElem?_eq_getElem hs]
  · simp [h, Ne.symm h]

section Loop

variable (cache d : List Scalar) (MN : ℕ) (e_s1_w e_squared_z_w yinv u v : Scalar)

/-- What the loop adds at index `i`. -/
def gTerm (i : ℕ) : Scalar := u * yinv ^ i * cache.getD i 0 + e_squared_z_w

def hTerm (i : ℕ) : Scalar :=
  v * yinv ^ i * d.getD i 0 + (e_s1_w * cache.getD (MN - 1 - i) 0 + (0 - e_squared_z_w))

/-- The state after `k` steps. -/
structure GeneratorLoop.At (Gi Hi : List Scalar) (k : ℕ) (st : GeneratorLoop) : Prop where
  length_Gi : st.Gi_scalars.length = Gi.length
  length_Hi : st.Hi_scalars.length = Hi.length
  e_r1_w_y_eq : st.e_r1_w_y = u * yinv ^ k
  minus_e_squared_w_y_eq : st.minus_e_squared_w_y = v * yinv ^ k
  getD_Gi : ∀ i, st.Gi_scalars.getD i 0 =
    Gi.getD i 0 + if i < k then gTerm cache e_squared_z_w yinv u i else 0
  getD_Hi : ∀ i, st.Hi_scalars.getD i 0 =
    Hi.getD i 0 + if i < k then hTerm cache d MN e_s1_w e_squared_z_w yinv v i else 0

variable {Gi Hi : List Scalar}

theorem GeneratorLoop.At.step {k : ℕ} {st : GeneratorLoop}
    (h : st.At cache d MN e_s1_w e_squared_z_w yinv u v Gi Hi k) (hG : k < Gi.length)
    (hH : k < Hi.length) :
    (generatorStep cache d MN e_s1_w e_squared_z_w yinv st k).At cache d MN e_s1_w e_squared_z_w
      yinv u v Gi Hi (k + 1) := by
  have hsplit : ∀ (x : Scalar) (f : ℕ → Scalar) (i : ℕ), x = f k →
      (if i < k then f i else 0) + (if i = k then x else 0) = if i < k + 1 then f i else 0 := by
    rintro x f i rfl
    rcases lt_trichotomy i k with hlt | rfl | hgt
    · rw [if_pos hlt, if_neg (by omega), if_pos (by omega), add_zero]
    · rw [if_neg (lt_irrefl _), if_pos rfl, if_pos (by omega), zero_add]
    · rw [if_neg (by omega), if_neg (by omega), if_neg (by omega), add_zero]
  unfold generatorStep
  refine ⟨?_, ?_, ?_, ?_, ?_, ?_⟩
  · rw [length_modify, h.length_Gi]
  · rw [length_modify, h.length_Hi]
  · change st.e_r1_w_y * yinv = _
    rw [h.e_r1_w_y_eq, mul_assoc, ← pow_succ]
  · change st.minus_e_squared_w_y * yinv = _
    rw [h.minus_e_squared_w_y_eq, mul_assoc, ← pow_succ]
  · intro i
    rw [getD_modify _ _ _ _ (by rw [h.length_Gi]; exact hG), h.getD_Gi, add_assoc,
      hsplit _ (gTerm cache e_squared_z_w yinv u) i (by rw [h.e_r1_w_y_eq, gTerm])]
  · intro i
    rw [getD_modify _ _ _ _ (by rw [h.length_Hi]; exact hH), h.getD_Hi, add_assoc,
      hsplit _ (hTerm cache d MN e_s1_w e_squared_z_w yinv v) i
        (by rw [h.minus_e_squared_w_y_eq, hTerm])]

/-- **The whole loop.** -/
theorem generatorLoop_at : ∀ k : ℕ, k ≤ Gi.length → k ≤ Hi.length →
    ((List.range k).foldl (generatorStep cache d MN e_s1_w e_squared_z_w yinv) ⟨Gi, Hi, u, v⟩).At
      cache d MN e_s1_w e_squared_z_w yinv u v Gi Hi k
  | 0, _, _ => ⟨rfl, rfl, by simp, by simp, by simp, by simp⟩
  | k + 1, hG, hH => by
    rw [range_succ, foldl_append]
    exact (generatorLoop_at k (by omega) (by omega)).step _ _ _ _ _ _ _ _ (by omega) (by omega)

/-- The sum over the generators after the loop. -/
theorem GeneratorLoop.At.sum (cv : Generators Pt) {k n : ℕ} {st : GeneratorLoop}
    (h : st.At cache d MN e_s1_w e_squared_z_w yinv u v Gi Hi k) (hn : k ≤ n) :
    ∑ i ∈ Finset.range n, (st.Gi_scalars.getD i 0 • cv.Gi i + st.Hi_scalars.getD i 0 • cv.Hi i) =
      (∑ i ∈ Finset.range n, (Gi.getD i 0 • cv.Gi i + Hi.getD i 0 • cv.Hi i)) +
        ∑ i ∈ Finset.range k, (gTerm cache e_squared_z_w yinv u i • cv.Gi i +
          hTerm cache d MN e_s1_w e_squared_z_w yinv v i • cv.Hi i) := by
  have hterms : ∀ i, st.Gi_scalars.getD i 0 • cv.Gi i + st.Hi_scalars.getD i 0 • cv.Hi i =
      (Gi.getD i 0 • cv.Gi i + Hi.getD i 0 • cv.Hi i) +
        if i < k then gTerm cache e_squared_z_w yinv u i • cv.Gi i +
          hTerm cache d MN e_s1_w e_squared_z_w yinv v i • cv.Hi i else 0 := by
    intro i
    rw [h.getD_Gi, h.getD_Hi]
    split_ifs
    · module
    · module
  have hrange : (Finset.range n).filter (fun i => i < k) = Finset.range k := by
    ext i
    simp only [Finset.mem_filter, Finset.mem_range]
    omega
  simp only [hterms, Finset.sum_add_distrib, ← Finset.sum_filter, hrange]

end Loop

/-! ## What a proof contributes -/

/-- The inverses and challenges of the rounds. -/
def ProofData.pairs (pd : ProofData) : List (Scalar × Scalar) :=
  (pd.challenges.map fun c => c⁻¹).zip pd.challenges

/-- `y_MN`. -/
def ProofData.yMN (pd : ProofData) : Scalar := squareLoop (2 ^ pd.rounds) (2 ^ pd.rounds) pd.y

/-- The scalar of `H`. -/
def hScalar (p : Proof Pt) (pd : ProofData) : Scalar :=
  let sum_d := twoSixtyFourMinusOne * sumOfEvenPowers pd.z (2 * 2 ^ pd.logM)
  ((pd.z * pd.z - pd.z) * sumOfScalarPowers pd.y (2 ^ pd.rounds) + pd.yMN * pd.y * pd.z * sum_d) *
    (pd.e * pd.e) + p.r1 * pd.y * p.s1

/-- The element of a proof with weight 1. -/
def proofElement (cv : Generators Pt) (p : Proof Pt) (pd : ProofData) : Pt :=
  let MN := 2 ^ pd.rounds
  let e_squared := pd.e * pd.e
  let z_squared := pd.z * pd.z
  let products := challengeProducts pd.pairs
  let d := windowed (fun x => x + x) z_squared (2 ^ pd.logM)
  (∑ i ∈ Finset.range MN,
    (gTerm products (e_squared * pd.z) pd.y⁻¹ (pd.e * p.r1) i • cv.Gi i +
      hTerm products d MN (pd.e * p.s1) (e_squared * pd.z) pd.y⁻¹ (-e_squared * pd.yMN) i •
        cv.Hi i)) +
  (p.d1 : Scalar) • cv.G + hScalar p pd • cv.H -
  (e_squared * pd.yMN * pd.y) • lincomb
    (List.iterate (fun t => t * z_squared) z_squared p.V.length) (p.V.map Curve.scalarmult8) -
  Curve.scalarmult8 p.B - pd.e • Curve.scalarmult8 p.A1 - e_squared • Curve.scalarmult8 p.A -
  e_squared • (lincomb (pd.challenges.map fun c => c * c) (p.L.map Curve.scalarmult8) +
    lincomb (pd.challenges.map fun c => c⁻¹ * c⁻¹) (p.R.map Curve.scalarmult8))

/-- The element of a state, with `n` generators. -/
def BatchState.element (cv : Generators Pt) (n : ℕ) (st : BatchState Pt) : Pt :=
  (∑ i ∈ Finset.range n,
    (st.Gi_scalars.getD i 0 • cv.Gi i + st.Hi_scalars.getD i 0 • cv.Hi i)) +
  multiexp st.multiexp_data + (st.G_scalar • cv.G + st.H_scalar • cv.H)

/-- A proof whose vectors have the size that its commitments ask for. -/
structure Proof.Sized (p : Proof Pt) (pd : ProofData) : Prop where
  length_L : p.L.length = 6 + pd.logM
  length_R : p.R.length = p.L.length
  length_challenges : pd.challenges.length = pd.rounds

variable {p : Proof Pt}

omit [AddCommGroup Pt] [Module Scalar Pt] in
theorem Proof.Sized.rounds_eq {pd : ProofData} (h : p.Sized pd) : p.L.length = pd.rounds := by
  rw [h.length_L, ProofData.rounds, logN, Nat.add_comm]

theorem slots_mul_N (logM : ℕ) : 1 <<< logM * N = 2 ^ (logM + logN) := by
  rw [N, Nat.one_shiftLeft, Nat.one_shiftLeft, pow_add]

theorem iterate_mul_scale (c : Scalar) : ∀ (n : ℕ) (a t : Scalar),
    List.iterate (fun p => p * c) (t * a) n = (List.iterate (fun p => p * c) a n).map fun x => x * t
  | 0, _, _ => rfl
  | n + 1, a, t => by
    rw [List.iterate, List.iterate, map_cons, ← iterate_mul_scale c n (a * c) t, mul_comm t a,
      mul_assoc, mul_comm t, ← mul_assoc, mul_comm t]

section Scale

variable (cache d : List Scalar) (MN : ℕ) (s ez yinv u v w : Scalar)

theorem gTerm_weight (i : ℕ) :
    gTerm cache (ez * w) yinv (u * w) i = w * gTerm cache ez yinv u i := by
  unfold gTerm
  ring

theorem hTerm_weight (i : ℕ) :
    hTerm cache d MN (s * w) (ez * w) yinv (v * w) i = w * hTerm cache d MN s ez yinv v i := by
  unfold hTerm
  ring

end Scale

variable {n : ℕ}

/-- The points of the rounds. -/
theorem multiexp_rounds {challenges : List Scalar} {L R : List Pt} (c : Scalar)
    (hc : challenges.length = n) (hL : L.length = n) (hR : R.length = n) :
    multiexp ((List.range n).flatMap fun j =>
      [(challenges.getD j 0 * challenges.getD j 0 * c, Curve.scalarmult8 (L.getD j 0)),
        ((challenges.map fun c => c⁻¹).getD j 0 * (challenges.map fun c => c⁻¹).getD j 0 * c,
          Curve.scalarmult8 (R.getD j 0))]) =
      c • (lincomb (challenges.map fun c => c * c) (L.map Curve.scalarmult8) +
        lincomb (challenges.map fun c => c⁻¹ * c⁻¹) (R.map Curve.scalarmult8)) := by
  have hmap : ∀ (f : Scalar → Scalar), (challenges.map f).length = n := fun f => by
    rw [length_map, hc]
  rw [multiexp_range_pairs, lincomb_getD (hmap _) (by rw [length_map, hL]),
    lincomb_getD (hmap _) (by rw [length_map, hR]), ← Finset.sum_add_distrib, Finset.smul_sum]
  refine Finset.sum_congr rfl fun j hj => ?_
  rw [Finset.mem_range] at hj
  have hcj : challenges[j]? = some challenges[j] := getElem?_eq_getElem (by omega)
  have hLj : L[j]? = some L[j] := getElem?_eq_getElem (by omega)
  have hRj : R[j]? = some R[j] := getElem?_eq_getElem (by omega)
  simp only [getD_eq_getElem?_getD, getElem?_map, hcj, hLj, hRj, Option.map_some,
    Option.getD_some]
  module

/-- **Adding a proof adds its weight times its element**, from any state. -/
theorem addProof_element (cv : Generators Pt) (weight : Scalar) {inverses : List Scalar}
    {pd : ProofData} {st : BatchState Pt} (hsized : p.Sized pd)
    (hinv : (inverses.drop pd.inv_offset).take pd.rounds = pd.challenges.map fun c => c⁻¹)
    (hyinv : inverses.getD (pd.inv_offset + pd.rounds) 0 = pd.y⁻¹)
    (hG : st.Gi_scalars.length = n) (hH : st.Hi_scalars.length = n) (hn : 2 ^ pd.rounds ≤ n) :
    ∃ st', addProof inverses weight p pd st = .ok st' ∧ st'.Gi_scalars.length = n ∧
      st'.Hi_scalars.length = n ∧
      st'.element cv n = st.element cv n + weight • proofElement cv p pd := by
  have hMN : 1 <<< pd.logM * N = 2 ^ pd.rounds := slots_mul_N pd.logM
  have hlen : pd.pairs.length = pd.rounds := by
    rw [ProofData.pairs, length_zip, length_map, Nat.min_self, hsized.length_challenges]
  have hpairs : pd.pairs ≠ [] :=
    ne_nil_of_length_pos (by rw [hlen, ProofData.rounds, logN]; omega)
  unfold addProof
  rw [if_neg (not_not.2 hsized.length_L)]
  dsimp only
  rw [hMN, hinv, hyinv, Nat.one_shiftLeft, ← ProofData.yMN, ← ProofData.pairs,
    challengesCache_eq _ hpairs]
  have hloop := generatorLoop_at (challengeProducts pd.pairs)
    (windowed (fun x => x + x) (pd.z * pd.z) (2 ^ pd.logM)) (2 ^ pd.rounds) (pd.e * p.s1 * weight)
    (pd.e * pd.e * pd.z * weight) pd.y⁻¹ (pd.e * p.r1 * weight)
    ((0 - pd.e * pd.e) * weight * pd.yMN) (2 ^ pd.rounds) (hG ▸ hn) (hH ▸ hn)
  refine ⟨_, rfl, hloop.length_Gi.trans hG, hloop.length_Hi.trans hH, ?_⟩
  have hv : (0 - pd.e * pd.e) * weight * pd.yMN = -(pd.e * pd.e) * pd.yMN * weight := by ring
  unfold BatchState.element
  rw [hloop.sum _ _ _ _ _ _ _ _ cv hn, hv, multiexp_append, multiexp_append, multiexp_append,
    multiexp_zip, iterate_mul_scale, lincomb_map,
    multiexp_rounds _ hsized.length_challenges hsized.rounds_eq
      (hsized.length_R.trans hsized.rounds_eq)]
  simp only [gTerm_weight, hTerm_weight, mul_smul weight, ← smul_add, ← Finset.smul_sum,
    multiexp_cons, multiexp_nil, minusOne_eq]
  unfold proofElement hScalar
  module

/-! ## The first pass -/

theorem firstFailure_ok : ∀ {checks : List (Bool × String)},
    firstFailure checks = .ok () ↔ ∀ c ∈ checks, c.1 = true
  | [] => by simp [firstFailure]
  | (passed, message) :: checks => by
    cases passed with
    | false => simp [firstFailure]
    | true => simp [firstFailure, firstFailure_ok]

/-- The structural checks of a proof. They do not depend on the rest of the batch. -/
def Proof.structural (cv : Generators Pt) (p : Proof Pt) : Except String Unit :=
  firstFailure (structuralChecks p (proofData cv p 0))

/-- What a proof gives to the batch inversion. -/
def Proof.toInvert (cv : Generators Pt) (p : Proof Pt) : List Scalar :=
  (proofData cv p 0).challenges ++ [(proofData cv p 0).y]

variable {cv : Generators Pt}

omit [AddCommGroup Pt] [Module Scalar Pt] in
theorem length_roundChallenges : ∀ (transcript : Key) (LR : List (Pt × Pt)),
    (roundChallenges cv transcript LR).1.length = LR.length
  | _, [] => rfl
  | transcript, (L, R) :: rest => by
    rw [roundChallenges, length_cons]
    exact congrArg _ (length_roundChallenges _ rest)

theorem Proof.sized (h : p.structural cv = .ok ()) (inv_offset : ℕ) :
    p.Sized (proofData cv p inv_offset) := by
  have hchecks := firstFailure_ok.1 h
  simp only [structuralChecks, forall_mem_cons, decide_eq_true_eq] at hchecks
  obtain ⟨-, -, -, -, hLR, -, -, -, hsize, -⟩ := hchecks
  refine ⟨hsize, hLR.symm, ?_⟩
  change (roundChallenges cv _ (p.L.zip p.R)).1.length = _
  rw [length_roundChallenges, length_zip, ← hLR, Nat.min_self, hsize, ProofData.rounds, logN,
    Nat.add_comm]
  rfl

theorem Proof.toInvert_ne_zero (h : p.structural cv = .ok ()) : ∀ x ∈ p.toInvert cv, x ≠ 0 := by
  have hchecks := firstFailure_ok.1 h
  simp only [structuralChecks, forall_mem_cons, decide_eq_true_eq, all_eq_true] at hchecks
  obtain ⟨-, -, -, -, -, -, hy, -, -, hc, -⟩ := hchecks
  intro x hx
  rcases mem_append.1 hx with hx | hx
  · exact hc x hx
  rw [mem_singleton.1 hx]
  exact hy

theorem Proof.length_toInvert (h : p.structural cv = .ok ()) :
    (p.toInvert cv).length = (proofData cv p 0).rounds + 1 := by
  rw [Proof.toInvert, length_append, length_singleton, (Proof.sized h 0).length_challenges]

/-- The data of proofs whose inverses start at an offset. -/
def dataFrom (cv : Generators Pt) : ℕ → List (Proof Pt) → List ProofData
  | _, [] => []
  | offset, p :: ps => proofData cv p offset :: dataFrom cv (offset + (p.toInvert cv).length) ps

theorem collectProof_eq (h : p.structural cv = .ok ()) (st : Collected) :
    collectProof cv st p = .ok
      { max_length := max st.max_length p.L.length
        inv_offset := st.inv_offset + (p.toInvert cv).length
        proof_data := st.proof_data ++ [proofData cv p st.inv_offset]
        to_invert := st.to_invert ++ p.toInvert cv } := by
  have hpass : firstFailure (structuralChecks p (proofData cv p st.inv_offset)) = .ok () := h
  unfold collectProof
  dsimp only
  rw [hpass, Proof.length_toInvert h]
  rfl

/-- **The first pass**, for proofs that pass their structural checks. -/
theorem collect_ok : ∀ {ps : List (Proof Pt)} (st : Collected),
    (∀ p ∈ ps, p.structural cv = .ok ()) →
    ps.foldlM (collectProof cv) st = .ok
      { max_length := ps.foldl (fun m p => max m p.L.length) st.max_length
        inv_offset := st.inv_offset + (ps.flatMap (Proof.toInvert cv)).length
        proof_data := st.proof_data ++ dataFrom cv st.inv_offset ps
        to_invert := st.to_invert ++ ps.flatMap (Proof.toInvert cv) }
  | [], st, _ => by simp [dataFrom, pure, Except.pure]
  | p :: ps, st, h => by
    have hp : p.structural cv = .ok () := h p mem_cons_self
    have hps : ∀ p ∈ ps, p.structural cv = .ok () := fun p hp => h p (mem_cons_of_mem _ hp)
    rw [foldlM_cons, collectProof_eq hp]
    change ps.foldlM (collectProof cv) _ = _
    rw [collect_ok _ hps]
    simp only [dataFrom, flatMap_cons, foldl_cons, length_append, append_assoc,
      singleton_append, Nat.add_assoc]

/-! ## The second pass -/

/-- The element of a proof with weight 1. -/
def Proof.element (cv : Generators Pt) (p : Proof Pt) : Pt := proofElement cv p (proofData cv p 0)

/-- **The second pass** adds the elements of all proofs with their weights. -/
theorem addProofs_element {inverses : List Scalar} (weights : ℕ → Scalar) :
    ∀ (ps : List (Proof Pt)) (k offset : ℕ) (st : BatchState Pt),
    (∀ p ∈ ps, p.structural cv = .ok ()) → (∀ p ∈ ps, 2 ^ p.L.length ≤ n) →
    inverses.drop offset = (ps.flatMap (Proof.toInvert cv)).map (fun x => x⁻¹) →
    st.Gi_scalars.length = n → st.Hi_scalars.length = n →
    ∃ st', addProofs inverses weights k (ps.zip (dataFrom cv offset ps)) st = .ok st' ∧
      st'.element cv n = st.element cv n +
        ∑ i : Fin ps.length, weights (k + i) • (ps[i]).element cv
  | [], k, offset, st, _, _, _, _, _ => ⟨st, rfl, by simp⟩
  | p :: ps, k, offset, st, h, hn, hinv, hG, hH => by
    have hp : p.structural cv = .ok () := h p mem_cons_self
    have hsized := Proof.sized hp offset
    rw [flatMap_cons, map_append] at hinv
    have htake : (inverses.drop offset).take (proofData cv p offset).rounds =
        (proofData cv p offset).challenges.map fun c => c⁻¹ := by
      rw [hinv, Proof.toInvert, map_append, append_assoc]
      exact take_left' (by rw [length_map]; exact hsized.length_challenges)
    have hyinv : inverses.getD (offset + (proofData cv p offset).rounds) 0 =
        (proofData cv p offset).y⁻¹ := by
      have hc : ((proofData cv p 0).challenges.map fun c => c⁻¹).length =
          (proofData cv p offset).rounds := by
        rw [length_map]
        exact hsized.length_challenges
      rw [getD_eq_getElem?_getD, ← getElem?_drop, hinv, Proof.toInvert, map_append,
        append_assoc, getElem?_append_right hc.le, hc, Nat.sub_self]
      rfl
    have hrest : inverses.drop (offset + (p.toInvert cv).length) =
        (ps.flatMap (Proof.toInvert cv)).map fun x => x⁻¹ := by
      rw [← drop_drop, hinv, drop_left' (length_map _)]
    obtain ⟨st1, hst1, hG1, hH1, helement1⟩ := addProof_element cv (weights k) hsized htake hyinv
      hG hH (hsized.rounds_eq ▸ hn p mem_cons_self)
    obtain ⟨st2, hst2, helement2⟩ := addProofs_element weights ps (k + 1) _ st1
      (fun p hp => h p (mem_cons_of_mem _ hp)) (fun p hp => hn p (mem_cons_of_mem _ hp))
      hrest hG1 hH1
    refine ⟨st2, ?_, ?_⟩
    · rw [dataFrom, zip_cons_cons, addProofs, hst1]
      exact hst2
    · have hsum := Fin.sum_univ_succ fun i : Fin (ps.length + 1) =>
        weights (k + i) • ((p :: ps)[i]).element cv
      rw [helement2, helement1, add_assoc]
      refine congrArg _ (Eq.trans (congrArg _ (Finset.sum_congr rfl fun i _ => ?_)) hsum.symm)
      rw [Nat.add_assoc, Nat.add_comm 1]
      rfl

/-! ## The batch -/

omit [AddCommGroup Pt] [Module Scalar Pt] in
theorem le_foldl_max : ∀ (ps : List (Proof Pt)) (m : ℕ),
    m ≤ ps.foldl (fun m p => max m p.L.length) m ∧
      ∀ p ∈ ps, p.L.length ≤ ps.foldl (fun m p => max m p.L.length) m
  | [], m => by simp
  | q :: ps, m => by
    obtain ⟨hm, hps⟩ := le_foldl_max ps (max m q.L.length)
    rw [foldl_cons]
    refine ⟨(Nat.le_max_left _ _).trans hm, ?_⟩
    intro p hp
    rcases mem_cons.1 hp with rfl | hp
    · exact (Nat.le_max_right _ _).trans hm
    · exact hps p hp

/-- **The element of a batch** of proofs that pass their checks, with at most 16 commitments each.
-/
theorem batchElement_eq (weights : ℕ → Scalar) {ps : List (Proof Pt)}
    (hchecks : ∀ p ∈ ps, p.structural cv = .ok ()) (hV : ∀ p ∈ ps, p.V.length ≤ maxM) :
    batchElement cv ps weights =
      .ok (∑ i : Fin ps.length, weights i • (ps[i]).element cv) := by
  have hL : ∀ p ∈ ps, p.L.length < 32 := by
    intro p hp
    have hlogM : logMOf p.V.length ≤ 4 := (logMOf_le _ (hV p hp)).2
    rw [(Proof.sized (hchecks p hp) 0).length_L]
    change 6 + logMOf p.V.length < 32
    omega
  generalize hmax : ps.foldl (fun m p => max m p.L.length) 0 = max_length
  have hlt : max_length < 32 := by
    rw [← hmax]
    exact foldlRecOn (motive := (· < 32)) ps _ (by omega) fun m hm p hp =>
      Nat.max_lt.2 ⟨hm, hL p hp⟩
  have hle : ∀ p ∈ ps, 2 ^ p.L.length ≤ 1 <<< max_length := by
    intro p hp
    rw [Nat.one_shiftLeft]
    exact Nat.pow_le_pow_right (by omega) (hmax ▸ (le_foldl_max ps 0).2 p hp)
  have hne : ∀ x ∈ ps.flatMap (Proof.toInvert cv), x ≠ 0 := by
    intro x hx
    obtain ⟨p, hp, hxp⟩ := mem_flatMap.1 hx
    exact Proof.toInvert_ne_zero (hchecks p hp) x hxp
  obtain ⟨st, hst, helement⟩ := addProofs_element (n := 1 <<< max_length) weights ps 0 0
    { Gi_scalars := List.replicate (1 <<< max_length) 0
      Hi_scalars := List.replicate (1 <<< max_length) 0 } hchecks hle drop_zero
    length_replicate length_replicate
  have hstart : BatchState.element cv (1 <<< max_length)
      { Gi_scalars := List.replicate (1 <<< max_length) 0
        Hi_scalars := List.replicate (1 <<< max_length) 0 } = 0 := by
    have hget : ∀ i, (List.replicate (1 <<< max_length) (0 : Scalar)).getD i 0 = 0 := fun i => by
      rw [getD_eq_getElem?_getD, getElem?_replicate]
      split_ifs <;> rfl
    simp only [BatchState.element, hget, zero_smul, add_zero, Finset.sum_const_zero, multiexp_nil]
  rw [hstart, zero_add] at helement
  simp only [Nat.zero_add] at helement
  have hcollect := collect_ok {} hchecks
  unfold batchElement collect
  rw [hcollect]
  simp only [hmax, nil_append, invertBatch_eq hne, hlt, not_true_eq_false, if_false, hst]
  rw [← helement, BatchState.element, multiexp_append, multiexp_append, multiexp_range_pairs,
    multiexp_cons, multiexp_cons, multiexp_nil, add_zero]

section Verify

variable [DecidableEq Pt]

/-- A proof alone is accepted when its element is the identity, whatever its weight. -/
theorem verify_alone (hchecks : p.structural cv = .ok ()) (hV : p.V.length ≤ maxM)
    {weight : Scalar} (hweight : weight ≠ 0) :
    verify cv [p] (fun _ => weight) = true ↔ p.element cv = 0 := by
  have helement : batchElement cv [p] (fun _ => weight) = _ :=
    batchElement_eq _ (by simpa using hchecks) (by simpa using hV)
  unfold verify
  rw [helement]
  simp [hweight]

/-- **A batch against its proofs alone.** Its element is the sum of their elements at weight 1, each
times its weight. So a batch of accepted proofs is accepted, and one with exactly one rejected proof
is rejected; a proof alone may be verified with any weight of its own. -/
theorem verify_batch (cv : Generators Pt) {ps : List (Proof Pt)} (weights own : ℕ → Scalar)
    (hchecks : ∀ p ∈ ps, p.structural cv = .ok ()) (hV : ∀ p ∈ ps, p.V.length ≤ maxM)
    (hweights : ∀ i, weights i ≠ 0) (hown : ∀ i, own i ≠ 0) :
    ∃ alone : Proof Pt → Pt,
      (∀ p ∈ ps, batchElement cv [p] (fun _ => 1) = .ok (alone p)) ∧
      batchElement cv ps weights = .ok (∑ i : Fin ps.length, weights i • alone ps[i]) ∧
      ((∀ i : Fin ps.length, verify cv [ps[i]] (fun _ => own i) = true) →
        verify cv ps weights = true) ∧
      ∀ i : Fin ps.length, verify cv [ps[i]] (fun _ => own i) = false →
        (∀ j : Fin ps.length, j ≠ i → verify cv [ps[j]] (fun _ => own j) = true) →
        verify cv ps weights = false := by
  have hbatch := batchElement_eq weights hchecks hV
  have hmem : ∀ i : Fin ps.length, ps[i] ∈ ps := fun i => getElem_mem i.2
  have halone : ∀ i : Fin ps.length,
      verify cv [ps[i]] (fun _ => own i) = true ↔ (ps[i]).element cv = 0 := fun i =>
    verify_alone (hchecks _ (hmem i)) (hV _ (hmem i)) (hown i)
  refine ⟨Proof.element cv, ?_, hbatch, ?_, ?_⟩
  · intro p hp
    have helement : batchElement cv [p] (fun _ => 1) = _ :=
      batchElement_eq _ (by simpa using hchecks p hp) (by simpa using hV p hp)
    rw [helement]
    simp
  · intro h
    have hsum : ∑ i : Fin ps.length, weights i • (ps[i]).element cv = 0 :=
      Finset.sum_eq_zero fun i _ => by rw [(halone i).1 (h i), smul_zero]
    unfold verify
    rw [hbatch, hsum]
    exact decide_eq_true rfl
  · intro i hi h
    have hne : (ps[i]).element cv ≠ 0 := fun hzero => by
      rw [(halone i).2 hzero] at hi
      exact Bool.noConfusion hi
    have hsum : ∑ i : Fin ps.length, weights i • (ps[i]).element cv =
        weights i • (ps[i]).element cv :=
      Finset.sum_eq_single i (fun j _ hj => by rw [(halone j).1 (h j hj), smul_zero])
        fun hi => absurd (Finset.mem_univ i) hi
    unfold verify
    rw [hbatch, hsum]
    exact decide_eq_false (smul_ne_zero (hweights i) hne)

end Verify

/-! ## A sample batch -/

/-- The scalars as the group, with constant hashes: every challenge is 1. -/
def sampleGenerators : Generators Scalar where
  G := 1
  H := 3
  pointBytes := scalarBytes
  fromFe _ := 1
  cnFastHash _ := leKey 1
  Gi i := i
  Hi i := i + 1

theorem sample_hashKeys (keys : List Key) : sampleGenerators.hashKeys keys = 1 := by
  have hone : leNat (leKey 1).1 = 1 := by decide
  change ((leNat (leKey 1).1 : ℕ) : Scalar) = 1
  rw [hone, Nat.cast_one]

theorem sample_roundChallenges : ∀ (transcript : Key) (LR : List (Scalar × Scalar)),
    ∀ c ∈ (roundChallenges sampleGenerators transcript LR).1, c = 1
  | _, [] => by simp [roundChallenges]
  | transcript, (L, R) :: rest => by
    intro c hc
    rcases mem_cons.1 hc with rfl | hc
    · exact sample_hashKeys _
    · exact sample_roundChallenges _ rest c hc

/-- A proof with a number of commitments and rounds. -/
def sampleProof (size rounds : ℕ) : Proof Scalar :=
  ⟨List.replicate size 5, 1, 3, 4, 4, 5, 6, List.replicate rounds 7, List.replicate rounds 9⟩

theorem sampleProof_structural {size rounds : ℕ} (hsize : 1 ≤ size)
    (hrounds : rounds = 6 + logMOf size) :
    (sampleProof size rounds).structural sampleGenerators = .ok () := by
  have hpd : ∀ {x : Scalar}, x = 1 → decide (x ≠ 0) = true := fun h => by
    rw [h]
    exact decide_eq_true one_ne_zero
  have hreduced : ∀ n < 7, scCheck n = true := fun n hn =>
    decide_eq_true (hn.trans (by norm_num [curveOrder]))
  have hlen : (sampleProof size rounds).V.length = size := length_replicate
  have hL : (sampleProof size rounds).L.length = rounds := length_replicate
  have hR : (sampleProof size rounds).R.length = rounds := length_replicate
  have hlogM : (proofData sampleGenerators (sampleProof size rounds) 0).logM = logMOf size :=
    congrArg logMOf hlen
  rw [Proof.structural, firstFailure_ok]
  simp only [structuralChecks, forall_mem_cons, hlen, hL, hR, hlogM]
  refine ⟨hreduced 4 (by omega), hreduced 5 (by omega), hreduced 6 (by omega),
    decide_eq_true hsize, rfl, decide_eq_true (by omega), hpd (sample_hashKeys _),
    hpd (sample_hashKeys _), decide_eq_true hrounds, ?_, hpd (sample_hashKeys _), by simp⟩
  rw [all_eq_true]
  intro c hc
  exact hpd (sample_roundChallenges _ _ c hc)

theorem verify_batch_sample :
    ∃ alone : Proof Scalar → Scalar,
      (∀ p ∈ [sampleProof 1 6, sampleProof 3 8],
        batchElement sampleGenerators [p] (fun _ => 1) = .ok (alone p)) ∧
      batchElement sampleGenerators [sampleProof 1 6, sampleProof 3 8] (fun _ => 2) =
        .ok (∑ i : Fin 2, (2 : Scalar) • alone [sampleProof 1 6, sampleProof 3 8][i]) := by
  have htwo : (2 : Scalar) ≠ 0 := by
    intro h
    have hdvd : curveOrder ∣ 2 := (ZMod.natCast_eq_zero_iff 2 curveOrder).1 (by exact_mod_cast h)
    exact absurd (Nat.le_of_dvd (by norm_num) hdvd) (by norm_num [curveOrder])
  have hchecks : ∀ p ∈ [sampleProof 1 6, sampleProof 3 8],
      p.structural sampleGenerators = .ok () := by
    simp only [forall_mem_cons]
    exact ⟨sampleProof_structural (by omega) (by decide),
      sampleProof_structural (by omega) (by decide), by simp⟩
  obtain ⟨alone, halone, hbatch, -⟩ := verify_batch sampleGenerators (fun _ => 2) (fun _ => 1)
    hchecks (by simp [sampleProof, maxM]) (fun _ => htwo) (fun _ => one_ne_zero)
  exact ⟨alone, halone, hbatch⟩

end Hashmonkey.Ringct.Bpp
