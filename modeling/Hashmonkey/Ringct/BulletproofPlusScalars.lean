import Hashmonkey.Lib.LinComb
import Hashmonkey.Ringct.BulletproofPlus
import Mathlib.Data.List.GetD

/-!
# What the scalar functions of the range proofs compute (`ringct/bulletproofs_plus.cc`)

The loops over scalars in `Ringct/BulletproofPlus`, each against what it is for:

* `invert_eq`, `invertBatch_eq`: the addition chain is the power `l - 2`, so both invert. The batch
  needs that no scalar is zero;
* `challengesCache_eq`: the table that is built in place is that of the products of challenges,
  whatever was in it before;
* `logMOf_le`: the number of slots for up to 16 commitments.
-/

namespace Hashmonkey.Ringct.Bpp

open Lib List Finset

/-! ## Constants -/

@[simp] theorem minusOne_eq : minusOne = -1 := by
  have h : minusOne + 1 = 0 := by
    change (0x1000000000000000000000000000000014def9dea2f79cd65812631a5cf5d3ec :
      ZMod curveOrder) + 1 = 0
    unfold curveOrder
    reduce_mod_char
  exact eq_neg_of_add_eq_zero_left h

theorem iterate_square (x : Scalar) : ∀ n : ℕ, (fun y : Scalar => y * y)^[n] x = x ^ 2 ^ n
  | 0 => by simp
  | n + 1 => by
    rw [Function.iterate_succ_apply', iterate_square x n, ← pow_add, ← Nat.mul_two, pow_succ]

/-! ## Inversion -/

theorem sm_pow (x : Scalar) (a n b : ℕ) : sm (x ^ a) n (x ^ b) = x ^ (a * 2 ^ n + b) := by
  rw [sm, iterate_square, ← pow_mul, ← pow_add]

/-- The exponent that the addition chain builds. -/
theorem inversionChain_eq (x : Scalar) : inversionChain x = x ^ (curveOrder - 2) := by
  have h1 : x = x ^ 1 := (pow_one x).symm
  unfold inversionChain
  generalize h : curveOrder - 2 = k
  rw [h1]
  simp only [← pow_add, sm_pow]
  rw [← h]
  norm_num [curveOrder]

theorem inversionChain_inv {x : Scalar} (hx : x ≠ 0) : inversionChain x = x⁻¹ := by
  have hfermat : x ^ (curveOrder - 1) = 1 := ZMod.pow_card_sub_one_eq_one hx
  have hl : curveOrder - 1 = curveOrder - 2 + 1 := by norm_num [curveOrder]
  rw [inversionChain_eq]
  rw [hl, pow_succ] at hfermat
  exact eq_inv_of_mul_eq_one_left hfermat

theorem invert_eq {x : Scalar} (hx : x ≠ 0) : invert x = .ok x⁻¹ := by
  rw [invert, if_neg hx, inversionChain_inv hx]

/-- **The batch inversion inverts every scalar.** -/
theorem invertBatch_eq {xs : List Scalar} (hxs : ∀ x ∈ xs, x ≠ 0) :
    invertBatch xs = .ok (xs.map fun x => x⁻¹) := by
  have hany : ¬ xs.any (· = 0) = true := by
    rw [any_eq_true]
    rintro ⟨x, hx, hzero⟩
    exact hxs x hx (of_decide_eq_true hzero)
  have hprod := storedProducts_ne_zero one_ne_zero hxs
  have hback := inversesBack_storedProducts one_ne_zero hxs
  unfold invertBatch
  rw [if_neg hany]
  simp only [invert_eq hprod, bind, Except.bind, hback]

/-- **What the two inversions return**: the one of a batch the inverses in the same order, the one
of a scalar its power `l - 2`. -/
theorem invert_spec (xs : List Scalar) (hxs : ∀ x ∈ xs, x ≠ 0) :
    (∃ ys, invertBatch xs = .ok ys ∧ Forall₂ (fun x y => x * y = 1) xs ys) ∧
      ∀ x : Scalar, x ≠ 0 → invert x = .ok (x ^ (curveOrder - 2)) := by
  refine ⟨⟨_, invertBatch_eq hxs, ?_⟩, fun x hx => ?_⟩
  · rw [forall₂_map_right_iff, forall₂_same]
    exact fun x hx => mul_inv_cancel₀ (hxs x hx)
  · rw [invert, if_neg hx, inversionChain_eq]

theorem invert_spec_signs : (∃ ys, invertBatch [1, -1] = .ok ys ∧
    Forall₂ (fun x y => x * y = 1) [1, -1] ys) :=
  (invert_spec [1, -1] (by simp)).1

/-! ## The table of challenge products -/

theorem getD_set (cache : List Scalar) (s i : ℕ) (x : Scalar) (hs : s < cache.length) :
    (cache.set s x).getD i 0 = if i = s then x else cache.getD i 0 := by
  simp only [getD_eq_getElem?_getD]
  by_cases h : i = s
  · rw [if_pos h, h, getElem?_set_self hs, Option.getD_some]
  · rw [if_neg h, getElem?_set_ne (Ne.symm h)]

@[simp] theorem length_cacheSlots (c c_inv : Scalar) : ∀ (k : ℕ) (cache : List Scalar),
    (cacheSlots c c_inv k cache).length = cache.length
  | 0, _ => rfl
  | k + 1, cache => by
    rw [cacheSlots, length_cacheSlots c c_inv k, length_set, length_set]

/-- What the inner loop writes. A slot is read before anything is written to it, because the loop
runs downwards. -/
theorem getD_cacheSlots (c c_inv : Scalar) : ∀ (k : ℕ) (cache : List Scalar), 2 * k ≤ cache.length →
    ∀ i, (cacheSlots c c_inv k cache).getD i 0 =
      if i < 2 * k then cache.getD (i / 2) 0 * (if i % 2 = 0 then c_inv else c)
      else cache.getD i 0
  | 0, _, _, i => by simp [cacheSlots]
  | k + 1, cache, hk, i => by
    have hs : (2 * k + 1) / 2 = k := by omega
    rw [cacheSlots, getD_cacheSlots c c_inv k _ (by simp only [length_set]; omega), hs,
      Nat.add_sub_cancel]
    have hget : ∀ m, ((cache.set (2 * k + 1) (cache.getD k 0 * c)).set (2 * k)
        ((cache.set (2 * k + 1) (cache.getD k 0 * c)).getD k 0 * c_inv)).getD m 0 =
        if m = 2 * k then cache.getD k 0 * c_inv
        else if m = 2 * k + 1 then cache.getD k 0 * c else cache.getD m 0 := by
      intro m
      rw [getD_set _ _ _ _ (by rw [length_set]; omega), getD_set _ _ _ _ (by omega),
        getD_set _ _ _ _ (by omega), if_neg (show ¬ k = 2 * k + 1 by omega)]
    rw [hget, hget]
    by_cases hi : i < 2 * k
    · rw [if_pos hi, if_neg (show ¬ i / 2 = 2 * k by omega),
        if_neg (show ¬ i / 2 = 2 * k + 1 by omega), if_pos (show i < 2 * (k + 1) by omega)]
    · rw [if_neg hi]
      by_cases heven : i = 2 * k
      · rw [if_pos heven, if_pos (show i < 2 * (k + 1) by omega), heven,
          Nat.mul_div_cancel_left _ (by omega), Nat.mul_mod_right, if_pos rfl]
      by_cases hodd : i = 2 * k + 1
      · rw [if_neg heven, if_pos hodd, if_pos (show i < 2 * (k + 1) by omega), hodd, hs,
          if_neg (show ¬ (2 * k + 1) % 2 = 0 by omega)]
      · rw [if_neg heven, if_neg hodd, if_neg (show ¬ i < 2 * (k + 1) by omega)]

theorem getD_flatMap_pair (c c_inv : Scalar) : ∀ (l : List Scalar) (i : ℕ),
    (l.flatMap fun x => [x * c_inv, x * c]).getD i 0 =
      l.getD (i / 2) 0 * (if i % 2 = 0 then c_inv else c)
  | [], i => by simp
  | x :: l, 0 => by simp
  | x :: l, 1 => by simp
  | x :: l, i + 2 => by
    have hdiv : (i + 2) / 2 = i / 2 + 1 := by omega
    have hmod : (i + 2) % 2 = i % 2 := by omega
    rw [flatMap_cons, hdiv, hmod, getD_cons_succ, ← getD_flatMap_pair c c_inv l i]
    rfl

/-- The outer loop: when the first slots hold the products of the pairs before, then at the end all
slots hold the products of all pairs. -/
theorem getD_cacheRounds : ∀ (rest before : List (Scalar × Scalar)) (cache : List Scalar),
    cache.length = 2 ^ (before.length + rest.length) →
    (∀ i < 2 ^ before.length, cache.getD i 0 = (challengeProducts before).getD i 0) →
    (cacheRounds before.length rest cache).length = 2 ^ (before.length + rest.length) ∧
      ∀ i < 2 ^ (before.length + rest.length),
        (cacheRounds before.length rest cache).getD i 0 =
          (challengeProducts (before ++ rest)).getD i 0
  | [], before, cache, hlen, hbefore => by
    rw [append_nil]
    exact ⟨hlen, hbefore⟩
  | (c_inv, c) :: rest, before, cache, hlen, hbefore => by
    have hslots : 1 <<< before.length = 2 ^ before.length := Nat.one_shiftLeft _
    have hle : 2 * 2 ^ before.length ≤ cache.length := by
      rw [hlen, ← pow_succ']
      exact Nat.pow_le_pow_right (by omega) (by rw [length_cons]; omega)
    have hadd : before.length + ((c_inv, c) :: rest).length =
        (before ++ [(c_inv, c)]).length + rest.length := by
      simp only [length_append, length_cons, length_nil]
      omega
    have hsucc : before.length + 1 = (before ++ [(c_inv, c)]).length := by
      rw [length_append, length_singleton]
    have happend : before ++ (c_inv, c) :: rest = (before ++ [(c_inv, c)]) ++ rest := by simp
    rw [cacheRounds, hslots, hadd, hsucc, happend]
    refine getD_cacheRounds rest (before ++ [(c_inv, c)]) _ ?_ ?_
    · rw [length_cacheSlots, hlen, hadd]
    · intro i hi
      rw [← hsucc, pow_succ'] at hi
      rw [getD_cacheSlots c c_inv _ _ hle, if_pos hi, challengeProducts_concat, getD_flatMap_pair,
        hbefore _ (by omega)]

theorem length_resize (v : List Scalar) (n : ℕ) : (resize v n).length = n := by
  rw [resize, length_append, length_take, length_replicate]
  omega

theorem ext_getD {l m : List Scalar} (hlen : l.length = m.length)
    (h : ∀ i < m.length, l.getD i 0 = m.getD i 0) : l = m := by
  refine ext_getElem hlen fun i hl hm => ?_
  have hi := h i hm
  rwa [getD_eq_getElem _ _ hl, getD_eq_getElem _ _ hm] at hi

/-- **The table holds the products of the challenges**, whatever was in it before. -/
theorem challengesCache_eq (cache : List Scalar) {pairs : List (Scalar × Scalar)}
    (hpairs : pairs ≠ []) : challengesCache cache pairs = challengeProducts pairs := by
  obtain ⟨⟨c_inv, c⟩, rest, rfl⟩ := exists_cons_of_ne_nil hpairs
  have hshift : 1 <<< ((c_inv, c) :: rest).length = 2 ^ ([(c_inv, c)].length + rest.length) := by
    rw [Nat.one_shiftLeft, length_cons, length_singleton, Nat.add_comm]
  have hlen := length_resize cache (2 ^ ([(c_inv, c)].length + rest.length))
  have htwo : 2 ≤ 2 ^ ([(c_inv, c)].length + rest.length) := by
    have hpow : 1 ≤ 2 ^ rest.length := Nat.one_le_two_pow
    rw [length_singleton, Nat.pow_add, Nat.pow_one]
    omega
  have hstart : ∀ i < 2 ^ [(c_inv, c)].length,
      (((resize cache (2 ^ ([(c_inv, c)].length + rest.length))).set 0 c_inv).set 1 c).getD i 0 =
        (challengeProducts [(c_inv, c)]).getD i 0 := by
    intro i hi
    rw [getD_set _ _ _ _ (by rw [length_set]; omega), getD_set _ _ _ _ (by omega)]
    have hcases : i = 0 ∨ i = 1 := by
      rw [length_singleton] at hi
      omega
    rcases hcases with rfl | rfl <;> simp [challengeProducts]
  obtain ⟨hl, hget⟩ := getD_cacheRounds rest [(c_inv, c)] _
    (by rw [length_set, length_set, hlen]) hstart
  have hprod : (challengeProducts ((c_inv, c) :: rest)).length =
      2 ^ ([(c_inv, c)].length + rest.length) := by
    rw [length_challengeProducts, length_cons, length_singleton, Nat.add_comm]
  unfold challengesCache
  rw [hshift]
  exact ext_getD (hl.trans hprod.symm) fun i hi => hget i (hprod ▸ hi)

/-! ## The number of slots -/

/-- With up to 16 commitments there is a slot for each, and at most 16 slots. -/
theorem logMOf_le : ∀ size ≤ maxM, size ≤ 2 ^ logMOf size ∧ logMOf size ≤ 4 := by decide

end Hashmonkey.Ringct.Bpp
