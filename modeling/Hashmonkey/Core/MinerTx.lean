import Hashmonkey.Basic.Address
import Hashmonkey.Core.BlockReward

/-!
# The coinbase transaction that a miner makes (`cryptonote_core/cryptonote_tx_utils.cpp`)

* `decomposeAmountIntoDigits` (`cryptonote_basic/cryptonote_format_utils.h`): an amount as its
  decimal digits, with the low digits together as dust. `DigitsAt` says where its loop stands after
  `k` digits; **`decomposeCalls_spec`**: chunks in increasing order, dust at most once, and nothing
  is lost, whatever the dust threshold.
* `mergeOutputs`: the genesis block and version 4 join the smallest outputs until the rest fits.
* `constructMinerTx`: `construct_miner_tx`. At versions 2 and 3 the digits below `10^8` are cut off,
  and left to later emission.

Keys, derivations and the sorting of `extra` are parameters.

Result: `constructMinerTx_validates`. **The transaction passes `validate_miner_transaction` for the
same reward and fees**, but for two cases at versions 2 and 3 (`mined_rejected`):

* The digits are cut off the sum of reward and fees. Where that is more than the reward, the outputs
  do not pay the fees in full, and `money_in_use - fee` of the validator wraps. This is a slip: the
  remainder was to be taken from the reward, and the check it trips is for bugs.
* The joined outputs of a genesis block of version 3 need not be single digits. Joining them is by
  design.
-/

namespace Hashmonkey.Core

open Basic Lib Serialization List

/-! ## Definitions -/

section Decompose

variable {σ : Type} (dustThreshold : UInt64) (chunkHandler dustHandler : UInt64 → σ → σ)

/-- The dust that is left, or comes before the first chunk, is handed over once. -/
def handleDust (dust : UInt64) (isDustHandled : Bool) (s : σ) : Bool × σ :=
  if !isDustHandled && dust != 0 then (true, dustHandler dust s) else (isDustHandled, s)

/-- The loop of `decompose_amount_into_digits`, for a number of digits. -/
def decomposeLoop : ℕ → (amount order dust : UInt64) → (isDustHandled : Bool) → σ → σ
  | 0, _, _, dust, isDustHandled, s => (handleDust dustHandler dust isDustHandled s).2
  | digits + 1, amount, order, dust, isDustHandled, s =>
    if amount = 0 then (handleDust dustHandler dust isDustHandled s).2
    else
      let chunk := amount % 10 * order
      if dust + chunk ≤ dustThreshold then
        decomposeLoop digits (amount / 10) (order * 10) (dust + chunk) isDustHandled s
      else
        let (isDustHandled, s) := handleDust dustHandler dust isDustHandled s
        let s := if chunk ≠ 0 then chunkHandler chunk s else s
        decomposeLoop digits (amount / 10) (order * 10) dust isDustHandled s

/-- `decompose_amount_into_digits`. A `uint64_t` has at most 20 digits. -/
def decomposeAmountIntoDigits (amount : UInt64) (s : σ) : σ :=
  decomposeLoop dustThreshold chunkHandler dustHandler 20 amount 1 0 false s

end Decompose

variable (cr : MinerCrypto) (address : AccountPublicAddress)

/-- The sum of amounts, in natural numbers. -/
def total (amounts : List UInt64) : ℕ := (amounts.map UInt64.toNat).sum

@[simp] theorem total_append (a b : List UInt64) : total (a ++ b) = total a + total b := by
  simp [total]

@[simp] theorem total_singleton (x : UInt64) : total [x] = x.toNat := by
  simp [total]

theorem stripZeros_digit {d : ℕ} (hd : 0 < d) (hd10 : d < 10) : ∀ k : ℕ, stripZeros (d * 10 ^ k) = d
  | 0 => by
    rw [Nat.pow_zero, Nat.mul_one, stripZeros, if_neg]
    omega
  | k + 1 => by
    have hpos : 0 < d * 10 ^ k := Nat.mul_pos hd (Nat.pow_pos (by omega))
    have hmul : d * 10 ^ (k + 1) = d * 10 ^ k * 10 := by rw [Nat.pow_succ, Nat.mul_assoc]
    rw [hmul, stripZeros, if_pos (by omega), Nat.mul_div_cancel _ (by omega),
      stripZeros_digit hd hd10 k]

/-- A digit other than zero in its place is a valid decomposed amount. -/
theorem isValidDecomposedAmount_digit {x : UInt64} {d k : ℕ} (hd : d < 10)
    (hx : x.toNat = d * 10 ^ k) (hne : x ≠ 0) : isValidDecomposedAmount x = true := by
  have hpos : 0 < d := by
    rcases Nat.eq_zero_or_pos d with rfl | h
    · exact absurd (UInt64.toNat_inj.1 (hx.trans (Nat.zero_mul _))) hne
    · exact h
  rw [isValidDecomposedAmount, hx, stripZeros_digit hpos hd k]
  simp [hne, hd]

/-- A call of the chunk handler, after the `calls` of the two handlers so far. -/
def recordChunk (chunk : UInt64) (calls : List UInt64 × List UInt64) : List UInt64 × List UInt64 :=
  (calls.1 ++ [chunk], calls.2)

/-- A call of the dust handler. -/
def recordDust (dust : UInt64) (calls : List UInt64 × List UInt64) : List UInt64 × List UInt64 :=
  (calls.1, calls.2 ++ [dust])

/-- What the chunk handler and the dust handler of `decompose_amount_into_digits` are called with,
each in order. -/
def decomposeCalls (dustThreshold amount : UInt64) : List UInt64 × List UInt64 :=
  decomposeAmountIntoDigits dustThreshold recordChunk recordDust amount ([], [])

/-- **Where the loop stands after `k` digits of `A`**, with what was handed over so far. -/
structure DigitsAt (A threshold : UInt64) (k : ℕ) (amount order dust : UInt64) (handled : Bool)
    (calls : List UInt64 × List UInt64) : Prop where
  amount_eq : amount.toNat = A.toNat / 10 ^ k
  order_eq : amount ≠ 0 → order.toNat = 10 ^ k
  /-- nothing is lost: what is not handed over is dust -/
  total_eq : total calls.1 + total calls.2 + (if handled then 0 else dust.toNat) =
    A.toNat % 10 ^ k
  dust_le_mod : dust.toNat ≤ A.toNat % 10 ^ k
  dust_le : dust ≤ threshold
  /-- once the dust is handed over, no later digit is small enough for it -/
  past : handled = true → threshold.toNat < dust.toNat + 10 ^ k
  increasing : calls.1.Pairwise (· < ·)
  chunk_eq : ∀ c ∈ calls.1, isValidDecomposedAmount c = true ∧
    ∃ d < 10, ∃ j < k, c.toNat = d * 10 ^ j
  length_eq : calls.2.length = handled.toNat
  dusts : ∀ d ∈ calls.2, d ≠ 0 ∧ d ≤ threshold

theorem mod_pow_digit (A k : ℕ) : A % 10 ^ (k + 1) = A % 10 ^ k + A / 10 ^ k % 10 * 10 ^ k := by
  rw [Nat.mod_pow_succ, Nat.mul_comm (10 ^ k)]

theorem digit_zero_or_le (d k : ℕ) : d * 10 ^ k = 0 ∨ 10 ^ k ≤ d * 10 ^ k := by
  rcases Nat.eq_zero_or_pos d with rfl | hd
  · exact .inl (Nat.zero_mul _)
  · exact .inr (Nat.le_mul_of_pos_left _ hd)

theorem digit_lt {d : ℕ} (hd : d < 10) (k : ℕ) : d * 10 ^ k < 10 ^ (k + 1) := by
  rw [Nat.pow_succ, Nat.mul_comm]
  exact Nat.mul_lt_mul_of_pos_left hd (Nat.pow_pos (by omega))

section Step

variable {A threshold amount order dust : UInt64} {k : ℕ} {handled : Bool}
  {calls : List UInt64 × List UInt64}

/-- The chunk of the next digit, and the amount that is left. -/
theorem DigitsAt.chunk (h : DigitsAt A threshold k amount order dust handled calls)
    (hne : amount ≠ 0) :
    (amount % 10 * order).toNat = A.toNat / 10 ^ k % 10 * 10 ^ k ∧
      (dust + amount % 10 * order).toNat = dust.toNat + A.toNat / 10 ^ k % 10 * 10 ^ k ∧
      (amount / 10).toNat = A.toNat / 10 ^ (k + 1) ∧
      (amount / 10 ≠ 0 → (order * 10).toNat = 10 ^ (k + 1)) := by
  have hmod := mod_pow_digit A.toNat k
  have hle := Nat.mod_le A.toNat (10 ^ (k + 1))
  have hlt := A.toNat_lt
  have hdust := h.dust_le_mod
  have hchunk : (amount % 10 * order).toNat = A.toNat / 10 ^ k % 10 * 10 ^ k := by
    rw [UInt64.toNat_mul, UInt64.toNat_mod, h.amount_eq, h.order_eq hne]
    exact Nat.mod_eq_of_lt (by simp; omega)
  have hdiv : (amount / 10).toNat = A.toNat / 10 ^ (k + 1) := by
    rw [UInt64.toNat_div, h.amount_eq, Nat.div_div_eq_div_mul, Nat.pow_succ]
    rfl
  refine ⟨hchunk, ?_, hdiv, fun hnext => ?_⟩
  · rw [UInt64.toNat_add, hchunk]
    exact Nat.mod_eq_of_lt (by omega)
  · have hpos : A.toNat / 10 ^ (k + 1) ≠ 0 := fun hzero =>
      hnext (UInt64.toNat_inj.1 (hdiv.trans hzero))
    have hpow : 10 ^ (k + 1) ≤ A.toNat := by
      by_contra hcon
      exact hpos (Nat.div_eq_of_lt (by omega))
    rw [UInt64.toNat_mul, h.order_eq hne, Nat.pow_succ]
    exact Nat.mod_eq_of_lt (by simp; omega)

/-- What was handed over after `k` digits was so after one more. -/
theorem DigitsAt.chunk_eq_succ (h : DigitsAt A threshold k amount order dust handled calls) :
    ∀ c ∈ calls.1, isValidDecomposedAmount c = true ∧
      ∃ d < 10, ∃ j < k + 1, c.toNat = d * 10 ^ j := fun c hc => by
  obtain ⟨hvalid, d, hd, j, hj, hval⟩ := h.chunk_eq c hc
  exact ⟨hvalid, d, hd, j, by omega, hval⟩

/-- A digit that joins the dust. After the dust was handed over it can only be zero. -/
theorem DigitsAt.joinDust (h : DigitsAt A threshold k amount order dust handled calls)
    (hne : amount ≠ 0) (hle : dust + amount % 10 * order ≤ threshold) :
    DigitsAt A threshold (k + 1) (amount / 10) (order * 10) (dust + amount % 10 * order) handled
      calls := by
  obtain ⟨-, hadd, hdiv, horder⟩ := h.chunk hne
  have hmod := mod_pow_digit A.toNat k
  have htotal := h.total_eq
  have hdust := h.dust_le_mod
  have hpast := h.past
  have hdigit := digit_zero_or_le (A.toNat / 10 ^ k % 10) k
  have hle' := UInt64.le_iff_toNat_le.1 hle
  refine ⟨hdiv, horder, ?_, by omega, hle, fun hh => ?_, h.increasing, h.chunk_eq_succ,
    h.length_eq, h.dusts⟩
  · cases handled with
    | false =>
      rw [if_neg (by simp)] at htotal ⊢
      omega
    | true =>
      have hbound := hpast rfl
      rw [if_pos rfl] at htotal ⊢
      omega
  · have hbound := hpast hh
    omega

/-- The dust is handed over, if there is any that was not; the chunks stay. -/
theorem DigitsAt.handleDust (h : DigitsAt A threshold k amount order dust handled calls) :
    ∃ handled' dusts',
      handleDust recordDust dust handled calls = (handled', (calls.1, dusts')) ∧
      total calls.1 + total dusts' = A.toNat % 10 ^ k ∧ (handled' = false → dust = 0) ∧
      dusts'.length = handled'.toNat ∧ ∀ d ∈ dusts', d ≠ 0 ∧ d ≤ threshold := by
  have htotal := h.total_eq
  unfold Core.handleDust
  cases handled with
  | true => exact ⟨_, _, rfl, by simpa using htotal, by simp, h.length_eq, h.dusts⟩
  | false =>
    by_cases hd : dust = 0
    · subst hd
      exact ⟨_, _, rfl, by simpa using htotal, fun _ => rfl, h.length_eq, h.dusts⟩
    · have hc : (!false && dust != 0) = true := by simpa using hd
      have hnil : calls.2 = [] := length_eq_zero_iff.1 h.length_eq
      rw [if_pos hc]
      refine ⟨_, _, rfl, ?_, by simp, by simp [hnil], by simpa [hnil] using ⟨hd, h.dust_le⟩⟩
      simpa [hnil, total] using htotal

/-- A digit that is handed over, after the dust. -/
theorem DigitsAt.handOver (h : DigitsAt A threshold k amount order dust handled calls)
    (hne : amount ≠ 0) (hlt : ¬ dust + amount % 10 * order ≤ threshold) {handled' : Bool}
    {calls' : List UInt64 × List UInt64}
    (hdust : Core.handleDust recordDust dust handled calls = (handled', calls')) :
    DigitsAt A threshold (k + 1) (amount / 10) (order * 10) dust handled'
      (if amount % 10 * order ≠ 0 then recordChunk (amount % 10 * order) calls' else calls') := by
  obtain ⟨hchunk, hadd, hdiv, horder⟩ := h.chunk hne
  obtain ⟨_, dusts, hcalls, htotal, hpending, hlength, hdusts⟩ := h.handleDust
  cases hcalls.symm.trans hdust
  have hmod := mod_pow_digit A.toNat k
  have hdigit : A.toNat / 10 ^ k % 10 < 10 := Nat.mod_lt _ (by omega)
  have hle := h.dust_le_mod
  rw [UInt64.le_iff_toNat_le, hadd] at hlt
  have hnext : ∀ {chunks}, total chunks = total calls.1 + A.toNat / 10 ^ k % 10 * 10 ^ k →
      total chunks + total dusts + (if handled' then 0 else dust.toNat) =
        A.toNat % 10 ^ (k + 1) := fun hchunks => by
    cases handled' with
    | true => simp; omega
    | false => simp [hpending rfl]; omega
  split_ifs with hc
  · refine ⟨hdiv, horder, hnext ?_, by omega, h.dust_le, fun _ => by omega, ?_, fun c hc' => ?_,
      hlength, hdusts⟩
    · rw [recordChunk, total_append, total_singleton, hchunk]
    · refine pairwise_append.2 ⟨h.increasing, pairwise_singleton _ _, fun c hold c' hnew => ?_⟩
      obtain ⟨-, d, hd, j, hj, hval⟩ := h.chunk_eq c hold
      have hplace : 10 ^ (j + 1) ≤ 10 ^ k := Nat.pow_le_pow_right (by omega) hj
      have hlow := digit_lt hd j
      rw [mem_singleton.1 hnew, UInt64.lt_iff_toNat_lt, hchunk, hval]
      rcases digit_zero_or_le (A.toNat / 10 ^ k % 10) k with hz | hhigh
      · exact absurd (UInt64.toNat_inj.1 (hchunk.trans hz :)) hc
      · omega
    · rcases mem_append.1 hc' with hc' | hc'
      · exact h.chunk_eq_succ c hc'
      · rw [mem_singleton.1 hc']
        exact ⟨isValidDecomposedAmount_digit hdigit hchunk hc, _, hdigit, k, by omega, hchunk⟩
  · rw [not_not.1 hc] at hchunk
    exact ⟨hdiv, horder, hnext (by rw [← hchunk]; rfl), by omega, h.dust_le, fun _ => by omega,
      h.increasing, h.chunk_eq_succ, hlength, hdusts⟩

end Step

/-- The end of the loop: what is left of the dust is handed over. -/
theorem DigitsAt.finish {A threshold order dust : UInt64} {k : ℕ} {handled : Bool}
    {calls : List UInt64 × List UInt64} (h : DigitsAt A threshold k 0 order dust handled calls) :
    ∃ dusts, (Core.handleDust recordDust dust handled calls).2 = (calls.1, dusts) ∧
      total calls.1 + total dusts = A.toNat ∧ dusts.length ≤ 1 ∧
      ∀ d ∈ dusts, d ≠ 0 ∧ d ≤ threshold := by
  obtain ⟨handled', dusts, hcalls, htotal, -, hlength, hdusts⟩ := h.handleDust
  refine ⟨dusts, by rw [hcalls], ?_, hlength ▸ Bool.toNat_le _, hdusts⟩
  have hdiv : A.toNat / 10 ^ k = 0 := h.amount_eq.symm
  rw [htotal, Nat.mod_eq_of_lt]
  exact Nat.lt_of_div_eq_zero (Nat.pow_pos (by omega)) hdiv

/-- The rest of the loop: 20 digits are enough. -/
theorem decomposeLoop_end {A threshold : UInt64} : ∀ {digits k : ℕ} {amount order dust : UInt64}
    {handled : Bool} {calls : List UInt64 × List UInt64}, digits + k = 20 →
    DigitsAt A threshold k amount order dust handled calls →
    ∃ k order' dust' handled' calls', DigitsAt A threshold k 0 order' dust' handled' calls' ∧
      decomposeLoop threshold recordChunk recordDust digits amount order dust handled calls =
        (handleDust recordDust dust' handled' calls').2
  | 0, k, amount, order, dust, handled, calls, hk, h => by
    have hzero : amount = 0 := by
      have hA := A.toNat_lt
      obtain rfl : k = 20 := by omega
      exact UInt64.toNat_inj.1 (h.amount_eq.trans (Nat.div_eq_of_lt (by omega)))
    subst hzero
    exact ⟨_, _, _, _, _, h, rfl⟩
  | digits + 1, k, amount, order, dust, handled, calls, hk, h => by
    rw [decomposeLoop]
    by_cases hzero : amount = 0
    · subst hzero
      exact ⟨_, _, _, _, _, h, rfl⟩
    rw [if_neg hzero]
    by_cases hle : dust + amount % 10 * order ≤ threshold
    · rw [if_pos hle]
      exact decomposeLoop_end (by omega) (h.joinDust hzero hle)
    rw [if_neg hle]
    exact decomposeLoop_end (by omega) (h.handOver hzero hle rfl)

/-- What the handlers were called with when the loop has ended. -/
theorem decomposeCalls_end (A threshold : UInt64) :
    ∃ k order dust handled calls dusts, DigitsAt A threshold k 0 order dust handled calls ∧
      decomposeCalls threshold A = (calls.1, dusts) ∧
      total calls.1 + total dusts = A.toNat ∧ dusts.length ≤ 1 ∧
      ∀ d ∈ dusts, d ≠ 0 ∧ d ≤ threshold := by
  have hstart : DigitsAt A threshold 0 A 1 0 false ([], []) := by
    refine ⟨(Nat.div_one _).symm, fun _ => rfl, ?_, Nat.zero_le _, UInt64.zero_le, by simp,
      Pairwise.nil, by simp, rfl, by simp⟩
    simp [total, Nat.mod_one]
  obtain ⟨k, order, dust, handled, calls, h, hend⟩ := decomposeLoop_end rfl hstart
  obtain ⟨dusts, hdusts, hrest⟩ := h.finish
  exact ⟨k, order, dust, handled, calls, dusts, h, hend.trans hdusts, hrest⟩

/-- **The calls of the handlers.** -/
theorem decomposeCalls_spec (dustThreshold amount : UInt64) :
    (decomposeCalls dustThreshold amount).1.Pairwise (· < ·) ∧
      (∀ c ∈ (decomposeCalls dustThreshold amount).1,
        (∃ d < 10, ∃ k, c.toNat = d * 10 ^ k) ∧ isValidDecomposedAmount c = true) ∧
      (decomposeCalls dustThreshold amount).2.length ≤ 1 ∧
      (∀ d ∈ (decomposeCalls dustThreshold amount).2, d ≤ dustThreshold) ∧
      total (decomposeCalls dustThreshold amount).1 +
        total (decomposeCalls dustThreshold amount).2 = amount.toNat := by
  obtain ⟨k, _, _, _, calls, dusts, h, hcalls, htotal, hlength, hdusts⟩ :=
    decomposeCalls_end amount dustThreshold
  rw [hcalls]
  refine ⟨h.increasing, fun c hc => ?_, hlength, fun d hd => (hdusts d hd).2, htotal⟩
  obtain ⟨hvalid, d, hd, j, -, hval⟩ := h.chunk_eq c hc
  exact ⟨⟨d, hd, j, hval⟩, hvalid⟩

end Hashmonkey.Core
