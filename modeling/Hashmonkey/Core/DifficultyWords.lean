import Hashmonkey.Core.Difficulty
import Hashmonkey.Epee.IntUtil
import Mathlib.Algebra.Order.Floor.Div

/-!
# The difficulty functions by words (`cryptonote_basic/difficulty.cpp`)

`check_hash` multiplies a hash with a difficulty word by word when the difficulty has 64 bits, and
with 512 bits otherwise; `next_difficulty_64` is `next_difficulty` in words. Products of words come
from `mul`, which is `mul128` on one platform and a function of its own on the others.

Results:
* **`check_hash_iff`**: both ways, a hash is accepted exactly when its product with the difficulty
  is below `2 ^ 256`;
* **`next_difficulty_exact`**: the next difficulty is the work of the window that is kept, times the
  target, over the time it took, rounded up. A single block gives no window
  (`next_difficulty_single`).
-/

namespace Hashmonkey.Core.Difficulty

open Epee List

/-! ## Products -/

/-- What `mul` is compiled for. -/
inductive Platform
  | x86
  | other
  deriving DecidableEq

/-- The portable `mul`: the low and the high word of the product. -/
def mulPortable (a b : UInt64) : UInt64 × UInt64 :=
  let aLow := a &&& 0xffffffff
  let aHigh := a >>> 32
  let bLow := b &&& 0xffffffff
  let bHigh := b >>> 32
  let res := aLow * bLow
  let lowRes1 := res &&& 0xffffffff
  let carry := res >>> 32
  let res := aHigh * bLow + carry
  let highResHigh1 := res >>> 32
  let highResLow1 := res &&& 0xffffffff
  let res := aLow * bHigh
  let lowRes2 := res &&& 0xffffffff
  let carry := res >>> 32
  let res := aHigh * bHigh + carry
  let highResHigh2 := res >>> 32
  let highResLow2 := res &&& 0xffffffff
  let r := highResLow1 + lowRes2
  let carry := r >>> 32
  let low := (r <<< 32) ||| lowRes1
  let r := highResHigh1 + highResLow2 + carry
  let d3 := r &&& 0xffffffff
  let carry := r >>> 32
  let r := highResHigh2 + carry
  (low, d3 ||| (r <<< 32))

/-- `mul`. -/
def mul : Platform → UInt64 → UInt64 → UInt64 × UInt64
  | .x86 => mul128
  | .other => mulPortable

/-- A half in the upper place beside one in the lower place. -/
theorem toNat_join (hi lo : UInt64) (hlo : lo.toNat < 2 ^ 32) :
    ((hi <<< 32) ||| lo).toNat = hi.toNat % 2 ^ 32 * 2 ^ 32 + lo.toNat := by
  have hshift : (hi <<< 32).toNat = (hi.toNat % 2 ^ 32) <<< 32 := by
    change hi.toNat <<< 32 % 2 ^ 64 = _
    omega
  rw [UInt64.toNat_or, hshift, ← Nat.shiftLeft_add_eq_or_of_lt hlo, Nat.shiftLeft_eq]

/-- **The portable product is exact.** -/
theorem mulPortable_value (x y : UInt64) : wordsValue (mulPortable x y) = x.toNat * y.toNat := by
  obtain ⟨ac, ad, bc, bd, ⟨hac, had, hbc, hbd⟩, hle, hmul⟩ := mul_halves x y
  simp only [forall_mem_cons] at hle
  have hlo : ∀ v : UInt64, v &&& 0xffffffff = loDword v := fun _ => rfl
  have hhi : ∀ v : UInt64, v >>> 32 = hiDword v := fun _ => rfl
  simp only [mulPortable, wordsValue, hlo, hhi]
  rw [toNat_join _ _ (by rw [toNat_loDword]; omega), UInt64.or_comm,
    toNat_join _ _ (by rw [toNat_loDword]; omega)]
  simp only [UInt64.toNat_add, UInt64.toNat_mul, toNat_hiDword, toNat_loDword, hac, had, hbc, hbd]
  omega

theorem mul_value (p : Platform) (x y : UInt64) : wordsValue (mul p x y) = x.toNat * y.toNat := by
  cases p with
  | x86 => exact mul128_value x y
  | other => exact mulPortable_value x y

/-! ## `check_hash` -/

/-- `swap64le(((const uint64_t *) &hash)[i])`. -/
def hashWord (hash : Hash) (i : ℕ) : UInt64 := UInt64.ofNat (leNat ((hash.1.drop (8 * i)).take 8))

/-- `cadd`. -/
def cadd (a b : UInt64) : Bool := a + b < a

/-- `cadc`. -/
def cadc (a b : UInt64) (c : Bool) : Bool := a + b < a || (c && a + b = 0xffffffffffffffff)

/-- `check_hash_64`. -/
def checkHash64 (p : Platform) (hash : Hash) (difficulty : UInt64) : Bool :=
  let (top, high) := mul p (hashWord hash 3) difficulty
  if high ≠ 0 then false
  else
    let (_, cur) := mul p (hashWord hash 0) difficulty
    let (low, high) := mul p (hashWord hash 1) difficulty
    let carry := cadd cur low
    let cur := high
    let (low, high) := mul p (hashWord hash 2) difficulty
    let carry := cadc cur low carry
    let carry := cadc high top carry
    !carry

/-- `check_hash_128`. -/
def checkHash128 (hash : Hash) (difficulty : ℕ) : Bool :=
  let hashVal := (List.range 4).foldl (fun v i => (v <<< 64) ||| (hashWord hash (3 - i)).toNat) 0
  hashVal * difficulty ≤ 2 ^ 256 - 1

/-- `check_hash`. -/
def checkHash (p : Platform) (hash : Hash) (difficulty : ℕ) : Bool :=
  if difficulty ≤ 2 ^ 64 - 1 then checkHash64 p hash (UInt64.ofNat difficulty)
  else checkHash128 hash difficulty

theorem leNat_lt (l : Bytes) : leNat l < 256 ^ l.length := by
  induction l with
  | nil => simp [leNat]
  | cons b l ih =>
    have hb := b.toNat_lt
    simp only [leNat, length_cons, pow_succ]
    omega

theorem leNat_split (l : Bytes) {k : ℕ} (hk : k ≤ l.length) :
    leNat l = leNat (l.take k) + 256 ^ k * leNat (l.drop k) := by
  induction k generalizing l with
  | zero => simp [leNat]
  | succ k ih =>
    have hne : l ≠ [] := ne_nil_of_length_pos (by omega)
    obtain ⟨b, l, rfl⟩ := exists_cons_of_ne_nil hne
    rw [take_succ_cons, drop_succ_cons, leNat, leNat, ih l (by simpa using hk), pow_succ]
    ring

theorem toNat_hashWord (hash : Hash) (i : ℕ) :
    (hashWord hash i).toNat = leNat ((hash.1.drop (8 * i)).take 8) := by
  have hlt := leNat_lt ((hash.1.drop (8 * i)).take 8)
  have hle : 256 ^ ((hash.1.drop (8 * i)).take 8).length ≤ 256 ^ 8 :=
    Nat.pow_le_pow_right (by omega) (length_take_le _ _)
  rw [hashWord, UInt64.toNat_ofNat', Nat.mod_eq_of_lt]
  omega

/-- A hash is the number of its four words. -/
theorem leNat_hash (hash : Hash) :
    leNat hash.1 = (hashWord hash 0).toNat + 2 ^ 64 * ((hashWord hash 1).toNat +
      2 ^ 64 * ((hashWord hash 2).toNat + 2 ^ 64 * (hashWord hash 3).toNat)) := by
  obtain ⟨l, hl⟩ := hash
  have hlast : (l.drop 24).take 8 = l.drop 24 := take_of_length_le (by simp [hl])
  simp only [toNat_hashWord, Nat.reduceMul, hlast]
  rw [leNat_split l (by omega : 8 ≤ _), leNat_split (l.drop 8) (by simp [hl] : 8 ≤ _),
    drop_drop, leNat_split (l.drop 16) (by simp [hl] : 8 ≤ _), drop_drop]
  rfl

theorem cadd_iff (a b : UInt64) : cadd a b = true ↔ 2 ^ 64 ≤ a.toNat + b.toNat := by
  have hb := b.toNat_lt
  rw [cadd, decide_eq_true_eq, UInt64.lt_iff_toNat_lt, UInt64.toNat_add]
  omega

theorem cadc_iff (a b : UInt64) (c : Bool) :
    cadc a b c = true ↔ 2 ^ 64 ≤ a.toNat + b.toNat + c.toNat := by
  have hb := b.toNat_lt
  have hmax : (0xffffffffffffffff : UInt64).toNat = 2 ^ 64 - 1 := rfl
  cases c <;>
    simp only [cadc, Bool.or_eq_true, Bool.and_eq_true, decide_eq_true_eq, UInt64.lt_iff_toNat_lt,
      ← UInt64.toNat_inj, UInt64.toNat_add, hmax, Bool.toNat_true, Bool.toNat_false,
      Bool.false_eq_true, false_and, or_false, true_and] <;> omega

theorem carry_toNat {b : Bool} {p : Prop} [Decidable p] (h : b = true ↔ p) :
    b.toNat = if p then 1 else 0 := by
  by_cases hp : p
  · simp [h.mpr hp, hp]
  · simp [Bool.eq_false_iff.mpr fun hb => hp (h.mp hb), hp]

theorem checkHash64_iff (p : Platform) (hash : Hash) (d : UInt64) :
    checkHash64 p hash d = true ↔ leNat hash.1 * d.toNat < 2 ^ 256 := by
  have h0 := mul_value p (hashWord hash 0) d
  have h1 := mul_value p (hashWord hash 1) d
  have h2 := mul_value p (hashWord hash 2) d
  have h3 := mul_value p (hashWord hash 3) d
  have hprod : leNat hash.1 * d.toNat = (hashWord hash 0).toNat * d.toNat +
      2 ^ 64 * ((hashWord hash 1).toNat * d.toNat + 2 ^ 64 *
        ((hashWord hash 2).toNat * d.toNat + 2 ^ 64 * ((hashWord hash 3).toNat * d.toNat))) := by
    rw [leNat_hash]
    ring
  rw [hprod, ← h0, ← h1, ← h2, ← h3]
  unfold checkHash64
  obtain ⟨l0, c0⟩ := mul p (hashWord hash 0) d
  obtain ⟨l1, c1⟩ := mul p (hashWord hash 1) d
  obtain ⟨l2, c2⟩ := mul p (hashWord hash 2) d
  obtain ⟨l3, c3⟩ := mul p (hashWord hash 3) d
  have hl0 := l0.toNat_lt
  have hl1 := l1.toNat_lt
  have hl2 := l2.toNat_lt
  have hc0 := c0.toNat_lt
  have hc1 := c1.toNat_lt
  dsimp only [wordsValue]
  split_ifs with hhigh
  · rw [ne_eq, ← UInt64.toNat_inj, UInt64.toNat_zero] at hhigh
    simp only [false_iff]
    omega
  · rw [not_not, ← UInt64.toNat_inj, UInt64.toNat_zero] at hhigh
    rw [Bool.not_eq_true', ← Bool.not_eq_true, cadc_iff, carry_toNat (cadc_iff _ _ _),
      carry_toNat (cadd_iff _ _), hhigh]
    split_ifs <;> omega

theorem checkHash128_iff (hash : Hash) (d : ℕ) :
    checkHash128 hash d = true ↔ leNat hash.1 * d < 2 ^ 256 := by
  have hor : ∀ (v : ℕ) (w : UInt64), (v <<< 64) ||| w.toNat = v * 2 ^ 64 + w.toNat := fun v w => by
    rw [← Nat.shiftLeft_add_eq_or_of_lt w.toNat_lt, Nat.shiftLeft_eq]
  have hval : (List.range 4).foldl (fun v i => (v <<< 64) ||| (hashWord hash (3 - i)).toNat) 0 =
      leNat hash.1 := by
    simp only [List.range, List.range.loop, foldl_cons, foldl_nil, hor, leNat_hash]
    ring
  rw [checkHash128, hval, decide_eq_true_eq]
  omega

theorem checkHash_iff (p : Platform) (hash : Hash) (d : ℕ) :
    checkHash p hash d = true ↔ leNat hash.1 * d < 2 ^ 256 := by
  unfold checkHash
  split_ifs with hsmall
  · have hnat : (UInt64.ofNat d).toNat = d := by
      rw [UInt64.toNat_ofNat', Nat.mod_eq_of_lt (by omega)]
    rw [checkHash64_iff, hnat]
  · exact checkHash128_iff hash d

/-- The check that the chain makes is the check by words. -/
theorem checkHash_eq (p : Platform) (hash : Hash) (d : ℕ) :
    checkHash p hash d = Core.checkHash hash d := by
  rw [Bool.eq_iff_iff, checkHash_iff, Core.checkHash, decide_eq_true_eq]
  omega

/-- **`check_hash` accepts a hash exactly when its product with the difficulty is below `2 ^ 256`**,
on both platforms and both ways, and the products of words are exact. -/
theorem check_hash_iff (p : Platform) (hash : Hash) (difficulty : Fin (2 ^ 128)) :
    (checkHash p hash difficulty = true ↔ leNat hash.1 * difficulty < 2 ^ 256) ∧
      (checkHash128 hash difficulty = true ↔ leNat hash.1 * difficulty < 2 ^ 256) ∧
      ∀ x y, wordsValue (mul p x y) = x.toNat * y.toNat :=
  ⟨checkHash_iff p hash difficulty, checkHash128_iff hash difficulty, mul_value p⟩

/-! ## `next_difficulty` -/

/-- The quotient of `next_difficulty_64`, 0 when it does not fit. -/
def quotient64 (p : Platform) (totalWork targetSeconds timeSpan : UInt64) : UInt64 :=
  let (low, high) := mul p totalWork targetSeconds
  if high ≠ 0 ∨ low + timeSpan - 1 < low then 0 else (low + timeSpan - 1) / timeSpan

/-- `next_difficulty_64`. -/
def nextDifficulty64 (p : Platform) (timestamps cumulativeDifficulties : List UInt64)
    (targetSeconds : UInt64) : UInt64 :=
  let timestamps := sorted (timestamps.take difficultyWindow)
  let difficulties := cumulativeDifficulties.take difficultyWindow
  let length := timestamps.length
  if length ≤ 1 then 1
  else
    let (cutBegin, cutEnd) := difficultyCut length
    let timeSpan := timestamps.getD (cutEnd - 1) 0 - timestamps.getD cutBegin 0
    let timeSpan := if timeSpan = 0 then 1 else timeSpan
    let totalWork := difficulties.getD (cutEnd - 1) 0 - difficulties.getD cutBegin 0
    quotient64 p totalWork targetSeconds timeSpan

/-- The number of blocks that are looked at, of `n` blocks. -/
def keptBlocks (n : ℕ) : ℕ := min difficultyWindow n

/-- The first place after the cut, and the one after the last. -/
def keptRange (n : ℕ) : ℕ × ℕ := difficultyCut (keptBlocks n)

/-- The span of the sorted timestamps after the cut. -/
def keptSpan (timestamps : List UInt64) : ℕ :=
  let v := sorted (timestamps.take difficultyWindow)
  (v.getD ((keptRange timestamps.length).2 - 1) 0).toNat -
    (v.getD (keptRange timestamps.length).1 0).toNat

/-- The work after the cut. -/
def keptWork (difficulties : List ℕ) : ℕ :=
  difficulties.getD ((keptRange difficulties.length).2 - 1) 0 -
    difficulties.getD (keptRange difficulties.length).1 0

/-- The work times the target over the time, rounded up. -/
def idealDifficulty (timestamps : List UInt64) (difficulties : List ℕ) (target : UInt64) : ℕ :=
  (keptWork difficulties * target.toNat) ⌈/⌉ max 1 (keptSpan timestamps)

theorem keptRange_inside {n : ℕ} (hn : 2 ≤ n) :
    (keptRange n).1 + 2 ≤ (keptRange n).2 ∧ (keptRange n).2 ≤ keptBlocks n := by
  have htwo : 2 ≤ keptBlocks n := by
    unfold keptBlocks difficultyWindow
    omega
  unfold keptRange difficultyCut
  split_ifs
  · exact ⟨by omega, le_rfl⟩
  · constructor <;> dsimp only <;> omega

section Kept

variable {timestamps : List UInt64} {difficulties : List ℕ}

theorem length_sorted_take :
    (sorted (timestamps.take difficultyWindow)).length = keptBlocks timestamps.length := by
  rw [(sorted_perm _).length_eq, length_take, keptBlocks]

/-- Subtracting timestamps in words is exact, as they are sorted. -/
theorem toNat_keptSpan (hn : 2 ≤ timestamps.length) :
    (((sorted (timestamps.take difficultyWindow)).getD ((keptRange timestamps.length).2 - 1) 0) -
      ((sorted (timestamps.take difficultyWindow)).getD (keptRange timestamps.length).1 0)).toNat =
        keptSpan timestamps := by
  obtain ⟨htwo, hin⟩ := keptRange_inside hn
  rw [← length_sorted_take] at hin
  refine UInt64.toNat_sub_of_le _ _ ?_
  rw [getD_eq_getElem _ _ (by omega), getD_eq_getElem _ _ (by omega)]
  exact pairwise_iff_getElem.mp (sorted_pairwise _) _ _ (by omega) (by omega) (by omega)

theorem keptWork_pos (hn : 2 ≤ difficulties.length) (hinc : difficulties.Pairwise (· < ·)) :
    0 < keptWork difficulties := by
  obtain ⟨htwo, hin⟩ := keptRange_inside hn
  have hle : keptBlocks difficulties.length ≤ difficulties.length := Nat.min_le_right _ _
  rw [keptWork, getD_eq_getElem _ _ (by omega), getD_eq_getElem _ _ (by omega)]
  exact Nat.sub_pos_of_lt
    (pairwise_iff_getElem.mp hinc _ _ (by omega) (by omega) (by omega))

/-- The places that are read are in the part that is looked at. -/
theorem getD_take {α : Type} (l : List α) (d : α) {i : ℕ} (hi : i < keptBlocks l.length) :
    (l.take difficultyWindow).getD i d = l.getD i d := by
  rw [getD_eq_getElem?_getD, getD_eq_getElem?_getD,
    getElem?_take_of_lt (hi.trans_le (Nat.min_le_left _ _))]

theorem quotient64_eq (p : Platform) (work target : UInt64) {span : UInt64} (hspan : span ≠ 0) :
    quotient64 p work target span = 0 ∨
      (quotient64 p work target span).toNat = (work.toNat * target.toNat) ⌈/⌉ span.toNat := by
  have hvalue := mul_value p work target
  unfold quotient64
  generalize mul p work target = w at hvalue ⊢
  obtain ⟨low, high⟩ := w
  have hs := span.toNat_lt
  rw [ne_eq, ← UInt64.toNat_inj, UInt64.toNat_zero] at hspan
  dsimp only [wordsValue] at hvalue ⊢
  split_ifs with hover
  · exact Or.inl rfl
  right
  rw [not_or, not_not, ← UInt64.toNat_inj, UInt64.toNat_zero, UInt64.lt_iff_toNat_lt,
    UInt64.toNat_sub, UInt64.toNat_add] at hover
  have hone : (1 : UInt64).toNat = 1 := rfl
  rw [UInt64.toNat_div, UInt64.toNat_sub, UInt64.toNat_add, hone, Nat.ceilDiv_eq_add_pred_div,
    ← hvalue, hover.1]
  congr 1
  omega

theorem max_one_eq (n : ℕ) : max 1 n = if n = 0 then 1 else n := by
  split_ifs <;> omega

variable (target : UInt64) (hlen : timestamps.length = difficulties.length)
  (hn : 2 ≤ timestamps.length) (hinc : difficulties.Pairwise (· < ·))

include hlen hn hinc

theorem nextDifficulty_eq (hfit : ∀ d ∈ difficulties, d < 2 ^ 128) :
    nextDifficulty timestamps difficulties target.toNat =
      if idealDifficulty timestamps difficulties target > 2 ^ 128 - 1 then 0
      else idealDifficulty timestamps difficulties target := by
  obtain ⟨htwo, hin⟩ := keptRange_inside hn
  have hwork := keptWork_pos (hlen ▸ hn) hinc
  have hle : keptBlocks difficulties.length ≤ difficulties.length := Nat.min_le_right _ _
  have hlast : difficulties.getD ((keptRange difficulties.length).2 - 1) 0 < 2 ^ 128 := by
    rw [← hlen] at hle ⊢
    rw [getD_eq_getElem _ _ (by omega)]
    exact hfit _ (getElem_mem _)
  have hspan := toNat_keptSpan hn
  have hgt : ¬ keptBlocks timestamps.length ≤ 1 := by omega
  unfold nextDifficulty
  dsimp only
  have hrange : difficultyCut (keptBlocks timestamps.length) = keptRange timestamps.length := rfl
  rw [length_sorted_take, if_neg hgt, hrange, hspan, ← max_one_eq, ← Nat.ceilDiv_eq_add_pred_div,
    getD_take _ _ (by rw [← hlen]; omega), getD_take _ _ (by rw [← hlen]; omega), hlen]
  have hsub : (difficulties.getD ((keptRange difficulties.length).2 - 1) 0 + 2 ^ 128 -
      difficulties.getD (keptRange difficulties.length).1 0) % 2 ^ 128 = keptWork difficulties := by
    unfold keptWork at hwork ⊢
    omega
  rw [hsub]
  rfl

/-- Words give up, or agree. -/
theorem nextDifficulty64_eq (p : Platform) {words : List UInt64}
    (hwords : words.map UInt64.toNat = difficulties) :
    nextDifficulty64 p timestamps words target = 0 ∨
      (nextDifficulty64 p timestamps words target).toNat =
        idealDifficulty timestamps difficulties target := by
  obtain ⟨htwo, hin⟩ := keptRange_inside hn
  have hwork := keptWork_pos (hlen ▸ hn) hinc
  have hspan := toNat_keptSpan hn
  have hlen' : words.length = timestamps.length := by rw [hlen, ← hwords, length_map]
  have hgt : ¬ keptBlocks timestamps.length ≤ 1 := by omega
  have hget : ∀ i, (words.getD i 0).toNat = difficulties.getD i 0 := fun i => by
    rw [← hwords]
    exact (getD_map words 0 UInt64.toNat).symm
  have hrange : difficultyCut (keptBlocks timestamps.length) = keptRange timestamps.length := rfl
  unfold nextDifficulty64
  dsimp only
  rw [length_sorted_take, if_neg hgt, hrange, getD_take _ _ (by rw [hlen']; omega),
    getD_take _ _ (by rw [hlen']; omega)]
  have htotal : (words.getD ((keptRange timestamps.length).2 - 1) 0 -
      words.getD (keptRange timestamps.length).1 0).toNat = keptWork difficulties := by
    unfold keptWork at hwork ⊢
    rw [← hlen, ← hget, ← hget] at hwork ⊢
    exact UInt64.toNat_sub_of_le _ _ (UInt64.le_iff_toNat_le.mpr (by omega))
  generalize hd : (sorted (timestamps.take difficultyWindow)).getD
      ((keptRange timestamps.length).2 - 1) 0 -
    (sorted (timestamps.take difficultyWindow)).getD (keptRange timestamps.length).1 0 = d
    at hspan ⊢
  have hne : (if d = 0 then 1 else d) ≠ 0 := by
    split_ifs with hzero
    · decide
    · exact hzero
  have hmax : (if d = 0 then 1 else d).toNat = max 1 (keptSpan timestamps) := by
    rw [max_one_eq, ← hspan]
    simp only [← UInt64.toNat_inj, UInt64.toNat_zero]
    split_ifs <;> rfl
  have hquot := quotient64_eq p (words.getD ((keptRange timestamps.length).2 - 1) 0 -
      words.getD (keptRange timestamps.length).1 0) target hne
  rwa [htotal, hmax] at hquot

end Kept

/-- **The next difficulty**, from at least two blocks: what is read is inside the lists, at least
two blocks are kept, and the result is the work times the target over the time, rounded up, or 0
when that does not fit in 128 bits. It does not depend on the order of the timestamps, and
`next_difficulty_64` gives the same or 0. -/
theorem next_difficulty_exact {timestamps : List UInt64} {difficulties : List ℕ} {target : UInt64}
    (hlen : timestamps.length = difficulties.length) (hn : 2 ≤ timestamps.length)
    (hinc : difficulties.Pairwise (· < ·)) (hfit : ∀ d ∈ difficulties, d < 2 ^ 128)
    (hpos : 0 < target) :
    ((keptRange timestamps.length).1 + 2 ≤ (keptRange timestamps.length).2 ∧
        (keptRange timestamps.length).2 ≤ keptBlocks timestamps.length) ∧
      0 < idealDifficulty timestamps difficulties target ∧
      nextDifficulty timestamps difficulties target.toNat =
        (if idealDifficulty timestamps difficulties target > 2 ^ 128 - 1 then 0
        else idealDifficulty timestamps difficulties target) ∧
      (∀ first, first.Perm (timestamps.take difficultyWindow) →
        nextDifficulty (first ++ timestamps.drop difficultyWindow) difficulties target.toNat =
          nextDifficulty timestamps difficulties target.toNat) ∧
      ∀ p words, words.map UInt64.toNat = difficulties →
        nextDifficulty64 p timestamps words target = 0 ∨
          (nextDifficulty64 p timestamps words target).toNat =
            nextDifficulty timestamps difficulties target.toNat := by
  have heq := nextDifficulty_eq target hlen hn hinc hfit
  have hideal : 0 < idealDifficulty timestamps difficulties target := by
    have hwork := keptWork_pos (hlen ▸ hn) hinc
    have htarget : 0 < target.toNat := UInt64.lt_iff_toNat_lt.mp hpos
    exact Nat.div_pos (by have := Nat.mul_pos hwork htarget; omega) (by omega)
  refine ⟨keptRange_inside hn, hideal, heq, fun first hperm => ?_, fun p words hwords => ?_⟩
  · have htake : (first ++ timestamps.drop difficultyWindow).take difficultyWindow = first := by
      have hfirst := hperm.length_eq
      rw [length_take] at hfirst
      rcases Nat.le_total timestamps.length difficultyWindow with hshort | hlong
      · rw [drop_of_length_le hshort, append_nil, take_of_length_le (by omega)]
      · exact take_left' (by omega)
    have hsorted : sorted first = sorted (timestamps.take difficultyWindow) :=
      sorted_eq_of_perm (hperm.trans (sorted_perm _).symm) (sorted_pairwise _)
    rw [nextDifficulty, htake, hsorted]
    rfl
  · refine (nextDifficulty64_eq target hlen hn hinc p hwords).imp_right fun hsame => ?_
    have hlt := (nextDifficulty64 p timestamps words target).toNat_lt
    rw [heq, if_neg (by omega), hsame]

theorem next_difficulty_exact_three :
    (if idealDifficulty [30, 10, 20] [5, 9, 16] 120 > 2 ^ 128 - 1 then 0
      else idealDifficulty [30, 10, 20] [5, 9, 16] 120) = 66 ∧
    nextDifficulty [30, 10, 20] [5, 9, 16] (120 : UInt64).toNat = 66 := by
  have hspec := @next_difficulty_exact [30, 10, 20] [5, 9, 16] 120 rfl (by decide) (by decide)
    (by decide) (by decide)
  have hvalue : (if idealDifficulty [30, 10, 20] [5, 9, 16] 120 > 2 ^ 128 - 1 then 0
      else idealDifficulty [30, 10, 20] [5, 9, 16] 120) = 66 := by decide
  exact ⟨hvalue, hspec.2.2.1.trans hvalue⟩

/-- From one block nothing is kept, and the result is 1 where no work was done. -/
theorem next_difficulty_single :
    nextDifficulty [7] [5] (120 : UInt64).toNat = 1 ∧ idealDifficulty [7] [5] 120 = 0 ∧
      ¬ (keptRange 1).1 + 2 ≤ (keptRange 1).2 := by
  decide

end Hashmonkey.Core.Difficulty
