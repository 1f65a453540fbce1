import Mathlib.Algebra.GroupWithZero.Nat
import Mathlib.Data.List.Sort

/-!
# Timestamps (`misc_language.h`, `blockchain.cpp`)

The median of the last timestamps bounds the timestamp of a block from below
(`check_block_timestamp`), and with it the time that outputs locked by time are compared to
(`get_adjusted_time`). `median` sorts the vector it is given in place, so what `get_adjusted_time`
then reads as the last entry is the greatest timestamp of the window.

`median` is that of `misc_utils`, for vectors of any length; it does not depend on the order of the
entries (`median_perm`), and `getMid` does not wrap (`toNat_getMid`). Timestamps are `uint64_t`;
`now` stands for `time(NULL)`.
-/

namespace Hashmonkey.Core

/-- `get_mid`: the average of two numbers, rounded down. -/
def getMid (a b : UInt64) : UInt64 :=
  a / 2 + b / 2 + ((a - 2 * (a / 2)) + (b - 2 * (b / 2))) / 2

theorem toNat_sub_half (a : UInt64) : (a - 2 * (a / 2)).toNat = a.toNat % 2 := by
  change (2 ^ 64 - 2 * (a.toNat / 2) % 2 ^ 64 + a.toNat) % 2 ^ 64 = _
  omega

/-- `get_mid` is the floor of the arithmetic mean: nothing wraps. -/
theorem toNat_getMid (a b : UInt64) : (getMid a b).toNat = (a.toNat + b.toNat) / 2 := by
  have ha := a.toNat_lt
  have hb := b.toNat_lt
  rw [getMid, UInt64.toNat_add, UInt64.toNat_add, UInt64.toNat_div, UInt64.toNat_div,
    UInt64.toNat_div, UInt64.toNat_add, toNat_sub_half, toNat_sub_half]
  change ((a.toNat / 2 + b.toNat / 2) % 2 ^ 64 + (a.toNat % 2 + b.toNat % 2) % 2 ^ 64 / 2) %
    2 ^ 64 = _
  omega

/-- `std::sort` on 64-bit integers. -/
def sorted (v : List UInt64) : List UInt64 :=
  v.insertionSort (· ≤ ·)

/-- `epee::misc_utils::median`. -/
def median (v : List UInt64) : UInt64 :=
  let n := v.length / 2
  if v.isEmpty then 0
  else if v.length % 2 = 1 then (sorted v).getD n 0
  else getMid ((sorted v).getD (n - 1) 0) ((sorted v).getD n 0)

theorem sorted_perm (v : List UInt64) : (sorted v).Perm v := List.perm_insertionSort _ v

theorem sorted_pairwise (v : List UInt64) : (sorted v).Pairwise (· ≤ ·) :=
  List.pairwise_insertionSort _ v

/-- Sorting finds the one ascending order. -/
theorem sorted_eq_of_perm {v w : List UInt64} (h : v.Perm w) (hw : w.Pairwise (· ≤ ·)) :
    sorted v = w :=
  List.Perm.eq_of_pairwise (fun _ _ _ _ => UInt64.le_antisymm) (sorted_pairwise v) hw
    ((sorted_perm v).trans h)

/-- The median does not depend on the order of the entries. -/
theorem median_perm {v w : List UInt64} (h : v.Perm w) : median v = median w := by
  have hsorted : sorted v = sorted w :=
    sorted_eq_of_perm (h.trans (sorted_perm w).symm) (sorted_pairwise w)
  rw [median, median, hsorted, h.length_eq, h.isEmpty_eq]

/-- `BLOCKCHAIN_TIMESTAMP_CHECK_WINDOW`. -/
def timestampCheckWindow : Nat := 60

/-- `CRYPTONOTE_BLOCK_FUTURE_TIME_LIMIT`. -/
def blockFutureTimeLimit : UInt64 := 60 * 60 * 2

/-- `DIFFICULTY_TARGET_V1`, in seconds. -/
def difficultyTargetV1 : UInt64 := 60

/-- `DIFFICULTY_TARGET_V2`, in seconds. -/
def difficultyTargetV2 : UInt64 := 120

/-- `Blockchain::get_adjusted_time` at the top of the chain whose timestamps are given. -/
def getAdjustedTime (timestamps : List UInt64) (now : UInt64) : UInt64 :=
  if timestamps.length < timestampCheckWindow then now
  else
    let window := timestamps.drop (timestamps.length - timestampCheckWindow)
    let medianTs := median window + 61 * difficultyTargetV2 / 2
    let adjustedCurrentBlockTs := (sorted window).getLastD 0 + difficultyTargetV2
    if adjustedCurrentBlockTs < medianTs then adjustedCurrentBlockTs else medianTs

end Hashmonkey.Core
