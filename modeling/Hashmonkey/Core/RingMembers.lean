import Hashmonkey.Lib.WrapSum
import Hashmonkey.Basic.Transaction

/-!
# Ring members of an input (`cryptonote_core.cpp`)

A `txin_to_key` names its ring members by `key_offsets`: the first is the index of an output among
those of the input's amount, each other one is the distance from the member before it.
`relative_output_offsets_to_absolute` adds the distances up in `uint64_t`, which wraps;
`check_tx_inputs_ring_members_diff` is meant to keep a transaction from naming one output twice
("tx uses duplicate ring members") and only looks for distances that are zero.

* `map_absolute_toNat`: the absolute offsets are the running sums of a register of modulus `2^64`;
* `absolute_pairwise_le`: offsets whose natural-number total fits are in ascending order;
* **`ring_members_increase_iff`**: for a transaction that the check accepts from version 6 on, the
  absolute offsets of all inputs are strictly increasing if and only if the total of no input's
  offsets reaches `2^64`;
* `ring_members_repeat`: an accepted input with one output twice in its ring.
-/

namespace Hashmonkey.Core

open Basic Lib UInt64

/-! ## The two functions of the source -/

/-- The loop of `relative_output_offsets_to_absolute`: `last` is the entry before. -/
def addToLast (last : UInt64) : List UInt64 → List UInt64
  | [] => []
  | x :: xs => (x + last) :: addToLast (x + last) xs

/-- `relative_output_offsets_to_absolute`. -/
def relativeOutputOffsetsToAbsolute : List UInt64 → List UInt64
  | [] => []
  | x :: xs => x :: addToLast x xs

/-- `core::check_tx_inputs_ring_members_diff`. -/
def checkTxInputsRingMembersDiff (tx : Transaction) (hfVersion : UInt8) : Bool :=
  if hfVersion ≥ 6 then
    tx.vin.all fun
      | .key i => i.keyOffsets.tail.all (· != 0)
      | _ => false
  else true

/-- The natural-number total of an input's key offsets: where its last ring member would be if the
additions did not wrap. -/
def offsetTotal (offsets : List UInt64) : Nat :=
  (offsets.map toNat).sum

/-! ## Absolute offsets as running sums -/

theorem map_addToLast_toNat (last : UInt64) (l : List UInt64) :
    (addToLast last l).map toNat =
      runningSums (2 ^ 64) last.toNat (l.map toNat) := by
  induction l generalizing last with
  | nil => rfl
  | cons x xs ih =>
    rw [addToLast, List.map_cons, ih, List.map_cons, runningSums, UInt64.toNat_add,
      Nat.add_comm x.toNat]

/-- The absolute offsets are the running sums of a register of modulus `2^64`. -/
theorem map_absolute_toNat (x : UInt64) (xs : List UInt64) :
    (relativeOutputOffsetsToAbsolute (x :: xs)).map toNat =
      x.toNat :: runningSums (2 ^ 64) x.toNat (xs.map toNat) := by
  rw [relativeOutputOffsetsToAbsolute, List.map_cons, map_addToLast_toNat]

/-- Offsets whose total fits in 64 bits are in ascending order. -/
theorem absolute_pairwise_le {l : List UInt64} (h : offsetTotal l < 2 ^ 64) :
    (relativeOutputOffsetsToAbsolute l).Pairwise (· ≤ ·) := by
  cases l with
  | nil => exact List.Pairwise.nil
  | cons x xs =>
    have hp := runningSums_pairwise_le (N := 2 ^ 64) (a := x.toNat) (l := xs.map toNat) h
    rw [← map_absolute_toNat, List.pairwise_map] at hp
    exact hp.imp fun hle => le_iff_toNat_le.mpr hle

/-- Offsets that are not zero after the first: strictly ascending if and only if the total fits. -/
theorem absolute_pairwise_lt_iff {l : List UInt64} (h : ∀ x ∈ l.tail, x ≠ 0) :
    (relativeOutputOffsetsToAbsolute l).Pairwise (· < ·) ↔ offsetTotal l < 2 ^ 64 := by
  cases l with
  | nil => exact ⟨fun _ => by decide, fun _ => List.Pairwise.nil⟩
  | cons x xs =>
    have hstep : ∀ n ∈ xs.map toNat, 0 < n ∧ n < 2 ^ 64 := by
      intro n hn
      obtain ⟨y, hy, rfl⟩ := List.mem_map.mp hn
      have hy0 : y.toNat ≠ 0 := fun h0 => h y hy (UInt64.toNat_inj.mp h0)
      exact ⟨Nat.pos_of_ne_zero hy0, y.toNat_lt⟩
    have hiff := runningSums_pairwise_lt_iff x.toNat_lt hstep
    rw [← map_absolute_toNat, List.pairwise_map] at hiff
    exact hiff

/-! ## What the check leaves -/

/-- From version 6 on, the check accepts a transaction if and only if all its inputs are
`txin_to_key` with no zero after the first offset. -/
theorem checkTxInputsRingMembersDiff_iff {tx : Transaction} {hf : UInt8} (hhf : 6 ≤ hf) :
    checkTxInputsRingMembersDiff tx hf = true ↔
      ∀ v ∈ tx.vin, ∃ i, v = .key i ∧ ∀ x ∈ i.keyOffsets.tail, x ≠ 0 := by
  rw [checkTxInputsRingMembersDiff, if_pos hhf, List.all_eq_true]
  refine forall_congr' fun v => forall_congr' fun _ => ?_
  cases v with
  | key i => simp
  | gen _ | script _ | scripthash _ => simp

/-- **The ring members of an accepted transaction are in strictly ascending order if and only if
the total of no input's offsets reaches `2^64`.** -/
theorem ring_members_increase_iff (tx : Transaction) (hf : UInt8) (hhf : 6 ≤ hf)
    (hok : checkTxInputsRingMembersDiff tx hf = true) :
    (∀ i, .key i ∈ tx.vin →
        (relativeOutputOffsetsToAbsolute i.keyOffsets).Pairwise (· < ·)) ↔
      ∀ i, .key i ∈ tx.vin → offsetTotal i.keyOffsets < 2 ^ 64 := by
  refine forall_congr' fun i => forall_congr' fun hi => ?_
  obtain ⟨j, hj, hnz⟩ := (checkTxInputsRingMembersDiff_iff hhf).mp hok _ hi
  cases hj
  exact absolute_pairwise_lt_iff hnz

/-- A transaction with one input over the given ring. -/
def oneInputTx (offsets : List UInt64) : Transaction :=
  { vin := [.key ⟨0, offsets, nullHash⟩] }

theorem ring_members_increase_iff_two :
    (∀ i, .key i ∈ (oneInputTx [3, 4]).vin →
        (relativeOutputOffsetsToAbsolute i.keyOffsets).Pairwise (· < ·)) ↔
      ∀ i, .key i ∈ (oneInputTx [3, 4]).vin → offsetTotal i.keyOffsets < 2 ^ 64 :=
  ring_members_increase_iff (oneInputTx [3, 4]) 6 (by decide) (by decide)

/-- An accepted input with one output twice in its ring: the offset `2^64 - 1` goes back by one. -/
theorem ring_members_repeat :
    checkTxInputsRingMembersDiff (oneInputTx [5, 0xffffffffffffffff, 1]) 16 = true ∧
      relativeOutputOffsetsToAbsolute [5, 0xffffffffffffffff, 1] = [5, 4, 5] ∧
      ¬ (relativeOutputOffsetsToAbsolute [5, 0xffffffffffffffff, 1]).Pairwise (· < ·) ∧
      ¬ (relativeOutputOffsetsToAbsolute [5, 0xffffffffffffffff, 1]).Nodup := by
  decide

end Hashmonkey.Core
