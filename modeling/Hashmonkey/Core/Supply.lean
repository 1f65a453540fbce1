import Mathlib.Algebra.Order.BigOperators.Group.List
import Mathlib.Algebra.Order.Group.Nat
import Hashmonkey.Core.MainChain

/-!
# The coins in existence (`blockchain.cpp`)

`handle_block_to_main_chain` stores with each block how many coins were generated up to it, capped
at `MONEY_SUPPLY`, and bounds what the coinbase transaction pays by the reward and the fees, all
with 64-bit sums that wrap.

* `SupplyRun`: a run of accepted blocks from the empty chain, with the report of each. Between two
  blocks everything may change but the main chain;
* `Paid`: what the coinbase transaction of an accepted block pays, in natural numbers.

Result: **`coins_of_run`**, over every run. The amounts stored need no assumption
(`nextGeneratedCoins_toNat`); the bounds need that the fees and the reward of a block together fit
in 64 bits, and then follow from `validateMinerTransaction_spec`.
-/

namespace Hashmonkey.Core

open Basic List

variable {P : Type}

/-- The fees of a block, in natural numbers. -/
def BlockReport.feeTotal (r : BlockReport) : Nat := (r.fees.map UInt64.toNat).sum

/-- The base rewards that `validate_miner_transaction` left for the blocks, in natural numbers. -/
def emitted (rs : List BlockReport) : Nat := (rs.map fun r => r.reward.baseReward.toNat).sum

/-- A run of blocks that `handle_block_to_main_chain` accepted, with their reports, oldest first. -/
inductive SupplyRun (n : Node P) : Blockchain P → List BlockReport → Prop
  | start {s : Blockchain P} : s.chain = [] → SupplyRun n s []
  | other {s s' : Blockchain P} {rs : List BlockReport} :
      SupplyRun n s rs → s'.chain = s.chain → SupplyRun n s' rs
  | block {s : Blockchain P} {rs : List BlockReport} {b : Block}
      {sup : List (Hash × Transaction)} {r : BlockReport} :
      SupplyRun n s rs → (handleBlockToMainChain n s b sup).2 = .ok r →
      SupplyRun n (handleBlockToMainChain n s b sup).1 (rs ++ [r])

/-- What the coinbase transaction of a block pays. -/
structure Paid (b : Block) (r : BlockReport) : Prop where
  /-- the reward allowed is that of `get_block_reward` -/
  allowed : getBlockReward r.medianWeight r.weight r.alreadyGeneratedCoins r.hfVersion =
    some r.reward.allowed
  /-- the base reward left is that of `validate_miner_transaction` -/
  validated : validateMinerTransaction b r.weight (UInt64.ofNat r.feeTotal)
    r.alreadyGeneratedCoins r.medianWeight r.hfVersion = some r.reward
  at_most : coinbaseTotal b ≤ r.reward.allowed.toNat + r.feeTotal
  exact : r.hfVersion < 2 ∨ r.hfVersion ≥ 13 →
    coinbaseTotal b = r.reward.allowed.toNat + r.feeTotal
  at_least : 2 ≤ r.hfVersion → r.hfVersion ≤ 12 → r.feeTotal ≤ coinbaseTotal b

variable {n : Node P} {s s' : Blockchain P} {b : Block} {r : BlockReport}

theorem Added.paid
    (h : Added n s b s' r) (hfit : r.feeTotal + r.reward.allowed.toNat < 2 ^ 64) : Paid b r := by
  obtain ⟨fee, hfee, hval⟩ := h.validated
  have hsum : fee.toNat = r.feeTotal := by
    rw [hfee]
    exact Nat.mod_eq_of_lt (Nat.lt_of_le_of_lt (Nat.le_add_right _ _) hfit)
  have hpre := h.prevalidated
  rw [← h.hfVersion] at hpre
  obtain ⟨hallowed, hpaid, hle, hexact⟩ :=
    validateMinerTransaction_spec hpre hval (by omega)
  rw [hsum] at hpaid
  rw [UInt64.le_iff_toNat_le] at hle
  refine ⟨hallowed, ?_, by omega, fun hv => ?_, fun _ _ => by omega⟩
  · rw [← hsum, UInt64.ofNat_toNat]
    exact hval
  · rw [hpaid, hexact hv]

variable {rs : List BlockReport}

/-- The amount stored with a block is the capped sum of the base rewards so far. -/
theorem Added.coins_toNat (h : Added n s b s' r)
    (htop : s.topGeneratedCoins.toNat = min (2 ^ 64 - 1) (emitted rs)) :
    s'.topGeneratedCoins.toNat = min (2 ^ 64 - 1) (emitted (rs ++ [r])) := by
  obtain ⟨e, hchain, -, -, hcoins⟩ := h.chain
  have hnew : emitted (rs ++ [r]) = emitted rs + r.reward.baseReward.toNat := by
    simp [emitted]
  rw [Blockchain.topGeneratedCoins, hchain]
  dsimp only
  rw [hcoins, nextGeneratedCoins_toNat, h.coins, htop, hnew]
  omega

/-- What is stored along a run: the capped sum for the top block and for every height. -/
structure Supplied (s : Blockchain P) (rs : List BlockReport) : Prop where
  length : s.chain.length = rs.length
  top : s.topGeneratedCoins.toNat = min (2 ^ 64 - 1) (emitted rs)
  stored : ∀ h e, s.chain.reverse[h]? = some e →
    e.alreadyGeneratedCoins.toNat = min (2 ^ 64 - 1) (emitted (rs.take (h + 1)))

theorem Supplied.block (hs : Supplied s rs) (h : Added n s b s' r) : Supplied s' (rs ++ [r]) := by
  have htop := h.coins_toNat hs.top
  obtain ⟨e, hchain, -⟩ := h.chain
  refine ⟨by rw [hchain, length_cons, hs.length, length_append]; rfl, htop, ?_⟩
  intro k e' hk
  rw [hchain, reverse_cons] at hk
  rcases Nat.lt_or_ge k s.chain.reverse.length with hlt | hge
  · -- a block that was there before
    rw [getElem?_append_left hlt] at hk
    rw [length_reverse, hs.length] at hlt
    rw [take_append_of_le_length hlt]
    exact hs.stored k e' hk
  -- the block that was added is the top
  rw [getElem?_append_right hge, getElem?_singleton] at hk
  split at hk
  · cases hk
    have hk' : (rs ++ [r]).length ≤ k + 1 := by
      rw [length_append, ← hs.length, ← length_reverse]
      exact Nat.add_le_add_right hge 1
    rw [take_of_length_le hk', ← htop, Blockchain.topGeneratedCoins, hchain]
  · cases hk

theorem SupplyRun.supplied (h : SupplyRun n s rs) : Supplied s rs := by
  induction h with
  | start hc =>
    refine ⟨by rw [hc]; rfl, by rw [Blockchain.topGeneratedCoins, hc]; rfl, fun k e hk => ?_⟩
    rw [hc] at hk
    cases hk
  | other _ hc ih =>
    obtain ⟨hlen, htop, hst⟩ := ih
    exact ⟨hc ▸ hlen, by rw [Blockchain.topGeneratedCoins, hc]; exact htop, hc ▸ hst⟩
  | block _ hadd ih => exact ih.block (handleBlockToMainChain_ok (Prod.ext rfl hadd))

theorem SupplyRun.paid
    (h : SupplyRun n s rs) (hfit : ∀ r ∈ rs, r.feeTotal + r.reward.allowed.toNat < 2 ^ 64) :
    List.Forall₂ Paid (s.chain.reverse.map StoredBlock.bl) rs := by
  induction h with
  | start hc =>
    rw [hc]
    exact .nil
  | other _ hc ih =>
    rw [hc]
    exact ih hfit
  | @block s rs b sup r _ hadd ih =>
    have hadded := handleBlockToMainChain_ok (Prod.ext rfl hadd)
    obtain ⟨e, hchain, hbl, -⟩ := hadded.chain
    rw [hchain, reverse_cons, map_append, map_singleton, hbl]
    have hlast := hadded.paid (hfit r (mem_append_right _ mem_cons_self))
    exact rel_append (ih fun r' hr' => hfit r' (mem_append_left _ hr'))
      (.cons hlast .nil)

theorem emitted_take_le (rs : List BlockReport) {h h' : Nat} (hh : h ≤ h') :
    emitted (rs.take h) ≤ emitted (rs.take h') :=
  ((take_sublist_take_left hh).map _).sum_le_sum fun _ _ => Nat.zero_le _

/-- **The coins of a run.** The amount stored for a height is the capped sum of the base rewards up
to it, it does not decrease, and every coinbase transaction pays within its bounds. -/
theorem coins_of_run (n : Node P) (s : Blockchain P) (rs : List BlockReport)
    (hrun : SupplyRun n s rs)
    (hfit : ∀ r ∈ rs, r.feeTotal + r.reward.allowed.toNat < 2 ^ 64) :
    s.chain.length = rs.length ∧
      (∀ h e, s.chain.reverse[h]? = some e →
        e.alreadyGeneratedCoins.toNat = min (2 ^ 64 - 1) (emitted (rs.take (h + 1)))) ∧
      (∀ (h h' : Nat) (e e' : StoredBlock), h ≤ h' → s.chain.reverse[h]? = some e →
        s.chain.reverse[h']? = some e' → e.alreadyGeneratedCoins ≤ e'.alreadyGeneratedCoins) ∧
      List.Forall₂ Paid (s.chain.reverse.map StoredBlock.bl) rs := by
  have hsup := hrun.supplied
  refine ⟨hsup.length, hsup.stored, ?_, hrun.paid hfit⟩
  intro h h' e e' hh he he'
  have hmono := emitted_take_le rs (Nat.add_le_add_right hh 1)
  rw [UInt64.le_iff_toNat_le, hsup.stored h e he, hsup.stored h' e' he']
  omega

/-- The reports of two blocks that claim the full reward, without transactions. -/
def sampleReports : List BlockReport :=
  [ { fees := []
      reward := ⟨17592186044415, 17592186044415, false⟩
      weight := 100
      medianWeight := 0
      alreadyGeneratedCoins := 0
      hfVersion := 1
      difficulty := 1 },
    { fees := []
      reward := ⟨17592169267200, 17592169267200, false⟩
      weight := 100
      medianWeight := 100
      alreadyGeneratedCoins := 17592186044415
      hfVersion := 1
      difficulty := 1 }]

/-- A genesis block and one block after it. -/
theorem coins_of_run_two :
    ∃ s, SupplyRun (sampleNode 0) s sampleReports ∧ s.chain.length = 2 ∧
      List.Forall₂ Paid (s.chain.reverse.map StoredBlock.bl) sampleReports := by
  have hgenesis : (handleBlockToMainChain (sampleNode 0) { txPool := () }
      (sampleBlock 1 0 1 0 17592186044415) []).2 = .ok (sampleReports.get ⟨0, by decide⟩) := by
    decide
  have hsecond : (handleBlockToMainChain (sampleNode 0)
      (handleBlockToMainChain (sampleNode 0) { txPool := () }
        (sampleBlock 1 0 1 0 17592186044415) []).1
      (sampleBlock 1 1 2 1 17592169267200) []).2 = .ok (sampleReports.get ⟨1, by decide⟩) := by
    decide
  have hrun := SupplyRun.block (.block (.start rfl) hgenesis) hsecond
  have hpaid := coins_of_run _ _ _ hrun (by decide)
  exact ⟨_, hrun, hpaid.1, hpaid.2.2.2⟩

end Hashmonkey.Core
