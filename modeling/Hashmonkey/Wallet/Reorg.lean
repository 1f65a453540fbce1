import Hashmonkey.Wallet.Runs

/-!
# What a reorganisation leaves (`wallet/wallet2.cpp`)

`detach_blockchain` cuts the transfers off at the first one that has the height or more. When an
output replaces a smaller one with the same key, the transfer keeps its place and gets a new height,
so heights need not increase along the vector, and transfers below the height can come after the
cut.

* `DetachesExactly`: what a reorganisation should leave, the transfers below the height with their
  maps, and none that is spent from the height on;
* `HeightLast`: no transfer below the height comes after one that is not.

Result: **`handleReorg_exact_iff`**, in every state that an ordinary wallet reaches it leaves that
if and only if `HeightLast` holds; `handleReorg_loses` is a run after which it does not. No output
is held twice (`transfers_distinct`).
-/

open Hashmonkey.Core

namespace Hashmonkey.Wallet

open Basic Crypto Db Lib Ringct Serialization

variable {a : Account} {w w' : Wallet2}

/-! ## The transfers that are left -/

/-- No transfer below the height comes after one that is not. -/
def HeightLast (height : Nat) (w : Wallet2) : Prop :=
  w.transfers.Pairwise fun td td' => td'.blockHeight < height → td.blockHeight < height

theorem blockHeight_resetSpent (td : TransferDetails) (height : Nat) :
    (td.resetSpent height).blockHeight = td.blockHeight := by
  unfold TransferDetails.resetSpent
  split <;> rfl

/-- What is left are the transfers before the first that has the height or more. -/
theorem transfers_detached (w : Wallet2) (height : Nat) (keyImages pubKeys : Places) :
    (w.detached height keyImages pubKeys).transfers =
      (w.transfers.takeWhile fun td => td.blockHeight < height).map (·.resetSpent height) := by
  have htest : (fun td : TransferDetails => decide (td.blockHeight ≥ height)) =
      fun td => !decide (td.blockHeight < height) := by
    funext td
    rw [← decide_not]
    exact decide_eq_decide.mpr Nat.not_lt.symm
  have hreset : (fun td : TransferDetails => decide (td.blockHeight < height)) ∘
      (fun td : TransferDetails => td.resetSpent height) =
        fun td => decide (td.blockHeight < height) := by
    funext td
    exact congrArg (fun n => decide (n < height)) (blockHeight_resetSpent td height)
  change ((w.resetSpent height).transfers).take (List.findIdx _ (w.resetSpent height).transfers) = _
  rw [htest, ← List.takeWhile_eq_take_findIdx_not]
  change List.takeWhile _ (w.transfers.map fun td => td.resetSpent height) = _
  rw [List.takeWhile_map, hreset]

/-- What a reorganisation should leave. -/
structure DetachesExactly (height : Nat) (w w' : Wallet2) : Prop where
  transfers : w'.transfers =
    (w.transfers.filter fun td => td.blockHeight < height).map (·.resetSpent height)
  unspent : ∀ td ∈ w'.transfers, td.spent = true → td.spentHeight < height
  pubKeys : ∀ (key : PublicKey) (i : Nat), w'.pubKeys[key]? = some i ↔
    ∃ td, w'.transfers[i]? = some td ∧ td.getPublicKey = some key
  keyImages : ∀ (ki : KeyImage) (i : Nat), w'.keyImages[ki]? = some i ↔
    ∃ td, w'.transfers[i]? = some td ∧ td.keyImage = ki

theorem unspent_resetSpent {td : TransferDetails} {height : Nat}
    (h : (td.resetSpent height).spent = true) : (td.resetSpent height).spentHeight < height := by
  unfold TransferDetails.resetSpent at h ⊢
  split
  · rename_i hspent
    rw [if_pos hspent] at h
    cases h
  · rename_i hspent
    rw [if_neg hspent] at h
    exact Nat.lt_of_not_le fun hle => hspent ⟨h, hle⟩

/-- **A reorganisation is exact if and only if no transfer below the height comes after one that is
not**, in every state that an ordinary wallet reaches. It fails below the offset of the chain of
blocks, and the other alternative is that two outputs with different public keys have the same key
image. -/
theorem handleReorg_exact_iff (ha : Ordinary a) {ws : List Wallet2} (hrun : WalletRun a (w :: ws))
    (height : Nat)
    (hoffset : ¬ (height < w.blockchain.offset ∧ w.blockchain.size > w.blockchain.offset)) :
    (∃ s ∈ w :: ws, Collides s) ∨
      ∃ w', w.handleReorg height = .ok w' ∧
        (DetachesExactly height w w' ↔ HeightLast height w) := by
  refine (hrun.keyIndexed ha).imp_right fun hkey => ?_
  obtain ⟨keyImages, pubKeys, hok, hpub', hkey'⟩ :=
    detachBlockchain_ok (hrun.pubIndexed ha) hkey height
  refine ⟨_, by rw [Wallet2.handleReorg, if_neg hoffset, hok], ?_⟩
  have hleft := transfers_detached w height keyImages pubKeys
  have hlast : HeightLast height w ↔
      (w.transfers.takeWhile fun td => td.blockHeight < height) =
        w.transfers.filter fun td => td.blockHeight < height := by
    rw [takeWhile_eq_filter_iff]
    simp only [decide_eq_true_eq]
    rfl
  constructor
  · intro hexact
    refine hlast.mpr ((takeWhile_prefix_filter _ _).eq_of_length ?_)
    have hlength := congrArg List.length (hleft.symm.trans hexact.transfers)
    rwa [List.length_map, List.length_map] at hlength
  · intro h
    refine ⟨by rw [hleft, hlast.mp h], fun td htd => ?_, hpub'.index, fun ki i => ?_⟩
    · rw [hleft] at htd
      obtain ⟨td0, _, rfl⟩ := List.mem_map.mp htd
      exact unspent_resetSpent
    · rw [hkey' ki i]
      simp only [Option.some.injEq]

/-- Three blocks that pay the wallet 3, then 4 with another key, and then 5 with the first key
again. -/
def sampleEvents : List WalletEvent :=
  [.transaction (sampleContext [1] [(7, 3)] 0), .newBlock (Blob.fill 1),
    .transaction (sampleContext [1] [(8, 4)] 1), .newBlock (Blob.fill 2),
    .transaction (sampleContext [1] [(7, 5)] 2), .newBlock (Blob.fill 3)]

theorem sampleRun : ∃ ws, WalletRun sampleAccount (runEvents sampleAccount {} sampleEvents :: ws) :=
  runEvents_run (.start rfl rfl rfl) (by decide)

theorem ordinary_sample : Ordinary sampleAccount := ⟨rfl, rfl, rfl⟩

/-- **No output is held twice**: in every run, the transfers have different output keys, so that an
amount that can be spent once is counted once. -/
theorem transfers_distinct (ha : Ordinary a) (h : WalletRun a (w :: ws)) :
    (w.transfers.map TransferDetails.getPublicKey).Nodup := by
  have hp := h.pubIndexed ha
  rw [List.Nodup, List.pairwise_map, List.pairwise_iff_getElem]
  intro i j hi hj hij hsame
  obtain ⟨key, hkey⟩ := Option.ne_none_iff_exists'.mp (hp.known _ (List.getElem_mem hj)).1
  have hplace := (hp.index key i).mpr ⟨_, List.getElem?_eq_getElem hi, hsame.trans hkey⟩
  rw [(hp.index key j).mpr ⟨_, List.getElem?_eq_getElem hj, hkey⟩] at hplace
  exact Nat.ne_of_gt hij (Option.some.inj hplace)

/-- The key that is paid twice is held once. -/
theorem transfers_distinct_sample :
    ((runEvents sampleAccount {} sampleEvents).transfers.map
      TransferDetails.getPublicKey).Nodup :=
  sampleRun.elim fun _ hrun => transfers_distinct ordinary_sample hrun

/-- A reorganisation of the three blocks is exact at the heights where it is. -/
theorem handleReorg_exact_iff_sample : ∃ ws,
    WalletRun sampleAccount (runEvents sampleAccount {} sampleEvents :: ws) ∧
      ((∃ s ∈ runEvents sampleAccount {} sampleEvents :: ws, Collides s) ∨
        ∃ w', (runEvents sampleAccount {} sampleEvents).handleReorg 1 = .ok w' ∧
          (DetachesExactly 1 (runEvents sampleAccount {} sampleEvents) w' ↔
            HeightLast 1 (runEvents sampleAccount {} sampleEvents))) := by
  obtain ⟨ws, hrun⟩ := sampleRun
  exact ⟨ws, hrun, handleReorg_exact_iff ordinary_sample hrun 1 (by decide)⟩

/-- Detaching the third block loses the output of the second one. -/
theorem handleReorg_loses : ∃ ws,
    WalletRun sampleAccount (runEvents sampleAccount {} sampleEvents :: ws) ∧
      ∃ w', (runEvents sampleAccount {} sampleEvents).handleReorg 2 = .ok w' ∧
        ¬ DetachesExactly 2 (runEvents sampleAccount {} sampleEvents) w' := by
  obtain ⟨ws, hrun⟩ := sampleRun
  refine ⟨ws, hrun, ?_⟩
  have hleft : ((runEvents sampleAccount {} sampleEvents).handleReorg 2).toOption.map
      (fun w' => w'.transfers.length) = some 0 := by decide
  have hbelow : ((runEvents sampleAccount {} sampleEvents).transfers.filter
      fun td => td.blockHeight < 2).length = 1 := by decide
  cases hok : (runEvents sampleAccount {} sampleEvents).handleReorg 2 with
  | error f =>
    rw [hok] at hleft
    cases hleft
  | ok w' =>
    rw [hok] at hleft
    have hnone : w'.transfers.length = 0 := Option.some.inj hleft
    refine ⟨w', rfl, fun hexact => ?_⟩
    have hlength := congrArg List.length hexact.transfers
    rw [List.length_map, hbelow, hnone] at hlength
    cases hlength

end Hashmonkey.Wallet
