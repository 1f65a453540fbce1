import Hashmonkey.Multisig.KexRound
import Mathlib.Algebra.Order.BigOperators.Group.Finset

/-!
# How many keys a key exchange round has (`multisig_account_kex_impl.cpp`)

In a round `r` of an honest exchange every key belongs to `r` signers. The evaluation of a round's
messages asks that each key has **at least** `r` recommendations, and that each of the other signers
recommends `N - 2` choose `r - 1` keys. Counting the recommendations by keys and by signers, the
keys are `N - 1` choose `r` when each has exactly `r` recommendations.

Nothing keeps dishonest signers from recommending one key more often. Three signers that all
recommend the same two keys in the second round of an exchange of four pass all checks, with two
keys in the place of three (`evaluate_fewer_keys`).

Result: **`evaluate_exact_iff`**, the returned map has the right number of keys with exactly `r`
recommendations each if and only if no `r + 1` of the other signers recommend a common key.
-/

namespace Hashmonkey.Multisig

open Finset

variable {S K : Type} [DecidableEq K]

/-- The signers other than the local one whose messages recommend a key. -/
def recommenders (basePubkey : K) (msgs : List (KexMsg S K)) (k : K) : Finset K :=
  ((msgs.filter fun msg => k ∈ msg.recommended).map KexMsg.signingPubkey).toFinset.erase basePubkey

theorem mem_recommenders {basePubkey : K} {msgs : List (KexMsg S K)} {k o : K} :
    o ∈ recommenders basePubkey msgs k ↔
      o ≠ basePubkey ∧ ∃ msg ∈ msgs, msg.signingPubkey = o ∧ k ∈ msg.recommended := by
  simp [recommenders]
  grind

/-- The keys of a round are as they are among honest signers: `r` recommendations for each, and
`N - 1` choose `r` keys. -/
def ExactKeys (basePubkey : K) (r : ℕ) (signers : List K) (msgs : List (KexMsg S K))
    (m : KeysetMap K) : Prop :=
  (∀ k ∈ m.keys, (recommenders basePubkey msgs k).card = r) ∧
    m.keys.card = (signers.length - 1).choose r

/-- No `r + 1` signers other than the local one recommend a common key, outside the excluded
ones. -/
def NoCommonKey (basePubkey : K) (r : ℕ) (msgs : List (KexMsg S K)) (exclude : List K) : Prop :=
  ¬ ∃ k, k ∉ exclude ∧ ∃ T : Finset K, T.card = r + 1 ∧ ∀ o ∈ T, o ≠ basePubkey ∧
    ∃ msg ∈ msgs, msg.signingPubkey = o ∧ k ∈ msg.recommended

/-! ## Counting recommendations -/

/-- The elements of a set, counted by one coordinate. -/
theorem card_eq_sum_image {α : Type} (m : Finset α) {f g : α → K}
    (hfg : ∀ e1 e2, f e1 = f e2 → g e1 = g e2 → e1 = e2) :
    m.card = ∑ k ∈ m.image f, ((m.filter fun e => f e = k).image g).card := by
  rw [card_eq_sum_card_image f m]
  refine sum_congr rfl fun k _ => (card_image_of_injOn ?_).symm
  intro e1 h1 e2 h2 heq
  exact hfg e1 e2 ((mem_filter.mp h1).2.trans (mem_filter.mp h2).2.symm) heq

/-- The pairs of a map, counted by keys. -/
theorem KeysetMap.card_eq_sum_origins (m : KeysetMap K) :
    m.card = ∑ k ∈ m.keys, (m.origins k).card :=
  card_eq_sum_image m fun _ _ => Prod.ext

/-- The pairs of a map, counted by origins. -/
theorem KeysetMap.card_eq_sum_pubkeysOf (m : KeysetMap K) :
    m.card = ∑ o ∈ m.allOrigins, (m.pubkeysOf o).card :=
  card_eq_sum_image m fun _ _ hsnd hfst => Prod.ext hfst hsnd

theorem nChooseK_eq {n k : ℕ} (h : 0 < nChooseK n k) : nChooseK n k = n.choose k := by
  unfold nChooseK at h ⊢
  split_ifs at h ⊢
  · cases h
  · cases h
  · rfl

namespace Evaluated

variable {basePubkey : K} {r : ℕ} {signers : List K} {msgs : List (KexMsg S K)} {exclude : List K}
  {m : KeysetMap K}

theorem round_pos (h : Evaluated basePubkey r signers msgs exclude m) : 0 < r := by
  obtain ⟨msg, hmsg⟩ := List.exists_mem_of_ne_nil msgs h.msgs_ne
  exact h.rounds msg hmsg ▸ msg.round_pos

/-- The origins in the map are all signers but the local one. -/
theorem allOrigins_card (h : Evaluated basePubkey r signers msgs exclude m)
    (hnodup : signers.Nodup) (hbase : basePubkey ∈ signers) :
    m.allOrigins.card = signers.length - 1 := by
  have hsub : m.allOrigins ⊆ signers.toFinset.erase basePubkey := by
    intro o ho
    obtain ⟨k, hk⟩ := KeysetMap.mem_allOrigins.mp ho
    exact mem_erase.mpr ⟨((h.mem_iff k o).mp hk).2, List.mem_toFinset.mpr (h.origins_mem o ho)⟩
  have hcard : (signers.toFinset.erase basePubkey).card = signers.length - 1 := by
    rw [card_erase_of_mem (List.mem_toFinset.mpr hbase), List.toFinset_card_of_nodup hnodup]
  exact le_antisymm (hcard ▸ card_le_card hsub) h.signers_le

/-- A key's origins in the map are the signers that recommend it. -/
theorem origins_eq (h : Evaluated basePubkey r signers msgs exclude m) {k : K}
    (hk : k ∈ m.keys) : m.origins k = recommenders basePubkey msgs k := by
  obtain ⟨o0, ho0⟩ := KeysetMap.mem_keys.mp hk
  obtain ⟨⟨msg0, hmsg0, -, -, hallowed⟩, -⟩ := (h.mem_iff k o0).mp ho0
  ext o
  rw [KeysetMap.mem_origins, h.mem_iff, mem_recommenders]
  constructor
  · rintro ⟨⟨msg, hmsg, hsigner, hrec, -⟩, hne⟩
    exact ⟨hne, msg, hmsg, hsigner, hrec⟩
  · rintro ⟨hne, msg, hmsg, hsigner, hrec⟩
    -- all messages are of one round, so that what allowed the key once allows it here
    rw [h.rounds msg0 hmsg0, ← h.rounds msg hmsg] at hallowed
    exact ⟨⟨msg, hmsg, hsigner, hrec, hallowed⟩, hne⟩

/-- **With exactly `r` recommendations for each key, the keys are `N - 1` choose `r`.** -/
theorem keys_card (h : Evaluated basePubkey r signers msgs exclude m) (hsize : 2 ≤ signers.length)
    (hnodup : signers.Nodup) (hbase : basePubkey ∈ signers)
    (hexact : ∀ k ∈ m.keys, (m.origins k).card = r) :
    m.keys.card = (signers.length - 1).choose r := by
  have hkeys : m.card = m.keys.card * r := by
    rw [m.card_eq_sum_origins, sum_const_nat hexact]
  have horigins : m.card = (signers.length - 1) * (signers.length - 2).choose (r - 1) := by
    rw [m.card_eq_sum_pubkeysOf, sum_const_nat h.pubkeys_card, h.allOrigins_card hnodup hbase,
      nChooseK_eq h.others_pos]
  obtain ⟨n, hn⟩ : ∃ n, signers.length = n + 2 := ⟨signers.length - 2, by omega⟩
  obtain ⟨j, hj⟩ : ∃ j, r = j + 1 := ⟨r - 1, by have := h.round_pos; omega⟩
  have hchoose := Nat.add_one_mul_choose_eq n j
  rw [hkeys, hn, hj] at horigins
  rw [hn, hj]
  refine Nat.eq_of_mul_eq_mul_right (Nat.succ_pos j) ?_
  exact horigins.trans hchoose

theorem recommenders_le (h : Evaluated basePubkey r signers msgs exclude m)
    (hcommon : NoCommonKey basePubkey r msgs exclude) {k : K} (hk : k ∈ m.keys) :
    (recommenders basePubkey msgs k).card ≤ r := by
  by_cases hexclude : k ∈ exclude
  · -- an excluded key is in the map in the first round only, where it is its own origin
    obtain ⟨o, ho⟩ := KeysetMap.mem_keys.mp hk
    obtain ⟨⟨msg0, hmsg0, -, -, hallowed⟩, -⟩ := (h.mem_iff k o).mp ho
    have hfirst : r = 1 := (h.rounds msg0 hmsg0).symm.trans (hallowed.resolve_right (· hexclude))
    rw [hfirst]
    have hself : recommenders basePubkey msgs k ⊆ {k} := fun o ho => ?_
    · exact (card_le_card hself).trans (card_singleton k).le
    obtain ⟨-, msg, hmsg, hsigner, hrec⟩ := mem_recommenders.mp ho
    rw [KexMsg.recommended, if_pos ((h.rounds msg hmsg).trans hfirst), List.mem_singleton] at hrec
    rw [mem_singleton, ← hsigner, hrec]
  · by_contra hlt
    obtain ⟨T, hT, hcard⟩ := exists_subset_card_eq (Nat.succ_le_of_lt (not_le.mp hlt))
    exact hcommon ⟨k, hexclude, T, hcard, fun o ho => mem_recommenders.mp (hT ho)⟩

end Evaluated

/-- **The evaluation guarantees the keys of an honest round exactly when no `r + 1` of the other
signers recommend a common key.** -/
theorem evaluate_exact_iff {basePubkey : K} {r : ℕ} {signers : List K} {msgs : List (KexMsg S K)}
    {exclude : List K} {m : KeysetMap K} (hsize : 2 ≤ signers.length) (hnodup : signers.Nodup)
    (hbase : basePubkey ∈ signers)
    (h : evaluateKexRoundMsgs basePubkey r signers msgs exclude false = .ok m) :
    ExactKeys basePubkey r signers msgs m ↔ NoCommonKey basePubkey r msgs exclude := by
  have hm := evaluateKexRoundMsgs_ok.mp h
  constructor
  · rintro ⟨hexact, -⟩ ⟨k, hexclude, T, hcard, hT⟩
    obtain ⟨o, ho⟩ : T.Nonempty := card_pos.mp (by omega)
    obtain ⟨hne, msg, hmsg, hsigner, hrec⟩ := hT o ho
    have hk : k ∈ m.keys := KeysetMap.mem_keys.mpr
      ⟨o, (hm.mem_iff k o).mpr ⟨⟨msg, hmsg, hsigner, hrec, .inr hexclude⟩, hne⟩⟩
    have hsub : T ⊆ recommenders basePubkey msgs k := fun o ho => mem_recommenders.mpr (hT o ho)
    have hle := card_le_card hsub
    rw [hcard, hexact k hk] at hle
    exact Nat.not_succ_le_self r hle
  · intro hcommon
    have hexact : ∀ k ∈ m.keys, (m.origins k).card = r := by
      intro k hk
      refine le_antisymm ?_ (hm.recommendations k hk)
      rw [hm.origins_eq hk]
      exact hm.recommenders_le hcommon hk
    exact ⟨fun k hk => hm.origins_eq hk ▸ hexact k hk, hm.keys_card hsize hnodup hbase hexact⟩

/-- The messages of the first round of signers 0, 1 and 2. -/
def threeSigners : List (KexMsg Unit ℕ) :=
  [⟨1, 0, [], (), by decide⟩, ⟨1, 1, [], (), by decide⟩, ⟨1, 2, [], (), by decide⟩]

theorem evaluate_exact_three_signers :
    ExactKeys 0 1 [0, 1, 2] threeSigners ({(2, 2), (1, 1)} : KeysetMap ℕ) ↔
      NoCommonKey 0 1 threeSigners [0] :=
  evaluate_exact_iff (by decide) (by decide) (by decide) (by rfl)

/-- The messages of the second round of signers 1, 2 and 3 that agree on two keys. -/
def agreeingSigners : List (KexMsg Unit ℕ) :=
  [⟨2, 1, [10, 11], (), by decide⟩, ⟨2, 2, [10, 11], (), by decide⟩,
    ⟨2, 3, [10, 11], (), by decide⟩]

/-- **Three of four signers that agree on two keys pass the checks of the second round**, with three
recommendations for each key, and two keys where there should be three. -/
theorem evaluate_fewer_keys :
    ¬ ∀ (basePubkey : ℕ) (r : ℕ) (signers : List ℕ) (msgs : List (KexMsg Unit ℕ))
      (exclude : List ℕ) (m : KeysetMap ℕ), 2 ≤ signers.length → signers.Nodup →
      basePubkey ∈ signers →
      evaluateKexRoundMsgs basePubkey r signers msgs exclude false = .ok m →
      ExactKeys basePubkey r signers msgs m := by
  intro h
  have hexact := h 0 2 [0, 1, 2, 3] agreeingSigners [20, 21, 22]
    ({(11, 3), (10, 3), (11, 2), (10, 2), (11, 1), (10, 1)}) (by decide) (by decide) (by decide)
    (by rfl)
  exact absurd hexact.2 (by decide)

end Hashmonkey.Multisig
