import Mathlib.Algebra.GroupWithZero.Nat
import Mathlib.Data.Finset.Card
import Mathlib.Data.Nat.Choose.Basic

/-!
# The messages of a multisig key exchange round

A model of the part of `multisig_account_kex_impl.cpp` that evaluates the messages of a round:
`multisig_kex_msgs_sanitize_pubkeys` and `evaluate_multisig_kex_round_msgs`, with the message type
of `multisig_kex_msg`.

* A `multisig_keyset_map_memsafe_t` maps public keys to sets of origins. No set in it is ever empty,
  so that it is the set of its pairs here (`KeysetMap`), and the order in which the unordered map is
  walked through does not show.
* A message is its contents; the text form with its signature is not modelled. The constructors of
  `multisig_kex_msg` leave no message of round 0.
* `boost::math::binomial_coefficient<double>` is exact where the number of signers is limited to 16.
  `check_multisig_config` runs before the evaluation, so that the unsigned subtractions from the
  number of signers do not wrap.
-/

namespace Hashmonkey.Multisig

open List

/-! ## Checks that throw -/

/-- `CHECK_AND_ASSERT_THROW_MES`. -/
def checkAndAssert (c : Prop) [Decidable c] (text : String) : Except String Unit :=
  if c then .ok () else .error text

theorem checkAndAssert_bind {α : Type} {c : Prop} [Decidable c] {text : String}
    {f : Unit → Except String α} {x : α} :
    (checkAndAssert c text >>= f) = .ok x ↔ c ∧ f () = .ok x := by
  unfold checkAndAssert
  by_cases hc : c
  · rw [if_pos hc]
    exact ⟨fun h => ⟨hc, h⟩, fun h => h.2⟩
  rw [if_neg hc]
  exact ⟨nofun, fun h => absurd h.1 hc⟩

/-! ## Maps from keys to origins -/

/-- `multisig_keyset_map_memsafe_t`: the pairs of a key and one of its origins. -/
abbrev KeysetMap (K : Type) := Finset (K × K)

namespace KeysetMap

variable {K : Type} [DecidableEq K] (m : KeysetMap K)

/-- The keys of a map. -/
def keys : Finset K := m.image Prod.fst

/-- The origins of a key. -/
def origins (k : K) : Finset K := (m.filter fun e => e.1 = k).image Prod.snd

/-- The origins in a map: the keys of `origin_pubkeys_map`. -/
def allOrigins : Finset K := m.image Prod.snd

/-- The keys of an origin: an entry of `origin_pubkeys_map`. -/
def pubkeysOf (o : K) : Finset K := (m.filter fun e => e.2 = o).image Prod.fst

/-- `remove_key_from_mapped_sets`: a key that has no other origin goes, too. -/
def removeKeyFromMappedSets (key : K) : KeysetMap K := m.filter fun e => e.2 ≠ key

variable {m} {k o : K}

theorem mem_keys : k ∈ m.keys ↔ ∃ o, (k, o) ∈ m := by simp [keys]

@[simp] theorem mem_origins : o ∈ m.origins k ↔ (k, o) ∈ m := by simp [origins]

theorem mem_allOrigins : o ∈ m.allOrigins ↔ ∃ k, (k, o) ∈ m := by simp [allOrigins]

theorem mem_removeKey {key : K} :
    (k, o) ∈ m.removeKeyFromMappedSets key ↔ (k, o) ∈ m ∧ o ≠ key := by
  simp [removeKeyFromMappedSets]

end KeysetMap

/-! ## Messages -/

/-- `multisig_kex_msg`. -/
structure KexMsg (S K : Type) where
  round : ℕ
  signingPubkey : K
  msgPubkeys : List K
  msgPrivkey : S
  round_pos : 0 < round

variable {S K : Type} [DecidableEq K]

/-- `check_messages_round`. -/
def checkMessagesRound (msgs : List (KexMsg S K)) (expectedRound : ℕ) : Except String Unit :=
  match msgs with
  | [] => .error "At least one input message expected."
  | first :: _ => do
    checkAndAssert (first.round = expectedRound)
      "Messages don't have the expected kex round number."
    checkAndAssert (∀ msg ∈ msgs, msg.round = first.round)
      "All messages must have the same kex round number."

/-- What one message adds to the sanitized keys: in the first round its signer, later the keys in
it that are not excluded. -/
def sanitizeMsg (round : ℕ) (exclude : List K) (map : KeysetMap K) (msg : KexMsg S K) :
    KeysetMap K :=
  if round = 1 then insert (msg.signingPubkey, msg.signingPubkey) map
  else msg.msgPubkeys.foldl (fun map k =>
    if k ∈ exclude then map else insert (k, msg.signingPubkey) map) map

/-- `multisig_kex_msgs_sanitize_pubkeys`: the round of the messages, and the keys in them with the
signers that recommended them. -/
def msgsSanitizePubkeys (msgs : List (KexMsg S K)) (exclude : List K) :
    Except String (ℕ × KeysetMap K) :=
  match msgs with
  | [] => .error "At least one input message expected."
  | first :: _ => do
    checkMessagesRound msgs first.round
    return (first.round, msgs.foldl (sanitizeMsg first.round exclude) ∅)

/-! ## Evaluation of a round -/

/-- `n_choose_k_f`. -/
def nChooseK (n k : ℕ) : ℕ :=
  if n < k then 0 else if 2 ^ 31 - 1 < n.choose k then 0 else n.choose k

/-- `evaluate_multisig_kex_round_msgs`. -/
def evaluateKexRoundMsgs (basePubkey : K) (expectedRound : ℕ) (signers : List K)
    (msgs : List (KexMsg S K)) (exclude : List K) (incompleteSignerSet : Bool) :
    Except String (KeysetMap K) := do
  checkAndAssert exclude.Nodup "Found duplicate pubkeys for exclusion unexpectedly."
  let (round, sanitized) ← msgsSanitizePubkeys msgs exclude
  checkAndAssert (round = expectedRound) ("Kex messages were for round [" ++ toString round ++
    "], but expected round is [" ++ toString expectedRound ++ "]")
  let map := sanitized.removeKeyFromMappedSets basePubkey
  let recommendationsRequired := if incompleteSignerSet then 1 else round
  checkAndAssert (∀ k ∈ map.keys, recommendationsRequired ≤ (map.origins k).card)
    "A pubkey recommended by multisig kex messages had an unexpected number of recommendations."
  let signersRequired :=
    if incompleteSignerSet then signers.length - 1 - (round - 1) else signers.length - 1
  checkAndAssert (signersRequired ≤ map.allOrigins.card)
    ("Number of unique other signers recommending pubkeys does not equal number of required " ++
      "other signers (kex round: " ++ toString round ++ ", num signers found: " ++
      toString map.allOrigins.card ++ ", num signers required: " ++ toString signersRequired ++
      ").")
  let others := nChooseK (signers.length - 2) (round - 1)
  let self := nChooseK (signers.length - 1) (round - 1)
  checkAndAssert (0 < self ∧ 0 < others)
    "Bad num signers or round num (possibly numerical limits exceeded)."
  checkAndAssert (exclude.length = self)
    "Local account did not recommend expected number of multisig keys."
  checkAndAssert (∀ o ∈ map.allOrigins, (map.pubkeysOf o).card = others)
    "A multisig signer recommended an unexpected number of pubkeys."
  checkAndAssert (∀ o ∈ map.allOrigins, o ∈ signers)
    "Multisig kex message with unexpected signer encountered."
  return map

/-! ## What the sanitized map holds -/

/-- The keys that a message recommends: in the first round its signer alone. -/
def KexMsg.recommended (msg : KexMsg S K) : List K :=
  if msg.round = 1 then [msg.signingPubkey] else msg.msgPubkeys

/-- A signer recommends a key, which is not excluded unless this is the first round. -/
def Recommends (msgs : List (KexMsg S K)) (exclude : List K) (k o : K) : Prop :=
  ∃ msg ∈ msgs, msg.signingPubkey = o ∧ k ∈ msg.recommended ∧ (msg.round = 1 ∨ k ∉ exclude)

variable {msgs : List (KexMsg S K)} {r : ℕ}

omit [DecidableEq K] in
theorem checkMessagesRound_ok :
    checkMessagesRound msgs r = .ok () ↔ msgs ≠ [] ∧ ∀ msg ∈ msgs, msg.round = r := by
  cases msgs with
  | nil => exact ⟨nofun, fun h => absurd rfl h.1⟩
  | cons first rest =>
    rw [checkMessagesRound, checkAndAssert_bind]
    constructor
    · rintro ⟨rfl, h⟩
      refine ⟨cons_ne_nil _ _, ?_⟩
      by_contra hne
      rw [checkAndAssert, if_neg hne] at h
      cases h
    · rintro ⟨-, h⟩
      have hfirst := h first mem_cons_self
      exact ⟨hfirst, if_pos (hfirst ▸ h)⟩

variable {exclude : List K} {map : KeysetMap K} {k o : K}

theorem mem_foldl_keys {signer : K} {keys : List K} :
    (k, o) ∈ keys.foldl (fun map k => if k ∈ exclude then map else insert (k, signer) map) map ↔
      (k, o) ∈ map ∨ (o = signer ∧ k ∈ keys ∧ k ∉ exclude) := by
  induction keys generalizing map with
  | nil => simp
  | cons l keys ih =>
    rw [foldl_cons, ih]
    split_ifs with hl
    · grind
    grind

theorem mem_sanitizeMsg {msg : KexMsg S K} (hr : msg.round = r) :
    (k, o) ∈ sanitizeMsg r exclude map msg ↔ (k, o) ∈ map ∨
      (msg.signingPubkey = o ∧ k ∈ msg.recommended ∧ (msg.round = 1 ∨ k ∉ exclude)) := by
  unfold sanitizeMsg KexMsg.recommended
  split_ifs with h1 h2 h2
  · grind
  · exact absurd (hr.trans h1) h2
  · exact absurd (hr.symm.trans h2) h1
  rw [mem_foldl_keys]
  grind

theorem mem_foldl_sanitizeMsg (hr : ∀ msg ∈ msgs, msg.round = r) :
    (k, o) ∈ msgs.foldl (sanitizeMsg r exclude) map ↔
      (k, o) ∈ map ∨ Recommends msgs exclude k o := by
  induction msgs generalizing map with
  | nil => simp [Recommends]
  | cons msg msgs ih =>
    obtain ⟨hmsg, hmsgs⟩ := forall_mem_cons.mp hr
    rw [foldl_cons, ih hmsgs, mem_sanitizeMsg hmsg]
    simp only [Recommends, exists_mem_cons_iff, or_assoc]

/-- **The sanitized map holds the recommendations.** -/
theorem msgsSanitizePubkeys_ok (hne : msgs ≠ [])
    (hr : ∀ msg ∈ msgs, msg.round = r) (exclude : List K) :
    ∃ map, msgsSanitizePubkeys msgs exclude = .ok (r, map) ∧
      ∀ k o, (k, o) ∈ map ↔ Recommends msgs exclude k o := by
  obtain ⟨first, rest, rfl⟩ := exists_cons_of_ne_nil hne
  have hfirst := hr first mem_cons_self
  have hcheck : checkMessagesRound (first :: rest) first.round = .ok () :=
    checkMessagesRound_ok.mpr ⟨hne, hfirst ▸ hr⟩
  refine ⟨(first :: rest).foldl (sanitizeMsg r exclude) ∅, ?_, fun k o => ?_⟩
  · rw [msgsSanitizePubkeys, hcheck, hfirst]
    rfl
  · rw [mem_foldl_sanitizeMsg hr]
    simp

theorem rounds_of_sanitize {x : ℕ × KeysetMap K} (h : msgsSanitizePubkeys msgs exclude = .ok x) :
    msgs ≠ [] ∧ ∀ msg ∈ msgs, msg.round = x.1 := by
  cases msgs with
  | nil => cases h
  | cons first rest =>
    rw [msgsSanitizePubkeys] at h
    cases hcheck : checkMessagesRound (first :: rest) first.round with
    | error text =>
      rw [hcheck] at h
      cases h
    | ok u =>
      rw [hcheck] at h
      cases h
      exact checkMessagesRound_ok.mp hcheck

/-! ## When the evaluation succeeds -/

/-- What `evaluate_multisig_kex_round_msgs` has found when it returns a map for a complete set of
signers. -/
structure Evaluated (basePubkey : K) (r : ℕ) (signers : List K) (msgs : List (KexMsg S K))
    (exclude : List K) (m : KeysetMap K) : Prop where
  nodup : exclude.Nodup
  msgs_ne : msgs ≠ []
  rounds : ∀ msg ∈ msgs, msg.round = r
  mem_iff : ∀ k o, (k, o) ∈ m ↔ Recommends msgs exclude k o ∧ o ≠ basePubkey
  recommendations : ∀ k ∈ m.keys, r ≤ (m.origins k).card
  signers_le : signers.length - 1 ≤ m.allOrigins.card
  self_pos : 0 < nChooseK (signers.length - 1) (r - 1)
  others_pos : 0 < nChooseK (signers.length - 2) (r - 1)
  exclude_length : exclude.length = nChooseK (signers.length - 1) (r - 1)
  pubkeys_card : ∀ o ∈ m.allOrigins,
    (m.pubkeysOf o).card = nChooseK (signers.length - 2) (r - 1)
  origins_mem : ∀ o ∈ m.allOrigins, o ∈ signers

/-- **The evaluation of a complete set of signers returns a map exactly when all its checks
hold.** -/
theorem evaluateKexRoundMsgs_ok {basePubkey : K} {signers : List K} {m : KeysetMap K} :
    evaluateKexRoundMsgs basePubkey r signers msgs exclude false = .ok m ↔
      Evaluated basePubkey r signers msgs exclude m := by
  constructor
  · intro h
    obtain ⟨hnodup, h⟩ := checkAndAssert_bind.mp h
    cases hs : msgsSanitizePubkeys msgs exclude with
    | error text =>
      rw [hs] at h
      cases h
    | ok x =>
      rw [hs] at h
      obtain ⟨hne, hrounds⟩ := rounds_of_sanitize hs
      obtain ⟨map, hmap, hmem⟩ := msgsSanitizePubkeys_ok hne hrounds exclude
      rw [hs] at hmap
      obtain rfl : x.2 = map := congrArg Prod.snd (Except.ok.inj hmap)
      obtain ⟨hround, h⟩ := checkAndAssert_bind.mp h
      obtain ⟨hrec, h⟩ := checkAndAssert_bind.mp h
      obtain ⟨hsigners, h⟩ := checkAndAssert_bind.mp h
      obtain ⟨hpos, h⟩ := checkAndAssert_bind.mp h
      obtain ⟨hexclude, h⟩ := checkAndAssert_bind.mp h
      obtain ⟨hcard, h⟩ := checkAndAssert_bind.mp h
      obtain ⟨hmem', h⟩ := checkAndAssert_bind.mp h
      cases h
      subst hround
      refine ⟨hnodup, hne, hrounds, fun k o => ?_, hrec, hsigners, hpos.1, hpos.2, hexclude, hcard,
        hmem'⟩
      rw [KeysetMap.mem_removeKey, hmem]
  · intro h
    obtain ⟨map, hmap, hmem⟩ := msgsSanitizePubkeys_ok h.msgs_ne h.rounds exclude
    have hm : map.removeKeyFromMappedSets basePubkey = m := by
      ext ⟨k, o⟩
      rw [KeysetMap.mem_removeKey, hmem, h.mem_iff]
    refine checkAndAssert_bind.mpr ⟨h.nodup, ?_⟩
    rw [hmap]
    refine checkAndAssert_bind.mpr ⟨rfl, ?_⟩
    simp only [hm]
    refine checkAndAssert_bind.mpr ⟨h.recommendations, ?_⟩
    refine checkAndAssert_bind.mpr ⟨h.signers_le, ?_⟩
    refine checkAndAssert_bind.mpr ⟨⟨h.self_pos, h.others_pos⟩, ?_⟩
    refine checkAndAssert_bind.mpr ⟨h.exclude_length, ?_⟩
    refine checkAndAssert_bind.mpr ⟨h.pubkeys_card, ?_⟩
    exact checkAndAssert_bind.mpr ⟨h.origins_mem, rfl⟩

end Hashmonkey.Multisig
