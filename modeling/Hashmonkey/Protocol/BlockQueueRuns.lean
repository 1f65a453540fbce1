import Hashmonkey.Protocol.BlockQueue
import Mathlib.Data.List.Nodup

/-!
# Runs of the queue of blocks (`block_queue.cpp`)

`requested_hashes` and `have_blocks` should be the hashes of the spans and of the spans with blocks.
Erasing a span erases its hashes from both, also those that another span records. Spans share
hashes, since `reserve_span` only looks whether the first of them is requested.

* `QueueOp`: the operations on a queue;
* `Sound`: the two indexes are exact and no hash is recorded twice;
* `Fresh`: the operations that keep this. Hashes that a span records come first among those of a
  peer, a span that is reserved does not take the place of blocks of the same peer, and blocks that
  are added are not empty.

Result: **`indexes_exact`**. After any number of such operations the indexes are exact, and no block
is requested twice (`requested_once`).
-/

namespace Hashmonkey.Protocol

open Std Basic Db Serialization List BlockQueue

variable {β : Type} {q : BlockQueue β}

/-! ## Operations -/

/-- An operation on a queue. -/
inductive QueueOp (β : Type)
  | reserveSpan (r : ReserveArgs)
  | addBlocks (height : Nat) (bcel : List β) (connectionId : Uuid)
  | addSpan (height nblocks : Nat) (connectionId : Uuid)
  | flushSpans (connectionId : Uuid) (all : Bool)
  | flushStaleSpans (live : List Uuid)
  | removeSpan (height : Nat)
  | removeSpans (connectionId : Uuid) (height : Nat)

/-- The queue after an operation. -/
def QueueOp.apply (q : BlockQueue β) : QueueOp β → BlockQueue β
  | .reserveSpan r => (q.reserveSpan r).2
  | .addBlocks height bcel connectionId => q.addBlocks height bcel connectionId
  | .addSpan height nblocks connectionId =>
    match q.addSpan height nblocks connectionId with
    | .error _ => q
    | .ok q => q
  | .flushSpans connectionId all => q.flushSpans connectionId all
  | .flushStaleSpans live => q.flushStaleSpans live
  | .removeSpan height => (q.removeSpan height).2
  | .removeSpans connectionId height => q.removeSpans connectionId height

/-- There are blocks in the span at a height. -/
def BlockQueue.FilledAt (q : BlockQueue β) (height : Nat) : Prop :=
  ∃ s, q.blocks[height]? = some s ∧ s.blocks ≠ []

/-- The span at height `k` has the hash `h` for its block `i`. -/
def BlockQueue.RecordsAt (q : BlockQueue β) (k i : Nat) (h : Hash) : Prop :=
  (q.hashesAt k)[i]? = some h

/-- The two indexes are exact and no hash is recorded twice. -/
structure Sound (q : BlockQueue β) : Prop where
  requested : ∀ h, h ∈ q.requestedHashes ↔ ∃ k i, q.RecordsAt k i h
  have_ : ∀ h n, q.haveBlocks[h]? = some n ↔
    ∃ k i, q.FilledAt k ∧ q.RecordsAt k i h ∧ n = k + i
  distinct : ∀ {k k' i i' h}, q.RecordsAt k i h → q.RecordsAt k' i' h → k = k' ∧ i = i'

/-- The operations that keep the indexes exact. -/
def Fresh (q : BlockQueue β) : QueueOp β → Prop
  | .reserveSpan r =>
    (r.blockHashes.map Prod.fst).Nodup ∧
      (∀ h ∈ r.blockHashes.drop (q.skipRequested r.blockHashes), q.requested h.1 = false) ∧
      ∀ i h s, r.blockHashes[i]? = some h → q.requested h.1 = false →
        q.blocks[r.hashesStart + i]? = some s → s.connectionId = r.connectionId → s.blocks = []
  | .addBlocks _ bcel _ => bcel ≠ []
  | _ => True

/-! ## Erasing -/

theorem hashesAt_eraseBlock (q : BlockQueue β) (height k : Nat) :
    (q.eraseBlock height).hashesAt k = if k = height then [] else q.hashesAt k := by
  unfold hashesAt
  rw [eraseBlock_blocks]
  split
  · rfl
  · rfl

theorem filledAt_eraseBlock (q : BlockQueue β) (height k : Nat) :
    (q.eraseBlock height).FilledAt k ↔ k ≠ height ∧ q.FilledAt k := by
  unfold BlockQueue.FilledAt
  rw [eraseBlock_blocks]
  by_cases hk : k = height
  · simp [hk]
  · simp [hk]

variable {height : Nat} {h : Hash}

theorem mem_hashesAt : h ∈ q.hashesAt height ↔ ∃ i, q.RecordsAt height i h := mem_iff_getElem?

/-- Other hashes, that are not requested, take the place of those at a height, and no blocks are
there. -/
theorem Sound.replace {q' : BlockQueue β} {hashes : List Hash} (hq : Sound q)
    (hhashes : ∀ k, q'.hashesAt k = if k = height then hashes else q.hashesAt k)
    (hfilled : ∀ k, q'.FilledAt k ↔ k ≠ height ∧ q.FilledAt k)
    (hrequested : ∀ x, x ∈ q'.requestedHashes ↔
      x ∈ hashes ∨ (x ∈ q.requestedHashes ∧ x ∉ q.hashesAt height))
    (hhave : ∀ x, q'.haveBlocks[x]? = if x ∈ q.hashesAt height then none else q.haveBlocks[x]?)
    (hnodup : hashes.Nodup) (hnew : ∀ h ∈ hashes, h ∉ q.requestedHashes) : Sound q' := by
  have hrecords : ∀ k i h, q'.RecordsAt k i h ↔
      if k = height then hashes[i]? = some h else q.RecordsAt k i h := by
    intro k i h
    unfold BlockQueue.RecordsAt
    rw [hhashes]
    split
    · rfl
    · rfl
  refine ⟨fun h => ?_, fun h n => ?_, fun {k k' i i' h} hki hki' => ?_⟩
  · rw [hrequested, hq.requested, mem_hashesAt]
    simp only [hrecords]
    constructor
    · rintro (hmem | ⟨⟨k, i, hki⟩, hnot⟩)
      · obtain ⟨i, hi⟩ := mem_iff_getElem?.mp hmem
        exact ⟨height, i, by rw [if_pos rfl]; exact hi⟩
      · have hk : k ≠ height := by
          rintro rfl
          exact hnot ⟨i, hki⟩
        exact ⟨k, i, by rw [if_neg hk]; exact hki⟩
    · rintro ⟨k, i, hki⟩
      by_cases hk : k = height
      · rw [if_pos hk] at hki
        exact .inl (mem_of_getElem? hki)
      rw [if_neg hk] at hki
      exact .inr ⟨⟨k, i, hki⟩, fun ⟨j, hj⟩ => hk (hq.distinct hki hj).1⟩
  · rw [hhave]
    simp only [hfilled, hrecords]
    split
    · rename_i hmem
      obtain ⟨j, hj⟩ := mem_hashesAt.mp hmem
      constructor
      · exact fun hnone => by cases hnone
      · rintro ⟨k, i, ⟨hk, _⟩, hki, _⟩
        rw [if_neg hk] at hki
        exact absurd (hq.distinct hki hj).1 hk
    · rename_i hmem
      rw [hq.have_]
      constructor
      · rintro ⟨k, i, hk, hki, rfl⟩
        have hne : k ≠ height := by
          rintro rfl
          exact hmem (mem_hashesAt.mpr ⟨i, hki⟩)
        exact ⟨k, i, ⟨hne, hk⟩, by rw [if_neg hne]; exact hki, rfl⟩
      · rintro ⟨k, i, ⟨hne, hk⟩, hki, rfl⟩
        rw [if_neg hne] at hki
        exact ⟨k, i, hk, hki, rfl⟩
  · -- a new hash is not one that another span has
    have hcross : ∀ {k i j : Nat}, hashes[j]? = some h → q.RecordsAt k i h → False := by
      intro k i j hj hki
      exact hnew h (mem_of_getElem? hj) ((hq.requested h).mpr ⟨k, i, hki⟩)
    rw [hrecords] at hki hki'
    by_cases hk : k = height
    · rw [if_pos hk] at hki
      by_cases hk' : k' = height
      · rw [if_pos hk'] at hki'
        obtain ⟨hi, hati⟩ := List.getElem?_eq_some_iff.mp hki
        obtain ⟨hi', hati'⟩ := List.getElem?_eq_some_iff.mp hki'
        exact ⟨hk.trans hk'.symm, (List.Nodup.getElem_inj_iff hnodup).mp (hati.trans hati'.symm)⟩
      · rw [if_neg hk'] at hki'
        exact (hcross hki hki').elim
    · rw [if_neg hk] at hki
      by_cases hk' : k' = height
      · rw [if_pos hk'] at hki'
        exact (hcross hki' hki).elim
      rw [if_neg hk'] at hki'
      exact hq.distinct hki hki'

/-- **Erasing a span keeps the indexes exact**, since no other span has its hashes. -/
theorem Sound.eraseBlock (hq : Sound q) (height : Nat) : Sound (q.eraseBlock height) :=
  hq.replace (hashesAt_eraseBlock q height) (filledAt_eraseBlock q height)
    (fun x => by simp [mem_eraseBlock]) (have_eraseBlock q height) nodup_nil (forall_mem_nil _)

theorem Sound.eraseBlocks (hq : Sound q) (spans : List (Nat × Span β)) :
    Sound (spans.foldl (fun q s => q.eraseBlock s.1) q) :=
  foldlRecOn spans _ hq fun _ hq s _ => hq.eraseBlock s.1

/-! ## Adding -/

/-- A span without hashes does not matter. -/
theorem Sound.withSpan (hq : Sound q) (height nblocks : Nat) (connectionId : Uuid) :
    Sound (q.withSpan height nblocks connectionId) := by
  have hrecords : ∀ k i h, (q.withSpan height nblocks connectionId).RecordsAt k i h ↔
      q.RecordsAt k i h := by
    intro k i h
    unfold BlockQueue.RecordsAt hashesAt
    rw [withSpan_blocks]
    split
    · rename_i hnew
      obtain ⟨rfl, hnone⟩ := hnew
      rw [hnone]
      rfl
    · rfl
  have hfilled : ∀ {k i h}, q.RecordsAt k i h →
      ((q.withSpan height nblocks connectionId).FilledAt k ↔ q.FilledAt k) := by
    intro k i h hki
    unfold BlockQueue.FilledAt
    rw [withSpan_blocks]
    split
    · rename_i hnew
      obtain ⟨rfl, hnone⟩ := hnew
      unfold BlockQueue.RecordsAt hashesAt at hki
      rw [hnone] at hki
      cases hki
    · rfl
  refine ⟨fun h => ?_, fun h n => ?_, fun hki hki' => ?_⟩
  · simp only [hrecords]
    exact hq.requested h
  · simp only [hrecords]
    refine (hq.have_ h n).trans ?_
    constructor
    · rintro ⟨k, i, hk, hki, rfl⟩
      exact ⟨k, i, (hfilled hki).mpr hk, hki, rfl⟩
    · rintro ⟨k, i, hk, hki, rfl⟩
      exact ⟨k, i, (hfilled hki).mp hk, hki, rfl⟩
  · rw [hrecords] at hki hki'
    exact hq.distinct hki hki'

theorem mem_noteHashes (q : BlockQueue β) (height : Nat) (hs : List Hash) (x : Hash) :
    x ∈ (q.noteHashes height hs).requestedHashes ↔ x ∈ hs ∨ x ∈ q.requestedHashes := by
  induction hs generalizing q height with
  | nil => simp [noteHashes]
  | cons h hs ih =>
    refine (ih _ _).trans ?_
    rw [ExtTreeSet.mem_insert, LawfulEqCmp.compare_eq_iff_eq, mem_cons, @eq_comm _ h x]
    exact or_left_comm.trans or_assoc.symm

theorem have_noteHashes_of_not_mem (q : BlockQueue β) (height : Nat) {hs : List Hash} {x : Hash}
    (hx : x ∉ hs) : (q.noteHashes height hs).haveBlocks[x]? = q.haveBlocks[x]? := by
  induction hs generalizing q height with
  | nil => rfl
  | cons h hs ih =>
    rw [mem_cons, not_or] at hx
    refine (ih _ _ hx.2).trans ?_
    rw [ExtTreeMap.getElem?_insertIfNew, if_neg]
    rintro ⟨hcmp, _⟩
    exact hx.1 (LawfulEqCmp.eq_of_compare hcmp).symm

theorem have_noteHashes_of_at {i : Nat} {hs : List Hash} {x : Hash}
    (hx : hs[i]? = some x) (hnodup : hs.Nodup) (hnone : q.haveBlocks[x]? = none) :
    (q.noteHashes height hs).haveBlocks[x]? = some (height + i) := by
  induction hs generalizing q height i with
  | nil => cases hx
  | cons h hs ih =>
    obtain ⟨hnot, hrest⟩ := nodup_cons.mp hnodup
    have hnew : x ∉ q.haveBlocks := by
      rw [ExtTreeMap.mem_iff_isSome_getElem?, hnone]
      simp
    cases i with
    | zero =>
      obtain rfl : h = x := Option.some.inj hx
      refine (have_noteHashes_of_not_mem _ _ hnot).trans ?_
      rw [ExtTreeMap.getElem?_insertIfNew, if_pos ⟨ReflCmp.compare_self, hnew⟩]
      rfl
    | succ i =>
      have hne : h ≠ x := by
        rintro rfl
        exact hnot (mem_of_getElem? hx)
      rw [← Nat.succ_add_eq_add_succ]
      refine ih hx hrest ?_
      rw [ExtTreeMap.getElem?_insertIfNew, if_neg fun h => hne (LawfulEqCmp.eq_of_compare h.1),
        hnone]

variable {connectionId : Uuid} {s : Span β}

theorem setSpanHashes_indexes (hs : q.blocks[height]? = some s)
    (hconn : s.connectionId = connectionId) (hashes : List Hash) (x : Hash) :
    (x ∈ (q.setSpanHashes height connectionId hashes).requestedHashes ↔
        x ∈ hashes ∨ (x ∈ q.requestedHashes ∧ x ∉ q.hashesAt height)) ∧
      (q.setSpanHashes height connectionId hashes).haveBlocks[x]? =
        if x ∈ q.hashesAt height then none else q.haveBlocks[x]? := by
  unfold BlockQueue.setSpanHashes
  rw [hs]
  dsimp only
  rw [if_neg (not_not.mpr hconn), mem_requestHashes, mem_eraseBlock, requestHashes_have,
    have_eraseBlock]
  exact ⟨Iff.rfl, rfl⟩

theorem hashesAt_of_some (hs : q.blocks[height]? = some s) : q.hashesAt height = s.hashes := by
  rw [hashesAt, hs]
  rfl

/-- What `add_blocks` does to the indexes: it notes the hashes of the span that was there. -/
theorem addBlocks_indexes (q : BlockQueue β) (height : Nat) (bcel : List β) (connectionId : Uuid)
    (x : Hash) :
    (x ∈ (q.addBlocks height bcel connectionId).requestedHashes ↔
        x ∈ q.hashesAt height ∨ x ∈ q.requestedHashes) ∧
      (x ∉ q.hashesAt height →
        (q.addBlocks height bcel connectionId).haveBlocks[x]? = q.haveBlocks[x]?) ∧
      ∀ i, q.RecordsAt height i x → (q.hashesAt height).Nodup →
        (q.addBlocks height bcel connectionId).haveBlocks[x]? = some (height + i) := by
  cases hs : q.blocks[height]? with
  | none =>
    unfold BlockQueue.RecordsAt hashesAt BlockQueue.addBlocks BlockQueue.removeSpan
      BlockQueue.eraseBlock
    rw [hs]
    exact ⟨(or_iff_right not_mem_nil).symm, fun _ => rfl, fun i hi => by cases hi⟩
  | some s =>
  have hold := hashesAt_of_some hs
  unfold BlockQueue.RecordsAt
  rw [hold]
  let q1 : BlockQueue β :=
    { q.eraseBlock height with
      blocks := (q.eraseBlock height).blocks.insertIfNew height
        { blocks := bcel, connectionId, nblocks := bcel.length } }
  have heq : q.addBlocks height bcel connectionId =
      (q1.noteHashes height s.hashes).setSpanHashes height connectionId s.hashes := by
    unfold BlockQueue.addBlocks BlockQueue.removeSpan
    rw [hs]
    rfl
  have hat : (q1.noteHashes height s.hashes).blocks[height]? =
      some { blocks := bcel, connectionId, nblocks := bcel.length } := by
    rw [noteHashes_blocks]
    exact (insert_eraseBlock q height _ height).trans (if_pos rfl)
  have hhave : q1.haveBlocks[x]? = if x ∈ s.hashes then none else q.haveBlocks[x]? :=
    (have_eraseBlock q height x).trans (by rw [hold])
  have hset := setSpanHashes_indexes hat rfl s.hashes x
  rw [heq, hset.1, hset.2, hashesAt_of_some hat, mem_noteHashes]
  refine ⟨?_, fun hx => ?_, fun i hi hnodup => ?_⟩
  · have hmem : x ∈ q1.requestedHashes ↔ x ∈ q.requestedHashes ∧ x ∉ s.hashes :=
      (mem_eraseBlock q height x).trans (by rw [hold])
    rw [hmem]
    by_cases hx : x ∈ s.hashes
    · simp [hx]
    · simp [hx]
  · rw [if_neg not_mem_nil, have_noteHashes_of_not_mem _ _ hx, hhave, if_neg hx]
  · refine have_noteHashes_of_at hi hnodup ?_
    rw [hhave, if_pos (mem_of_getElem? hi)]

theorem Sound.nodup (hq : Sound q) (height : Nat) : (q.hashesAt height).Nodup := by
  refine pairwise_iff_getElem.mpr fun i j hi hj hij heq => ?_
  have hati : q.RecordsAt height i (q.hashesAt height)[i] := getElem?_eq_getElem hi
  have hatj : q.RecordsAt height j (q.hashesAt height)[j] := getElem?_eq_getElem hj
  rw [← heq] at hatj
  exact Nat.ne_of_lt hij (hq.distinct hati hatj).2

/-- **Blocks that are added keep the indexes exact**: their span has the hashes of the one that was
there. -/
theorem Sound.addBlocks (hq : Sound q) (height : Nat) {bcel : List β} (hbcel : bcel ≠ [])
    (connectionId : Uuid) : Sound (q.addBlocks height bcel connectionId) := by
  have hhashes : ∀ k, (q.addBlocks height bcel connectionId).hashesAt k = q.hashesAt k := by
    intro k
    unfold hashesAt
    rw [addBlocks_blocks]
    split
    · rename_i hk
      rw [hk]
      rfl
    · rfl
  have hfilled : ∀ k, (q.addBlocks height bcel connectionId).FilledAt k ↔
      k = height ∨ q.FilledAt k := by
    intro k
    unfold BlockQueue.FilledAt
    rw [addBlocks_blocks]
    by_cases hk : k = height
    · simp [hk, hbcel]
    · simp [hk]
  have hrecords : ∀ k i h, (q.addBlocks height bcel connectionId).RecordsAt k i h ↔
      q.RecordsAt k i h := by
    intro k i h
    unfold BlockQueue.RecordsAt
    rw [hhashes]
  have hindexes := addBlocks_indexes q height bcel connectionId
  refine ⟨fun h => ?_, fun h n => ?_, fun hki hki' => ?_⟩
  · rw [(hindexes h).1, mem_hashesAt, hq.requested]
    simp only [hrecords]
    exact or_iff_right_of_imp fun ⟨i, hi⟩ => ⟨height, i, hi⟩
  · simp only [hrecords, hfilled]
    by_cases hmem : h ∈ q.hashesAt height
    · obtain ⟨i, hat⟩ := mem_hashesAt.mp hmem
      rw [(hindexes h).2.2 i hat (hq.nodup height)]
      constructor
      · intro heq
        exact ⟨height, i, .inl rfl, hat, (Option.some.inj heq).symm⟩
      · rintro ⟨k, j, _, hkj, rfl⟩
        obtain ⟨rfl, rfl⟩ := hq.distinct hkj hat
        rfl
    · rw [(hindexes h).2.1 hmem, hq.have_]
      constructor
      · rintro ⟨k, i, hk, hki, rfl⟩
        exact ⟨k, i, .inr hk, hki, rfl⟩
      · rintro ⟨k, i, hk, hki, rfl⟩
        refine ⟨k, i, hk.resolve_left ?_, hki, rfl⟩
        rintro rfl
        exact hmem (mem_hashesAt.mpr ⟨i, hki⟩)
  · rw [hrecords] at hki hki'
    exact hq.distinct hki hki'

/-! ## Reserving -/

/-- Hashes that are not requested are set for a span without blocks. -/
theorem Sound.setSpanHashes (hq : Sound q) (hs : q.blocks[height]? = some s)
    (hconn : s.connectionId = connectionId) (hempty : s.blocks = []) {hashes : List Hash}
    (hnodup : hashes.Nodup) (hnew : ∀ h ∈ hashes, h ∉ q.requestedHashes) :
    Sound (q.setSpanHashes height connectionId hashes) := by
  have hhashes : ∀ k, (q.setSpanHashes height connectionId hashes).hashesAt k =
      if k = height then hashes else q.hashesAt k := by
    intro k
    unfold hashesAt
    rw [setSpanHashes_blocks]
    split
    · rw [hs, Option.map_some, if_pos hconn]
      rfl
    · rfl
  have hfilled : ∀ k, (q.setSpanHashes height connectionId hashes).FilledAt k ↔
      k ≠ height ∧ q.FilledAt k := by
    intro k
    unfold BlockQueue.FilledAt
    rw [setSpanHashes_blocks]
    by_cases hk : k = height
    · simp [hk, hs, hconn, hempty]
    · simp [hk]
  have hindexes := setSpanHashes_indexes hs hconn hashes
  exact hq.replace hhashes hfilled (fun x => (hindexes x).1) (fun x => (hindexes x).2) hnodup hnew

theorem not_mem_of_requested (hr : q.requested h = false) : h ∉ q.requestedHashes := by
  intro hmem
  have htrue : q.requested h = true := ExtTreeSet.contains_iff_mem.mpr hmem
  exact Bool.false_ne_true (hr.symm.trans htrue)

variable {r : ReserveArgs}

/-- What is chosen is not requested, if those that are come first. -/
theorem chooseSpan_fresh (hne : (q.chooseSpan r).2 ≠ [])
    (hfresh : ∀ h ∈ r.blockHashes.drop (q.skipRequested r.blockHashes), q.requested h.1 = false) :
    ∀ h ∈ (q.chooseSpan r).2, q.requested h = false := by
  obtain ⟨hle, hpre⟩ := chooseSpan_spec q r hne
  intro x hx
  obtain ⟨h, hh, rfl⟩ := mem_map.mp (hpre.mem hx)
  refine hfresh h ?_
  have hskip : q.skipRequested r.blockHashes ≤ (q.chooseSpan r).1 - r.hashesStart := by omega
  rw [← Nat.add_sub_cancel' hskip, ← drop_drop] at hh
  exact mem_of_mem_drop hh

/-- The first hash that is chosen is the one of the height. -/
theorem chooseSpan_head (hne : (q.chooseSpan r).2 ≠ []) :
    ∃ i h, r.blockHashes[i]? = some h ∧ r.hashesStart + i = (q.chooseSpan r).1 ∧
      h.1 ∈ (q.chooseSpan r).2 := by
  obtain ⟨hle, hpre⟩ := chooseSpan_spec q r hne
  obtain ⟨x, xs, hx⟩ := exists_cons_of_ne_nil hne
  have hhead : (r.entriesAt (q.chooseSpan r).1)[0]? = some x := by
    obtain ⟨rest, hrest⟩ := hpre
    rw [← hrest, hx]
    rfl
  unfold ReserveArgs.entriesAt at hhead
  rw [getElem?_map, getElem?_drop] at hhead
  obtain ⟨h, hat, rfl⟩ := Option.map_eq_some_iff.mp hhead
  refine ⟨_, h, hat, by omega, ?_⟩
  rw [hx]
  exact mem_cons_self

/-- **A span that is reserved keeps the indexes exact**, if it is fresh. -/
theorem Sound.reserveSpan (hq : Sound q) (hfresh : Fresh q (.reserveSpan r)) :
    Sound (q.reserveSpan r).2 := by
  obtain ⟨hnodup, hfirst, hfilled⟩ := hfresh
  rw [reserveSpan_eq]
  split
  · exact hq
  rename_i hlength
  have hne : (q.chooseSpan r).2 ≠ [] := fun h => hlength (length_eq_zero_iff.mpr h)
  have hspan := hq.withSpan (q.chooseSpan r).1 (q.chooseSpan r).2.length r.connectionId
  have hat := withSpan_blocks q (q.chooseSpan r).1 (q.chooseSpan r).2.length r.connectionId
    (q.chooseSpan r).1
  have hnew := chooseSpan_fresh hne hfirst
  have hchosen : (q.chooseSpan r).2.Nodup :=
    ((chooseSpan_spec q r hne).2.sublist.trans ((drop_sublist _ _).map Prod.fst)).nodup hnodup
  cases hthere : q.blocks[(q.chooseSpan r).1]? with
  | none =>
    rw [if_pos ⟨rfl, hthere⟩] at hat
    exact hspan.setSpanHashes hat rfl rfl hchosen fun h hh => not_mem_of_requested (hnew h hh)
  | some sp =>
    rw [if_neg (by simp [hthere]), hthere] at hat
    by_cases hconn : sp.connectionId = r.connectionId
    · obtain ⟨i, h, hi, hheight, hmem⟩ := chooseSpan_head hne
      have hempty := hfilled i h sp hi (hnew h.1 hmem) (by rw [hheight, hthere]) hconn
      exact hspan.setSpanHashes hat hconn hempty hchosen fun h hh =>
        not_mem_of_requested (hnew h hh)
    -- the span of another connection stays as it is
    have hsame : (q.withSpan (q.chooseSpan r).1 (q.chooseSpan r).2.length
        r.connectionId).setSpanHashes (q.chooseSpan r).1 r.connectionId (q.chooseSpan r).2 =
          q.withSpan (q.chooseSpan r).1 (q.chooseSpan r).2.length r.connectionId := by
      unfold BlockQueue.setSpanHashes
      rw [hat]
      exact if_pos hconn
    rwa [hsame]

/-! ## Runs -/

/-- **A fresh operation keeps the indexes exact.** -/
theorem QueueOp.sound (hq : Sound q) (op : QueueOp β) (hfresh : Fresh q op) :
    Sound (op.apply q) := by
  cases op with
  | reserveSpan r => exact hq.reserveSpan hfresh
  | addBlocks height bcel connectionId => exact hq.addBlocks height hfresh connectionId
  | addSpan height nblocks connectionId =>
    unfold QueueOp.apply BlockQueue.addSpan
    by_cases hn : nblocks = 0
    · simp only [hn, if_true]
      exact hq
    simp only [hn, if_false]
    exact hq.withSpan height nblocks connectionId
  | flushSpans connectionId all => exact hq.eraseBlocks _
  | flushStaleSpans live => exact hq.eraseBlocks _
  | removeSpan height => exact hq.eraseBlock height
  | removeSpans connectionId height => exact hq.eraseBlocks _

theorem sound_empty : Sound ({} : BlockQueue β) := by
  have hnone : ∀ k i h, ¬ ({} : BlockQueue β).RecordsAt k i h := by
    intro k i h hat
    unfold BlockQueue.RecordsAt hashesAt at hat
    cases hat
  refine ⟨fun h => ?_, fun h n => ?_, fun hat => absurd hat (hnone _ _ _)⟩
  · simp [hnone]
  · simp [hnone]

/-- The queues that fresh operations reach. -/
inductive FreshRun : BlockQueue β → Prop
  | start : FreshRun {}
  | step {q : BlockQueue β} (h : FreshRun q) (op : QueueOp β) (hfresh : Fresh q op) :
      FreshRun (op.apply q)

theorem FreshRun.sound (h : FreshRun q) : Sound q := by
  induction h with
  | start => exact sound_empty
  | step h op hfresh ih => exact op.sound ih hfresh

/-- What the two indexes should be. -/
structure IndexesExact (q : BlockQueue β) : Prop where
  requested : ∀ h, q.requested h = true ↔
    ∃ (k : Nat) (s : Span β), q.blocks[k]? = some s ∧ h ∈ s.hashes
  haveBlock : ∀ h, q.haveBlock h = true ↔
    ∃ (k : Nat) (s : Span β), q.blocks[k]? = some s ∧ s.blocks ≠ [] ∧ h ∈ s.hashes
  haveHeight : ∀ (k : Nat) (s : Span β) (i : Nat) (h : Hash), q.blocks[k]? = some s →
    s.blocks ≠ [] → s.hashes[i]? = some h → q.haveHeight h = k + i

theorem recordsAt_iff {k i : Nat} :
    q.RecordsAt k i h ↔ ∃ s, q.blocks[k]? = some s ∧ s.hashes[i]? = some h := by
  unfold BlockQueue.RecordsAt hashesAt
  cases q.blocks[k]? with
  | none => simp
  | some s => simp

/-- **The indexes are exact in every run of fresh operations.** -/
theorem indexes_exact (h : FreshRun q) : IndexesExact q := by
  have hq := h.sound
  refine ⟨fun x => ?_, fun x => ?_, fun k s i x hs hblocks hi => ?_⟩
  · rw [requested, ExtTreeSet.contains_iff_mem, hq.requested]
    simp only [recordsAt_iff]
    constructor
    · rintro ⟨k, i, s, hs, hi⟩
      exact ⟨k, s, hs, mem_of_getElem? hi⟩
    · rintro ⟨k, s, hs, hx⟩
      obtain ⟨i, hi⟩ := mem_iff_getElem?.mp hx
      exact ⟨k, i, s, hs, hi⟩
  · rw [haveBlock, ExtTreeMap.contains_iff_mem, ExtTreeMap.mem_iff_isSome_getElem?,
      Option.isSome_iff_exists]
    simp only [hq.have_, recordsAt_iff]
    constructor
    · rintro ⟨n, k, i, ⟨s, hs, hblocks⟩, ⟨s', hs', hi⟩, _⟩
      obtain rfl : s = s' := Option.some.inj (hs.symm.trans hs')
      exact ⟨k, s, hs, hblocks, mem_of_getElem? hi⟩
    · rintro ⟨k, s, hs, hblocks, hx⟩
      obtain ⟨i, hi⟩ := mem_iff_getElem?.mp hx
      exact ⟨k + i, k, i, ⟨s, hs, hblocks⟩, ⟨s, hs, hi⟩, rfl⟩
  · have hat := (hq.have_ x (k + i)).mpr
      ⟨k, i, ⟨s, hs, hblocks⟩, recordsAt_iff.mpr ⟨s, hs, hi⟩, rfl⟩
    unfold haveHeight
    rw [ExtTreeMap.getD_eq_getD_getElem?, hat]
    rfl

/-- The queue after operations. -/
def runOps (ops : List (QueueOp β)) : BlockQueue β := ops.foldl QueueOp.apply {}

theorem fresh_sampleReserve :
    Fresh ({} : BlockQueue Unit) (.reserveSpan (sampleReserve 1 3 [13])) := by
  refine ⟨by decide, by decide, fun i h s _ _ hs => ?_⟩
  cases hs

/-- A span is reserved and its block arrives. -/
theorem indexes_exact_sample : IndexesExact (runOps (β := Unit)
    [.reserveSpan (sampleReserve 1 3 [13]), .addBlocks 3 [()] (Blob.fill 1)]) :=
  indexes_exact (.step (.step .start _ fresh_sampleReserve) (.addBlocks 3 [()] (Blob.fill 1))
    (cons_ne_nil () []))

/-- **No block is requested twice**: in every run of fresh operations, a hash is in one span, and
there at one place. -/
theorem requested_once (h : FreshRun q) {k k' i i' : Nat} {s s' : Span β} {x : Hash}
    (hs : q.blocks[k]? = some s) (hs' : q.blocks[k']? = some s') (hx : s.hashes[i]? = some x)
    (hx' : s'.hashes[i']? = some x) : k = k' ∧ i = i' :=
  h.sound.distinct (recordsAt_iff.mpr ⟨s, hs, hx⟩) (recordsAt_iff.mpr ⟨s', hs', hx'⟩)

/-- The span of one connection has none of the two hashes of the other. -/
theorem requested_once_sample : ∃ s s' : Span Unit, sampleQueue2.blocks[1]? = some s ∧
    sampleQueue2.blocks[2]? = some s' ∧ s'.hashes[0]? = some (Blob.fill 12) ∧
      ∀ i : Nat, s.hashes[i]? ≠ some (Blob.fill 12) := by
  have hempty : ∀ x ∈ sampleQueue.blocks.toList, x.2.blocks = [] := by decide
  have hrun : FreshRun sampleQueue2 := by
    refine .step (.step .start (.reserveSpan (sampleReserve 1 1 [11])) ?_)
      (.reserveSpan (sampleReserve 2 3 [11, 12, 13])) ?_
    · refine ⟨by decide, by decide, fun i h s _ _ hs => ?_⟩
      cases hs
    · refine ⟨by decide, by decide, fun i h s _ _ hs _ => ?_⟩
      exact hempty _ (ExtTreeMap.mem_toList_iff_getElem?_eq_some.mpr hs)
  obtain ⟨s, hs⟩ : ∃ s, sampleQueue2.blocks[1]? = some s := ⟨_, rfl⟩
  obtain ⟨s', hs', hx⟩ : ∃ s', sampleQueue2.blocks[2]? = some s' ∧
      s'.hashes[0]? = some (Blob.fill 12) := ⟨_, rfl, rfl⟩
  refine ⟨s, s', hs, hs', hx, fun i hi => ?_⟩
  exact absurd (requested_once hrun hs hs' hi hx).1 (by decide)

/-- Two spans share a hash. When one of them is flushed, the hash is not requested any more. -/
theorem indexes_shared : ¬ IndexesExact (runOps (β := Unit)
    [.reserveSpan (sampleReserve 1 3 [13]), .reserveSpan (sampleReserve 2 3 [12, 13]),
      .flushSpans (Blob.fill 1) false]) := by
  intro hexact
  have hspan : ((runOps (β := Unit)
      [.reserveSpan (sampleReserve 1 3 [13]), .reserveSpan (sampleReserve 2 3 [12, 13]),
        .flushSpans (Blob.fill 1) false]).blocks[2]?.map Span.hashes) =
          some [Blob.fill 12, Blob.fill 13] := by decide
  obtain ⟨s, hs, hhashes⟩ := Option.map_eq_some_iff.mp hspan
  have hrequested := (hexact.requested (Blob.fill 13)).mpr ⟨2, s, hs, by rw [hhashes]; simp⟩
  exact absurd hrequested (by decide)

end Hashmonkey.Protocol
