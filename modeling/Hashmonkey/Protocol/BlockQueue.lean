import Hashmonkey.Db.Pruning

/-!
# The queue of blocks to download (`cryptonote_protocol/block_queue.cpp`)

While a node synchronises, the heights that it wants are reserved for its peers in spans, and the
blocks that arrive are kept until they can be added. Spans are in a set that is ordered by their
first height alone, so it has one span for a height at most. The model is a map from this height to
the rest of the span.

* `requestedHashes`: the hashes that some span records;
* `haveBlocks`: those of spans with blocks, and their heights;
* `addBlocks`, `addSpan`: the two forms of `add_blocks`, with the blocks and for a span that is
  scheduled;
* `reserveSpan`: the next hashes of a peer that are not requested.

Rates, sizes, times and addresses of spans are left out, since nothing here depends on them.

Results: what each function does to the spans and to the two indexes, and
**`reserveSpan_records_iff`**: a span that is reserved is recorded if and only if no other span
starts at its height, and blocks that are delivered get the hashes of their peer if and only if no
other peer's span is there.
-/

namespace Hashmonkey.Protocol

open Std Basic Db Serialization List

variable {β : Type}

/-! ## Spans -/

/-- The id of a connection. -/
abbrev Uuid := Blob 16

/-- `span`, without its first height. -/
structure Span (β : Type) where
  hashes : List Hash := []
  blocks : List β := []
  connectionId : Uuid
  nblocks : Nat

/-- `block_queue`. -/
structure BlockQueue (β : Type) where
  blocks : ExtTreeMap Nat (Span β) compare := ∅
  requestedHashes : ExtTreeSet Hash compareHash32 := ∅
  haveBlocks : ExtTreeMap Hash Nat compareHash32 := ∅

/-- `requested`. -/
def BlockQueue.requested (q : BlockQueue β) (hash : Hash) : Bool := q.requestedHashes.contains hash

/-- `have`. -/
def BlockQueue.haveBlock (q : BlockQueue β) (hash : Hash) : Bool := q.haveBlocks.contains hash

/-- `have_height`. -/
def BlockQueue.haveHeight (q : BlockQueue β) (hash : Hash) : Nat :=
  q.haveBlocks.getD hash (2 ^ 64 - 1)

/-- Hashes are erased from the two indexes. -/
def BlockQueue.forgetHashes (q : BlockQueue β) (hashes : List Hash) : BlockQueue β :=
  hashes.foldl (fun q h =>
    { q with
      requestedHashes := q.requestedHashes.erase h
      haveBlocks := q.haveBlocks.erase h }) q

/-- `erase_block`, for the span at a height. -/
def BlockQueue.eraseBlock (q : BlockQueue β) (height : Nat) : BlockQueue β :=
  match q.blocks[height]? with
  | none => q
  | some s => { q.forgetHashes s.hashes with blocks := q.blocks.erase height }

/-- `flush_spans`. -/
def BlockQueue.flushSpans (q : BlockQueue β) (connectionId : Uuid) (all : Bool) : BlockQueue β :=
  (q.blocks.toList.filter fun s =>
    s.2.connectionId = connectionId ∧ (all ∨ s.2.blocks.length = 0)).foldl
      (fun q s => q.eraseBlock s.1) q

/-- `flush_stale_spans`. -/
def BlockQueue.flushStaleSpans (q : BlockQueue β) (live : List Uuid) : BlockQueue β :=
  (q.blocks.toList.filter fun s => s.2.blocks.isEmpty ∧ s.2.connectionId ∉ live).foldl
    (fun q s => q.eraseBlock s.1) q

/-- `remove_span`: the hashes of the span, if there is one. -/
def BlockQueue.removeSpan (q : BlockQueue β) (height : Nat) : Option (List Hash) × BlockQueue β :=
  (q.blocks[height]?.map Span.hashes, q.eraseBlock height)

/-- `remove_spans`. -/
def BlockQueue.removeSpans (q : BlockQueue β) (connectionId : Uuid) (height : Nat) : BlockQueue β :=
  (q.blocks.toList.filter fun s => s.2.connectionId = connectionId ∧ s.1 ≤ height).foldl
    (fun q s => q.eraseBlock s.1) q

/-- Hashes are put into the index of requested ones. -/
def BlockQueue.requestHashes (q : BlockQueue β) (hashes : List Hash) : BlockQueue β :=
  hashes.foldl (fun q h => { q with requestedHashes := q.requestedHashes.insert h }) q

/-- `set_span_hashes`. -/
def BlockQueue.setSpanHashes (q : BlockQueue β) (height : Nat) (connectionId : Uuid)
    (hashes : List Hash) : BlockQueue β :=
  match q.blocks[height]? with
  | none => q
  | some s =>
    if s.connectionId ≠ connectionId then q
    else
      let q := (q.eraseBlock height).requestHashes hashes
      { q with blocks := q.blocks.insertIfNew height { s with hashes } }

/-! ## Adding blocks -/

/-- The loop of `add_blocks` over the hashes. -/
def BlockQueue.noteHashes (q : BlockQueue β) : Nat → List Hash → BlockQueue β
  | _, [] => q
  | height, h :: hs =>
    BlockQueue.noteHashes
      { q with
        requestedHashes := q.requestedHashes.insert h
        haveBlocks := q.haveBlocks.insertIfNew h height } (height + 1) hs

/-- `add_blocks`, with the blocks. -/
def BlockQueue.addBlocks (q : BlockQueue β) (height : Nat) (bcel : List β) (connectionId : Uuid) :
    BlockQueue β :=
  let (hashes, q) := q.removeSpan height
  let span : Span β := { blocks := bcel, connectionId, nblocks := bcel.length }
  let q := { q with blocks := q.blocks.insertIfNew height span }
  match hashes with
  | none => q
  | some hashes => (q.noteHashes height hashes).setSpanHashes height connectionId hashes

/-- A span without hashes and blocks is inserted. -/
def BlockQueue.withSpan (q : BlockQueue β) (height nblocks : Nat) (connectionId : Uuid) :
    BlockQueue β :=
  { q with blocks := q.blocks.insertIfNew height { connectionId, nblocks } }

/-- `add_blocks`, for a span that is scheduled. -/
def BlockQueue.addSpan (q : BlockQueue β) (height nblocks : Nat) (connectionId : Uuid) :
    Except String (BlockQueue β) :=
  if nblocks = 0 then .error "Empty span" else .ok (q.withSpan height nblocks connectionId)

/-! ## Reserving a span -/

/-- `CRYPTONOTE_MAX_BLOCK_NUMBER`. -/
def maxBlockNumber : Nat := 500000000

/-- `get_next_unpruned_block_height`. -/
def getNextUnprunedBlockHeight (blockHeight blockchainHeight : Nat) (pruningSeed : UInt32) : Nat :=
  if blockHeight > maxBlockNumber + 1 then blockHeight
  else if blockchainHeight > maxBlockNumber + 1 then blockHeight
  else
    let stripe := (getPruningStripe pruningSeed).toNat
    if stripe = 0 then blockHeight
    else if blockHeight + pruningTipBlocks ≥ blockchainHeight then blockHeight
    else
      let seedLogStripes := getPruningLogStripes pruningSeed
      let logStripes := (if seedLogStripes ≠ 0 then seedLogStripes else pruningLogStripes).toNat
      let blockPruningStripe := ((blockHeight / pruningStripeSize) &&& (2 ^ logStripes - 1)) + 1
      if blockPruningStripe = stripe then blockHeight
      else
        let cycles := (blockHeight / pruningStripeSize) >>> logStripes
        let cycleStart := cycles + if stripe > blockPruningStripe then 0 else 1
        let h := cycleStart * (pruningStripeSize <<< logStripes) + (stripe - 1) * pruningStripeSize
        if h + pruningTipBlocks > blockchainHeight then
          if blockchainHeight < pruningTipBlocks then 0 else blockchainHeight - pruningTipBlocks
        else if h < blockHeight then blockHeight
        else h

/-- What `reserve_span` is called with. -/
structure ReserveArgs where
  firstBlockHeight : Nat
  lastBlockHeight : Nat
  maxBlocks : Nat
  connectionId : Uuid
  syncPrunedBlocks : Bool := false
  localPruningSeed : UInt32 := 0
  pruningSeed : UInt32 := 0
  blockchainHeight : Nat := 0
  /-- the hashes of the peer, the last one for `lastBlockHeight`, and weights -/
  blockHashes : List (Hash × Nat)

/-- `block_hashes_start_height`. -/
def ReserveArgs.hashesStart (r : ReserveArgs) : Nat := r.lastBlockHeight - r.blockHashes.length + 1

/-- How many hashes are requested before the first that is not. -/
def BlockQueue.skipRequested (q : BlockQueue β) (hashes : List (Hash × Nat)) : Nat :=
  (hashes.takeWhile fun h => q.requested h.1).length

/-- If the peer is pruned for the first block and its unpruned stripe comes next, the span starts
there. The height is kept in 32 bits. -/
def ReserveArgs.startUnpruned (r : ReserveArgs) (start : Nat) : Nat :=
  if r.syncPrunedBlocks then start
  else
    let next := getNextUnprunedBlockHeight start r.blockchainHeight r.pruningSeed % 2 ^ 32
    if next > start ∧ next < start + pruningStripeSize then next else start

/-- The loop that collects the hashes, from a height on and with at most so many. -/
def ReserveArgs.collect (r : ReserveArgs) (firstIsPruned : Bool) :
    Nat → Nat → List (Hash × Nat) → List Hash
  | _, _, [] => []
  | _, 0, _ => []
  | height, left + 1, h :: hs =>
    if ¬ (r.syncPrunedBlocks ∨ hasUnprunedBlock height r.blockchainHeight r.pruningSeed) then []
    -- stop at the first block for which we need full data
    else if r.syncPrunedBlocks ∧
        firstIsPruned = hasUnprunedBlock height r.blockchainHeight r.localPruningSeed then []
    else h.1 :: r.collect firstIsPruned (height + 1) left hs

/-- Where the span starts, and its hashes; none if there is nothing to reserve. -/
def BlockQueue.chooseSpan (q : BlockQueue β) (r : ReserveArgs) : Nat × List Hash :=
  if r.lastBlockHeight < r.firstBlockHeight ∨ r.maxBlocks = 0 then (0, [])
  else if r.blockHashes.length > r.lastBlockHeight then (0, [])
  else
    let start := r.startUnpruned (r.hashesStart + q.skipRequested r.blockHashes)
    if start ≥ r.blockHashes.length + r.hashesStart then (0, [])
    else
      let rest := r.blockHashes.drop (start - r.hashesStart)
      let skipped := q.skipRequested rest
      let height := start + skipped
      let firstIsPruned := r.syncPrunedBlocks &&
        !hasUnprunedBlock height r.blockchainHeight r.localPruningSeed
      (height, r.collect firstIsPruned height r.maxBlocks (rest.drop skipped))

/-- `reserve_span`. -/
def BlockQueue.reserveSpan (q : BlockQueue β) (r : ReserveArgs) : (Nat × Nat) × BlockQueue β :=
  let (height, hashes) := q.chooseSpan r
  if hashes.length = 0 then ((0, 0), q)
  else
    match q.addSpan height hashes.length r.connectionId with
    | .error _ => ((0, 0), q)
    | .ok q => ((height, hashes.length), q.setSpanHashes height r.connectionId hashes)

/-! ## What the functions do to the spans and the indexes -/

variable (q : BlockQueue β)

theorem mem_forgetHashes (hashes : List Hash) (x : Hash) :
    x ∈ (q.forgetHashes hashes).requestedHashes ↔ x ∈ q.requestedHashes ∧ x ∉ hashes := by
  induction hashes generalizing q with
  | nil => simp [BlockQueue.forgetHashes]
  | cons h hs ih =>
    refine (ih _).trans ?_
    rw [ExtTreeSet.mem_erase, ne_eq, LawfulEqCmp.compare_eq_iff_eq, mem_cons, not_or, and_assoc,
      and_left_comm, @eq_comm _ h]

theorem have_forgetHashes (hashes : List Hash) (x : Hash) :
    (q.forgetHashes hashes).haveBlocks[x]? = if x ∈ hashes then none else q.haveBlocks[x]? := by
  induction hashes generalizing q with
  | nil => simp [BlockQueue.forgetHashes]
  | cons h hs ih =>
    refine (ih _).trans ?_
    rw [ExtTreeMap.getElem?_erase]
    by_cases hx : x ∈ hs
    · simp [hx]
    by_cases heq : h = x
    · subst heq
      simp [hx, ReflCmp.compare_self]
    have hcmp : compareHash32 h x ≠ .eq := fun hc => heq (LawfulEqCmp.eq_of_compare hc)
    simp [hx, hcmp, Ne.symm heq]

/-- The hashes of the span at a height. -/
def BlockQueue.hashesAt (q : BlockQueue β) (height : Nat) : List Hash :=
  (q.blocks[height]?.map Span.hashes).getD []

theorem eraseBlock_blocks (height k : Nat) :
    (q.eraseBlock height).blocks[k]? = if k = height then none else q.blocks[k]? := by
  unfold BlockQueue.eraseBlock
  split
  · rename_i hnone
    split
    · rename_i heq
      rw [heq, hnone]
    · rfl
  · rw [ExtTreeMap.getElem?_erase]
    simp only [Std.compare_eq_iff_eq, @eq_comm _ k]

/-- A span is put where another one was erased. -/
theorem insert_eraseBlock (height : Nat) (s : Span β) (k : Nat) :
    ((q.eraseBlock height).blocks.insertIfNew height s)[k]? =
      if k = height then some s else q.blocks[k]? := by
  have hnew : height ∉ (q.eraseBlock height).blocks := by
    rw [ExtTreeMap.mem_iff_isSome_getElem?, eraseBlock_blocks]
    simp
  rw [ExtTreeMap.getElem?_insertIfNew, eraseBlock_blocks]
  simp only [Std.compare_eq_iff_eq, hnew, not_false_eq_true, and_true, @eq_comm _ k]
  split
  · rfl
  · rfl

theorem mem_eraseBlock (height : Nat) (x : Hash) :
    x ∈ (q.eraseBlock height).requestedHashes ↔
      x ∈ q.requestedHashes ∧ x ∉ q.hashesAt height := by
  unfold BlockQueue.eraseBlock BlockQueue.hashesAt
  split
  · rename_i hnone
    simp [hnone]
  rename_i s hs
  rw [hs]
  exact mem_forgetHashes q s.hashes x

theorem have_eraseBlock (height : Nat) (x : Hash) :
    (q.eraseBlock height).haveBlocks[x]? =
      if x ∈ q.hashesAt height then none else q.haveBlocks[x]? := by
  unfold BlockQueue.eraseBlock BlockQueue.hashesAt
  split
  · rename_i hnone
    simp [hnone]
  rename_i s hs
  rw [hs]
  exact have_forgetHashes q s.hashes x

@[simp] theorem requestHashes_blocks (hashes : List Hash) :
    (q.requestHashes hashes).blocks = q.blocks := by
  induction hashes generalizing q with
  | nil => rfl
  | cons h hs ih => exact ih _

@[simp] theorem requestHashes_have (hashes : List Hash) :
    (q.requestHashes hashes).haveBlocks = q.haveBlocks := by
  induction hashes generalizing q with
  | nil => rfl
  | cons h hs ih => exact ih _

theorem mem_requestHashes (hashes : List Hash) (x : Hash) :
    x ∈ (q.requestHashes hashes).requestedHashes ↔ x ∈ hashes ∨ x ∈ q.requestedHashes := by
  induction hashes generalizing q with
  | nil => simp [BlockQueue.requestHashes]
  | cons h hs ih =>
    refine (ih _).trans ?_
    rw [ExtTreeSet.mem_insert, LawfulEqCmp.compare_eq_iff_eq, mem_cons, or_assoc, or_left_comm,
      @eq_comm _ h]

/-- The hashes of a span are set if it is the one of the connection. -/
theorem setSpanHashes_blocks (height : Nat) (connectionId : Uuid)
    (hashes : List Hash) (k : Nat) :
    (q.setSpanHashes height connectionId hashes).blocks[k]? =
      if k = height then
        q.blocks[height]?.map fun s =>
          if s.connectionId = connectionId then { s with hashes } else s
      else q.blocks[k]? := by
  unfold BlockQueue.setSpanHashes
  split
  · rename_i hnone
    split
    · rename_i heq
      rw [heq, hnone]
      rfl
    · rfl
  · rename_i s hs
    rw [hs]
    split
    · rename_i hconn
      rw [Option.map_some, if_neg hconn]
      split
      · rename_i heq
        rw [heq, hs]
      · rfl
    · rename_i hconn
      rw [Option.map_some, if_pos (not_not.mp hconn)]
      dsimp only
      rw [requestHashes_blocks, insert_eraseBlock]

@[simp] theorem noteHashes_blocks (height : Nat) (hashes : List Hash) :
    (q.noteHashes height hashes).blocks = q.blocks := by
  induction hashes generalizing q height with
  | nil => rfl
  | cons h hs ih => exact ih _ _

/-- The span of the blocks takes the place of the one that was there, with its hashes. -/
theorem addBlocks_blocks (height : Nat) (bcel : List β) (connectionId : Uuid)
    (k : Nat) :
    (q.addBlocks height bcel connectionId).blocks[k]? =
      if k = height then
        some ⟨q.hashesAt height, bcel, connectionId, bcel.length⟩
      else q.blocks[k]? := by
  unfold BlockQueue.addBlocks BlockQueue.removeSpan BlockQueue.hashesAt
  cases hs : q.blocks[height]? with
  | none => exact insert_eraseBlock q height _ k
  | some s =>
    dsimp only [Option.map_some]
    rw [setSpanHashes_blocks, noteHashes_blocks, insert_eraseBlock, insert_eraseBlock, if_pos rfl]
    split
    · rw [Option.map_some, if_pos rfl]
      rfl
    · rfl

/-! ## What is reserved -/

theorem collect_isPrefix (r : ReserveArgs) (firstIsPruned : Bool) (height left : Nat)
    (hs : List (Hash × Nat)) : r.collect firstIsPruned height left hs <+: hs.map Prod.fst := by
  induction hs generalizing height left with
  | nil =>
    unfold ReserveArgs.collect
    exact prefix_rfl
  | cons h hs ih =>
    cases left with
    | zero => exact nil_prefix
    | succ left =>
      unfold ReserveArgs.collect
      split
      · exact nil_prefix
      split
      · exact nil_prefix
      rw [map_cons, prefix_cons_inj]
      exact ih _ _

theorem le_startUnpruned (r : ReserveArgs) (start : Nat) : start ≤ r.startUnpruned start := by
  unfold ReserveArgs.startUnpruned
  split
  · exact Nat.le_refl _
  dsimp only
  split
  · rename_i hnext
    exact Nat.le_of_lt hnext.1
  · exact Nat.le_refl _

/-- The entries of `block_hashes` from a height on. -/
def ReserveArgs.entriesAt (r : ReserveArgs) (height : Nat) : List Hash :=
  (r.blockHashes.drop (height - r.hashesStart)).map Prod.fst

/-- What a span that is not empty consists of: hashes that are collected after the requested ones
that follow a start. -/
theorem chooseSpan_cases (r : ReserveArgs) (hne : (q.chooseSpan r).2 ≠ []) :
    r.blockHashes.length ≤ r.lastBlockHeight ∧
      ∃ start skipped firstIsPruned, r.hashesStart + q.skipRequested r.blockHashes ≤ start ∧
        skipped = q.skipRequested (r.blockHashes.drop (start - r.hashesStart)) ∧
        q.chooseSpan r = (start + skipped, r.collect firstIsPruned (start + skipped) r.maxBlocks
          ((r.blockHashes.drop (start - r.hashesStart)).drop skipped)) := by
  unfold BlockQueue.chooseSpan at *
  split at hne
  · exact absurd rfl hne
  split at hne
  · exact absurd rfl hne
  dsimp only at hne ⊢
  split at hne
  · exact absurd rfl hne
  rename_i h1 h2 h3
  rw [if_neg h1, if_neg h2, if_neg h3]
  exact ⟨Nat.le_of_not_lt h2, _, _, _, le_startUnpruned r _, rfl, rfl⟩

/-- The hashes are the ones from a height on that comes after those that are requested first. -/
theorem chooseSpan_spec (r : ReserveArgs) (hne : (q.chooseSpan r).2 ≠ []) :
    r.hashesStart + q.skipRequested r.blockHashes ≤ (q.chooseSpan r).1 ∧
      (q.chooseSpan r).2 <+: r.entriesAt (q.chooseSpan r).1 := by
  obtain ⟨-, start, skipped, _, hstart, -, hchoose⟩ := chooseSpan_cases q r hne
  rw [hchoose]
  refine ⟨Nat.le_add_right_of_le hstart, ?_⟩
  rw [ReserveArgs.entriesAt, Nat.sub_add_comm (Nat.le_trans (Nat.le_add_right _ _) hstart),
    ← drop_drop]
  exact collect_isPrefix r _ _ _ _

theorem reserveSpan_eq (r : ReserveArgs) :
    q.reserveSpan r =
      if (q.chooseSpan r).2.length = 0 then ((0, 0), q)
      else
        (((q.chooseSpan r).1, (q.chooseSpan r).2.length),
          (q.withSpan (q.chooseSpan r).1 (q.chooseSpan r).2.length r.connectionId).setSpanHashes
            (q.chooseSpan r).1 r.connectionId (q.chooseSpan r).2) := by
  unfold BlockQueue.reserveSpan BlockQueue.addSpan
  dsimp only
  split
  · rfl
  · rfl

theorem withSpan_blocks (height nblocks : Nat) (connectionId : Uuid) (k : Nat) :
    (q.withSpan height nblocks connectionId).blocks[k]? =
      if height = k ∧ q.blocks[height]? = none then some { connectionId, nblocks }
      else q.blocks[k]? := by
  unfold BlockQueue.withSpan
  rw [ExtTreeMap.getElem?_insertIfNew]
  simp only [Std.compare_eq_iff_eq, ExtTreeMap.mem_iff_isSome_getElem?, Bool.not_eq_true,
    Option.isSome_eq_false_iff, Option.isNone_iff_eq_none]

variable {q}

/-- What `reserve_span` does when it returns a span. -/
theorem reserveSpan_ok {r : ReserveArgs} {s n : Nat} {q' : BlockQueue β}
    (h : q.reserveSpan r = ((s, n), q')) (hn : 0 < n) :
    (q.chooseSpan r).1 = s ∧ (q.chooseSpan r).2.length = n ∧
      q' = (q.withSpan s n r.connectionId).setSpanHashes s r.connectionId (q.chooseSpan r).2 := by
  rw [reserveSpan_eq] at h
  split at h
  · cases h
    exact absurd hn (Nat.lt_irrefl 0)
  cases h
  exact ⟨rfl, rfl, rfl⟩

/-- A span of a connection is recorded at a height, with hashes. -/
def BlockQueue.Records (q : BlockQueue β) (height n : Nat) (connectionId : Uuid)
    (hashes : List Hash) : Prop :=
  ∃ s, q.blocks[height]? = some s ∧ s.nblocks = n ∧ s.connectionId = connectionId ∧
    s.hashes = hashes

/-- The hashes that are recorded for a connection at a height. -/
def BlockQueue.recordedFor (q : BlockQueue β) (height : Nat) (connectionId : Uuid) : List Hash :=
  match q.blocks[height]? with
  | none => []
  | some s => if s.connectionId = connectionId then s.hashes else []

/-- **A span that is reserved is recorded if and only if every span at its height is one of the
connection with as many blocks. Blocks that are delivered get the hashes that are recorded for their
connection if and only if a span at their height is one of the connection or has no hashes.** -/
theorem reserveSpan_records_iff {r : ReserveArgs} {s n : Nat} {q' : BlockQueue β}
    (h : q.reserveSpan r = ((s, n), q')) (hn : 0 < n) :
    (q'.Records s n r.connectionId ((r.entriesAt s).take n) ↔
        ∀ sp, q.blocks[s]? = some sp → sp.connectionId = r.connectionId ∧ sp.nblocks = n) ∧
      ∀ (later : BlockQueue β) (bcel : List β),
        (later.addBlocks s bcel r.connectionId).hashesAt s = later.recordedFor s r.connectionId ↔
          ∀ sp, later.blocks[s]? = some sp → sp.connectionId = r.connectionId ∨ sp.hashes = [] := by
  obtain ⟨hs, hlength, rfl⟩ := reserveSpan_ok h hn
  constructor
  · have hhashes : (q.chooseSpan r).2 = (r.entriesAt s).take n := by
      have hne : (q.chooseSpan r).2 ≠ [] := ne_nil_of_length_pos (hlength ▸ hn)
      have hpre := (chooseSpan_spec q r hne).2
      rw [hs] at hpre
      rw [← hlength]
      exact prefix_iff_eq_take.mp hpre
    unfold BlockQueue.Records
    rw [setSpanHashes_blocks, if_pos rfl, withSpan_blocks]
    cases hat : q.blocks[s]? with
    | none => simp [hhashes]
    | some sp =>
      by_cases hconn : sp.connectionId = r.connectionId
      · simp [hconn, hhashes]
      · simp [hconn]
  · intro later bcel
    unfold BlockQueue.hashesAt BlockQueue.recordedFor
    rw [addBlocks_blocks, if_pos rfl]
    unfold BlockQueue.hashesAt
    cases hat : later.blocks[s]? with
    | none => simp
    | some sp =>
      by_cases hconn : sp.connectionId = r.connectionId
      · simp [hconn]
      · simp [hconn]

/-- A connection asks for spans of blocks up to a height. -/
def sampleReserve (connection : UInt8) (last : Nat) (hashes : List UInt8) : ReserveArgs where
  firstBlockHeight := 1
  lastBlockHeight := last
  maxBlocks := 10
  connectionId := Blob.fill connection
  blockHashes := hashes.map fun h => (Blob.fill h, 0)

/-- A queue in which a span for height 1 is reserved. -/
def sampleQueue : BlockQueue Unit := (({} : BlockQueue Unit).reserveSpan (sampleReserve 1 1 [11])).2

/-- The queue when a second connection asked, which has this block and two more. -/
def sampleQueue2 : BlockQueue Unit := (sampleQueue.reserveSpan (sampleReserve 2 3 [11, 12, 13])).2

theorem sampleQueue_reserveSpan : sampleQueue.reserveSpan (sampleReserve 2 3 [11, 12, 13]) =
    ((2, 2), sampleQueue2) := Prod.ext (by decide) rfl

/-- The second connection has a span for the two blocks recorded. -/
theorem reserveSpan_records_iff_second :
    sampleQueue2.Records 2 2 (Blob.fill 2) [Blob.fill 12, Blob.fill 13] := by
  refine (reserveSpan_records_iff sampleQueue_reserveSpan Nat.two_pos).1.mpr fun sp hsp => ?_
  have hnone : sampleQueue.blocks[2]? = none := rfl
  cases hnone.symm.trans hsp

/-- A connection that has another block at this height is given the same span. Nothing is recorded
for it, and the block that it delivers gets the hash of the first connection. -/
theorem reserveSpan_lost : ∃ q',
    sampleQueue.reserveSpan (sampleReserve 2 1 [12]) = ((1, 1), q') ∧
      ¬ q'.Records 1 1 (Blob.fill 2) [Blob.fill 12] ∧
      (q'.addBlocks 1 [()] (Blob.fill 2)).hashesAt 1 = [Blob.fill 11] := by
  refine ⟨(sampleQueue.reserveSpan (sampleReserve 2 1 [12])).2,
    Prod.ext (by decide) rfl, ?_, by decide⟩
  rintro ⟨sp, hsp, _, hconn, _⟩
  have hother : ((sampleQueue.reserveSpan (sampleReserve 2 1 [12])).2.blocks[1]?.map
      Span.connectionId) = some (Blob.fill 1) := by decide
  rw [hsp] at hother
  have heq : sp.connectionId = Blob.fill 1 := Option.some.inj hother
  exact absurd (hconn.symm.trans heq) (by decide)

end Hashmonkey.Protocol
