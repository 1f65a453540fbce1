import Mathlib.Algebra.Order.Monoid.Unbundled.WithTop
import Mathlib.Order.Lattice.Nat
import Hashmonkey.Crypto.Hash

/-!
# Flushing fluffed transactions (`levin_notify.cpp`)

`fluff_notify` queues transactions for the connections of a zone, each with a time at which its
queue is sent. There is one timer for them. Setting it anew cancels what waits on it, but the
callbacks that were cancelled or have expired still come, so `flush_callbacks` counts them and only
the last one does the work of `fluff_flush`.

* Times are numbers of ticks, `time_point::max()` is `⊤`. The random delays are arguments.
* `waits` is what the timer and the executor hold: `expires_at` and `cancel` make a wait ready with
  an error, the expiry makes it ready without one, and ready ones run in any order.
* `flush_callbacks` has no bound here, as it counts handlers that are in memory. What is sent is
  listed before its transactions are sorted and packed.

Result: **`flush_pending`**, queued transactions always have a callback that comes, on a timer that
is not later than their time.
-/

namespace Hashmonkey.Protocol

open List

variable {U : Type}

/-! ## The zone -/

/-- `context_t`. -/
structure FluffContext where
  fluffTxs : List Bytes := []
  flushTime : WithTop ℕ := ⊤
  isIncome : Bool

/-- A wait of the timer: for the expiry, or to be called with or without `operation_canceled`. -/
inductive FlushWait
  | waiting
  | ready (canceled : Bool)
  deriving DecidableEq

/-- The part of `zone` that is about fluffing. -/
structure FluffZone (U : Type) where
  isPublic : Bool
  contexts : List (U × FluffContext) := []
  flushCallbacks : ℕ := 0
  /-- `flush_txs.expiry()` -/
  expiry : WithTop ℕ := (0 : ℕ)
  waits : List FlushWait := []
  sent : List (U × List Bytes) := []

/-- The earliest flush time of some connections, from `time_point::max()` on. -/
def earliest (contexts : List (U × FluffContext)) : WithTop ℕ :=
  contexts.foldr (fun e next => min e.2.flushTime next) ⊤

/-- Transactions are put in the queue of a connection, whose delay is known. -/
def FluffContext.push (c : FluffContext) (txs : List Bytes)
    (now delay : ℕ) : FluffContext :=
  { c with
    flushTime := if c.fluffTxs.isEmpty then ((now + delay : ℕ) : WithTop ℕ) else c.flushTime
    fluffTxs := c.fluffTxs ++ txs }

/-- A connection with transactions whose time has not come. -/
def FluffContext.stays (c : FluffContext) (timerError : Bool) (now : ℕ) : Bool :=
  !c.fluffTxs.isEmpty && !(decide (c.flushTime ≤ now) || timerError)

/-- A connection whose queue was sent, or was empty. -/
def FluffContext.empty (c : FluffContext) : FluffContext :=
  { c with fluffTxs := [], flushTime := ⊤ }

namespace FluffZone

/-- What waits on the timer becomes ready. -/
def complete (z : FluffZone U) (canceled : Bool) : FluffZone U :=
  { z with waits := z.waits.map fun w => if w = .waiting then .ready canceled else w }

/-- `fluff_flush::queue`. -/
def queue (z : FluffZone U) (flushTime : WithTop ℕ) : FluffZone U :=
  let z := z.complete true
  { z with
    flushCallbacks := z.flushCallbacks + 1
    expiry := flushTime
    waits := .waiting :: z.waits }

/-- The work of `fluff_flush`, when no other callback is left. -/
def flushDue (z : FluffZone U) (timerError : Bool) (now : ℕ) : FluffZone U :=
  let due := z.contexts.filter fun e => !e.2.fluffTxs.isEmpty && !e.2.stays timerError now
  let nextFlush := earliest (z.contexts.filter fun e => e.2.stays timerError now)
  let z := { z with
    contexts := z.contexts.map fun e => if e.2.stays timerError now then e else (e.1, e.2.empty)
    sent := z.sent ++ due.map fun e => (e.1, e.2.fluffTxs) }
  if nextFlush ≠ ⊤ then z.queue nextFlush else z

/-- `fluff_flush::operator()`. -/
def fluffFlush (z : FluffZone U) (timerError : Bool) (now : ℕ) : FluffZone U :=
  if z.flushCallbacks = 0 then z
  else
    let z := { z with flushCallbacks := z.flushCallbacks - 1 }
    if z.flushCallbacks ≠ 0 then z else z.flushDue timerError now

/-- Over i2p and tor only outgoing connections get transactions. -/
def fluffsTo [DecidableEq U] (z : FluffZone U) (source : U) (e : U × FluffContext) : Bool :=
  source ≠ e.1 && (z.isPublic || !e.2.isIncome)

/-- `fluff_notify::run`. -/
def fluffNotify [DecidableEq U] (z : FluffZone U) (txs : List Bytes) (source : U) (now : ℕ)
    (delay : U → ℕ) : FluffZone U :=
  if txs.isEmpty then z
  else
    let contexts := z.contexts.map fun e =>
      if z.fluffsTo source e then (e.1, e.2.push txs now (delay e.1)) else e
    let nextFlush := earliest (contexts.filter (z.fluffsTo source))
    let z := { z with contexts }
    if nextFlush = ⊤ then z
    else if z.flushCallbacks = 0 ∨ nextFlush < z.expiry then z.queue nextFlush
    else z

/-- `on_connection_close`. -/
def onConnectionClose [DecidableEq U] (z : FluffZone U) (id : U) : FluffZone U :=
  { z with contexts := z.contexts.filter (·.1 ≠ id) }

/-- `on_handshake_complete`. -/
def onHandshakeComplete [DecidableEq U] (z : FluffZone U) (id : U) (isIncome : Bool) :
    FluffZone U :=
  { z with contexts := (id, { isIncome }) :: z.contexts.filter (·.1 ≠ id) }

end FluffZone

/-- What can happen in a zone. -/
inductive FluffStep [DecidableEq U] (z : FluffZone U) : FluffZone U → Prop
  | notify (txs : List Bytes) (source : U) (now : ℕ) (delay : U → ℕ) :
    FluffStep z (z.fluffNotify txs source now delay)
  | expire (now : ℕ) (h : z.expiry ≤ now) : FluffStep z (z.complete false)
  /-- `run_fluff` -/
  | cancel : FluffStep z (z.complete true)
  | callback (i now : ℕ) (canceled : Bool) (h : z.waits[i]? = some (.ready canceled)) :
    FluffStep z (FluffZone.fluffFlush { z with waits := z.waits.eraseIdx i } canceled now)
  | handshake (id : U) (isIncome : Bool) : FluffStep z (z.onHandshakeComplete id isIncome)
  | close (id : U) : FluffStep z (z.onConnectionClose id)

/-! ## Invariant -/

theorem earliest_le {contexts : List (U × FluffContext)} {e : U × FluffContext}
    (h : e ∈ contexts) : earliest contexts ≤ e.2.flushTime := by
  induction contexts with
  | nil => cases h
  | cons x contexts ih =>
    rcases mem_cons.mp h with rfl | h
    · exact min_le_left _ _
    · exact (min_le_right _ _).trans (ih h)

/-- Every callback is counted, and queued transactions have one in time. -/
structure Flushes (z : FluffZone U) : Prop where
  counted : z.flushCallbacks = z.waits.length
  finite : ∀ e ∈ z.contexts, e.2.fluffTxs ≠ [] → e.2.flushTime ≠ ⊤
  pending : ∀ e ∈ z.contexts, e.2.fluffTxs ≠ [] →
    0 < z.flushCallbacks ∧ z.expiry ≤ e.2.flushTime

variable {z : FluffZone U}

/-- A timer that is set to the earliest time, or to an earlier one. -/
theorem flushes_queue {flushTime : WithTop ℕ} (hcount : z.flushCallbacks = z.waits.length)
    (hfinite : ∀ e ∈ z.contexts, e.2.fluffTxs ≠ [] → e.2.flushTime ≠ ⊤)
    (hle : ∀ e ∈ z.contexts, e.2.fluffTxs ≠ [] → flushTime ≤ e.2.flushTime) :
    Flushes (z.queue flushTime) where
  counted := by simp [FluffZone.queue, FluffZone.complete, hcount]
  finite := hfinite
  pending e he hq := ⟨Nat.succ_pos _, hle e he hq⟩

theorem Flushes.complete (h : Flushes z) (canceled : Bool) : Flushes (z.complete canceled) :=
  ⟨by simpa [FluffZone.complete] using h.counted, h.finite, h.pending⟩

/-- Connections without queued transactions do not matter. -/
theorem Flushes.contexts (h : Flushes z) {contexts : List (U × FluffContext)}
    (hsub : ∀ e ∈ contexts, e.2.fluffTxs ≠ [] → e ∈ z.contexts) :
    Flushes { z with contexts } :=
  ⟨h.counted, fun e he hq => h.finite e (hsub e he hq) hq,
    fun e he hq => h.pending e (hsub e he hq) hq⟩

theorem flushes_flushDue (hcount : z.flushCallbacks = z.waits.length)
    (hfinite : ∀ e ∈ z.contexts, e.2.fluffTxs ≠ [] → e.2.flushTime ≠ ⊤) (timerError : Bool)
    (now : ℕ) : Flushes (z.flushDue timerError now) := by
  have hmem : ∀ e ∈ z.contexts.map (fun e =>
      if e.2.stays timerError now then e else (e.1, e.2.empty)),
      e.2.fluffTxs ≠ [] → e ∈ z.contexts.filter fun e => e.2.stays timerError now := by
    intro e he hq
    obtain ⟨x, hx, rfl⟩ := mem_map.mp he
    split_ifs at hq ⊢ with hs
    · exact mem_filter.mpr ⟨hx, hs⟩
    · exact absurd rfl hq
  unfold FluffZone.flushDue
  dsimp only
  split_ifs with hnext
  · exact flushes_queue hcount (fun e he hq => hfinite e (mem_of_mem_filter (hmem e he hq)) hq)
      fun e he hq => earliest_le (hmem e he hq)
  -- nothing is queued any more
  have hnone : ∀ e ∈ z.contexts.filter (fun e => e.2.stays timerError now),
      e.2.fluffTxs = [] := by
    intro e he
    by_contra hq
    have hle := earliest_le he
    rw [not_not.mp hnext, top_le_iff] at hle
    exact hfinite e (mem_of_mem_filter he) hq hle
  exact ⟨hcount, fun e he hq => absurd (hnone e (hmem e he hq)) hq,
    fun e he hq => absurd (hnone e (hmem e he hq)) hq⟩

theorem Flushes.callback (h : Flushes z) {i : ℕ} (hi : i < z.waits.length) (canceled : Bool)
    (now : ℕ) :
    Flushes (FluffZone.fluffFlush { z with waits := z.waits.eraseIdx i } canceled now) := by
  have hcount : z.flushCallbacks - 1 = (z.waits.eraseIdx i).length := by
    rw [length_eraseIdx_of_lt hi, h.counted]
  have hpos : z.flushCallbacks ≠ 0 := h.counted ▸ Nat.ne_of_gt (Nat.zero_lt_of_lt hi)
  unfold FluffZone.fluffFlush
  dsimp only
  rw [if_neg hpos]
  split_ifs with hmore
  · exact ⟨hcount, h.finite, fun e he hq => ⟨Nat.pos_of_ne_zero hmore, (h.pending e he hq).2⟩⟩
  apply flushes_flushDue
  · exact hcount
  · exact h.finite

theorem Flushes.notify [DecidableEq U] (h : Flushes z) (txs : List Bytes) (source : U) (now : ℕ)
    (delay : U → ℕ) : Flushes (z.fluffNotify txs source now delay) := by
  unfold FluffZone.fluffNotify
  generalize hcontexts : (z.contexts.map fun e =>
    if z.fluffsTo source e then (e.1, e.2.push txs now (delay e.1)) else e) = contexts
  -- a connection either gets transactions and a time, or is as before
  have hnew : ∀ e ∈ contexts, e.2.fluffTxs ≠ [] →
      e.2.flushTime ≠ ⊤ ∧ (e ∈ contexts.filter (z.fluffsTo source) ∨ e ∈ z.contexts) := by
    intro e he hq
    obtain ⟨x, hx, rfl⟩ := mem_map.mp (hcontexts ▸ he)
    split_ifs at he hq ⊢ with hto
    · refine ⟨?_, Or.inl (mem_filter.mpr ⟨he, hto⟩)⟩
      unfold FluffContext.push
      split_ifs with hempty
      · exact WithTop.coe_ne_top
      · exact h.finite x hx (by simpa using hempty)
    · exact ⟨h.finite x hx hq, Or.inr hx⟩
  dsimp only
  split_ifs with htxs hnext hqueue
  · exact h
  · refine h.contexts fun e he hq => (hnew e he hq).2.resolve_left fun hin => ?_
    have hle := earliest_le hin
    rw [hnext, top_le_iff] at hle
    exact (hnew e he hq).1 hle
  · refine flushes_queue h.counted (fun e he hq => (hnew e he hq).1) fun e he hq => ?_
    rcases (hnew e he hq).2 with hin | hin
    · exact earliest_le hin
    obtain ⟨hpos, hle⟩ := h.pending e hin hq
    exact (hqueue.resolve_left hpos.ne').le.trans hle
  · obtain ⟨hpos, hge⟩ := not_or.mp hqueue
    refine ⟨h.counted, fun e he hq => (hnew e he hq).1, fun e he hq =>
      ⟨Nat.pos_of_ne_zero hpos, ?_⟩⟩
    rcases (hnew e he hq).2 with hin | hin
    · exact (not_lt.mp hge).trans (earliest_le hin)
    · exact (h.pending e hin hq).2

theorem Flushes.step [DecidableEq U] {z' : FluffZone U} (h : Flushes z) (hstep : FluffStep z z') :
    Flushes z' := by
  cases hstep with
  | notify txs source now delay => exact h.notify txs source now delay
  | expire now _ => exact h.complete false
  | cancel => exact h.complete true
  | callback i now canceled hwait =>
    exact h.callback (List.getElem?_eq_some_iff.mp hwait).1 canceled now
  | handshake id isIncome =>
    refine h.contexts fun e he hq => ?_
    rcases mem_cons.mp he with rfl | he
    · exact absurd rfl hq
    · exact mem_of_mem_filter he
  | close id => exact h.contexts fun e he _ => mem_of_mem_filter he

/-- **Queued transactions have a flush that comes in time**: in every run of a zone, a connection
with queued transactions has callbacks outstanding, all of them counted, and the timer's expiry is
not later than its flush time. -/
theorem flush_pending [DecidableEq U] {isPublic : Bool}
    (hrun : Relation.ReflTransGen FluffStep { isPublic } z) :
    z.flushCallbacks = z.waits.length ∧ ∀ e ∈ z.contexts, e.2.fluffTxs ≠ [] →
      0 < z.flushCallbacks ∧ z.expiry ≤ e.2.flushTime := by
  have h : Flushes z := by
    induction hrun with
    | refl => exact ⟨rfl, by simp, by simp⟩
    | tail _ hstep ih => exact ih.step hstep
  exact ⟨h.counted, h.pending⟩

/-- A transaction for a connection that is there. -/
theorem flush_pending_one :
    ∃ z : FluffZone ℕ, (∃ e ∈ z.contexts, e.2.fluffTxs = [[7]]) ∧
      z.flushCallbacks = z.waits.length ∧ ∀ e ∈ z.contexts, e.2.fluffTxs ≠ [] →
        0 < z.flushCallbacks ∧ z.expiry ≤ e.2.flushTime :=
  ⟨_, ⟨_, mem_cons_self, rfl⟩, flush_pending (.tail (.tail (.refl)
    (.handshake 1 true)) (.notify [[7]] 2 10 fun _ => 5) : Relation.ReflTransGen
      FluffStep ⟨true, [], 0, (0 : ℕ), [], []⟩ _)⟩

end Hashmonkey.Protocol
