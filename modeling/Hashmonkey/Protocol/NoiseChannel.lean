import Hashmonkey.Epee.LevinFragments

/-!
# Noise channels (`levin_notify.cpp`)

A channel sends a buffer of one size again and again: a slice of the message at the front of its
queue, or noise. `update_channel` gives it another connection and restarts the message.

* `queueCovertNotify`, `updateChannel`, `sendNoise`: the three handlers, each as a function on the
  channel. The strand of a channel runs them one at a time, so a run is a sequence of them
  (`NoiseStep`).
* The nil connection is `none`. Messages come from `make_fragmented_notify`.
* `history` is what can be seen from outside, the latest first. Whether a send succeeds is given
  with the event; the new connections that are asked for when it fails come as later events.
* `Underway`, the invariant: the slices of the message in front are those that were just sent on the
  connection, and those that are left.

Result: **`noise_channel_runs`**, all buffers have the size of the noise, and a message leaves the
queue when all of its slices were just sent one after the other on the connection of the channel.
-/

namespace Hashmonkey.Protocol

open Epee List

variable {U : Type} (noise : Bytes)

/-! ## The channel -/

/-- `noise_channel`. -/
structure NoiseChannel (U : Type) where
  active : Bytes := []
  queue : List Bytes := []
  connection : Option U := none

/-- What is seen of a channel. -/
inductive NoiseSeen (U : Type)
  | set (connection : Option U)
  | sent (connection : U) (message : Bytes) (ok : Bool)

namespace NoiseChannel

/-- `queue_covert_notify`. -/
def queueCovertNotify (c : NoiseChannel U) (message : Bytes) : NoiseChannel U :=
  if c.connection.isSome then { c with queue := c.queue ++ [message] } else c

/-- `update_channel`. -/
def updateChannel (c : NoiseChannel U) (connection : Option U) : NoiseChannel U :=
  { active := [], queue := if connection.isNone then [] else c.queue, connection }

/-- The buffer that is sent next, and what is left of its message. -/
def nextSlice (c : NoiseChannel U) : Bytes × Bytes :=
  if !c.active.isEmpty then (c.active.take noise.length, c.active.drop noise.length)
  else
    match c.queue with
    | front :: _ => (front.take noise.length, front.drop noise.length)
    | [] => (noise, [])

/-- `send_noise`, when the send succeeds or fails. -/
def sendNoise (c : NoiseChannel U) (ok : Bool) : NoiseChannel U × List (NoiseSeen U) :=
  match c.connection with
  | none => (c, [])
  | some connection =>
    let (message, active) := c.nextSlice noise
    (if ok then { c with active, queue := if active.isEmpty then c.queue.tail else c.queue }
      else { c with active := [], connection := none }, [.sent connection message ok])

end NoiseChannel

/-- What can happen on a channel. -/
inductive NoiseStep : NoiseChannel U × List (NoiseSeen U) →
    NoiseChannel U × List (NoiseSeen U) → Prop
  | queue {c : NoiseChannel U} {history : List (NoiseSeen U)} {command : UInt32}
    {payload message : Bytes}
    (h : makeFragmentedNotify noise.length command payload = some message) :
    NoiseStep (c, history) (c.queueCovertNotify message, history)
  | update {c : NoiseChannel U} {history : List (NoiseSeen U)} (connection : Option U) :
    NoiseStep (c, history) (c.updateChannel connection, .set connection :: history)
  | send {c : NoiseChannel U} {history : List (NoiseSeen U)} (ok : Bool) :
    NoiseStep (c, history) ((c.sendNoise noise ok).1, (c.sendNoise noise ok).2 ++ history)

/-! ## Slices -/

variable {noise}

/-- A message in slices of the size of the noise. -/
def Sliced (noise : Bytes) (slices : List Bytes) : Prop := ∀ s ∈ slices, s.length = noise.length

theorem makeFragmentedNotify_sliced {command : UInt32} {payload message : Bytes}
    (hnoise : headSize * 2 ≤ noise.length) (hword : noise.length < 2 ^ 64)
    (h : makeFragmentedNotify noise.length command payload = some message) :
    ∃ slices, slices ≠ [] ∧ Sliced noise slices ∧ slices.flatten = message := by
  obtain ⟨packets, hsome, hall⟩ := @makeFragmentedNotify_packets payload _ command hnoise hword
  cases h.symm.trans hsome
  refine ⟨packets, ?_, fun p hp => (hall p hp).1, rfl⟩
  rintro rfl
  have hhead : headSize = 33 := rfl
  unfold makeFragmentedNotify at h
  split_ifs at h
  all_goals
    have hlen := congrArg List.length (Option.some.inj h)
    simp at hlen
    omega

/-- Of a message that is under way, some slices were just sent and the others are left. -/
structure Underway (noise : Bytes) (c : NoiseChannel U) (history : List (NoiseSeen U)) : Prop where
  queued : ∀ m ∈ c.queue, ∃ slices, slices ≠ [] ∧ Sliced noise slices ∧ slices.flatten = m
  sized : ∀ id m ok, NoiseSeen.sent id m ok ∈ history → m.length = noise.length
  active : c.active ≠ [] → ∃ id sent left rest earlier, c.connection = some id ∧
    c.queue = (sent ++ left).flatten :: rest ∧ Sliced noise (sent ++ left) ∧ left ≠ [] ∧
    c.active = left.flatten ∧ history = (sent.map (NoiseSeen.sent id · true)).reverse ++ earlier

variable {c : NoiseChannel U} {history : List (NoiseSeen U)}

theorem Underway.queueCovertNotify (h : Underway noise c history) {message : Bytes}
    (hm : ∃ slices, slices ≠ [] ∧ Sliced noise slices ∧ slices.flatten = message) :
    Underway noise (c.queueCovertNotify message) history := by
  unfold NoiseChannel.queueCovertNotify
  split_ifs
  · refine ⟨fun m hmem => ?_, h.sized, fun hne => ?_⟩
    · rcases mem_append.mp hmem with hmem | hmem
      · exact h.queued m hmem
      · exact mem_singleton.mp hmem ▸ hm
    · obtain ⟨id, sent, left, rest, earlier, hid, hqueue, hrest⟩ := h.active hne
      exact ⟨id, sent, left, rest ++ [message], earlier, hid, by simp [hqueue], hrest⟩
  · exact h

theorem Underway.updateChannel (h : Underway noise c history) (connection : Option U) :
    Underway noise (c.updateChannel connection) (.set connection :: history) where
  queued m hm := by
    unfold NoiseChannel.updateChannel at hm
    split_ifs at hm
    · cases hm
    · exact h.queued m hm
  sized id m ok hm := h.sized id m ok (by simpa using hm)
  active hne := absurd rfl hne

/-- **What the next buffer is**: noise when nothing is queued, or else the first of the slices that
are left of the message in front, whose other slices were just sent. -/
theorem Underway.nextSlice (h : Underway noise c history) {id : U}
    (hid : c.connection = some id) :
    c.queue = [] ∧ c.nextSlice noise = (noise, []) ∨
      ∃ sent s left rest earlier, c.queue = (sent ++ s :: left).flatten :: rest ∧
        Sliced noise (sent ++ s :: left) ∧ c.nextSlice noise = (s, left.flatten) ∧
        history = (sent.map (NoiseSeen.sent id · true)).reverse ++ earlier := by
  have htake : ∀ s left, Sliced noise (s :: left) →
      (s :: left).flatten.take noise.length = s ∧ (s :: left).flatten.drop noise.length =
        left.flatten := by
    intro s left hs
    rw [flatten_cons, ← hs s mem_cons_self, take_left, drop_left]
    exact ⟨rfl, rfl⟩
  unfold NoiseChannel.nextSlice
  by_cases hactive : c.active = []
  · rw [hactive]
    cases hqueue : c.queue with
    | nil => exact Or.inl ⟨rfl, rfl⟩
    | cons m rest =>
      obtain ⟨slices, hne, hsliced, rfl⟩ := h.queued m (hqueue ▸ mem_cons_self)
      obtain ⟨s, left, rfl⟩ := exists_cons_of_ne_nil hne
      obtain ⟨htake, hdrop⟩ := htake s left hsliced
      exact Or.inr ⟨[], s, left, rest, history, rfl, hsliced, Prod.ext htake hdrop, rfl⟩
  · obtain ⟨id', sent, left, rest, earlier, hid', hqueue, hsliced, hne, heq, hhist⟩ :=
      h.active hactive
    obtain ⟨s, left, rfl⟩ := exists_cons_of_ne_nil hne
    cases hid.symm.trans hid'
    obtain ⟨htake, hdrop⟩ := htake s left fun x hx => hsliced x (mem_append_right sent hx)
    refine Or.inr ⟨sent, s, left, rest, earlier, hqueue, hsliced, ?_, hhist⟩
    rw [if_pos (by simpa using hactive), heq, htake, hdrop]

/-- A message leaves the queue, and all of its slices were just sent. -/
def MessageSent (noise : Bytes) (c c' : NoiseChannel U) (history : List (NoiseSeen U)) : Prop :=
  ∃ id slices rest earlier, c.connection = some id ∧ c.queue = slices.flatten :: rest ∧
    c'.queue = rest ∧ Sliced noise slices ∧
    history = (slices.map (NoiseSeen.sent id · true)).reverse ++ earlier

theorem Underway.sendNoise (h : Underway noise c history) (hpos : 0 < noise.length) (ok : Bool) :
    Underway noise (c.sendNoise noise ok).1 ((c.sendNoise noise ok).2 ++ history) ∧
      ((c.sendNoise noise ok).1.queue ≠ c.queue → ok = true ∧
        MessageSent noise c (c.sendNoise noise ok).1 ((c.sendNoise noise ok).2 ++ history)) := by
  unfold NoiseChannel.sendNoise
  cases hid : c.connection with
  | none => exact ⟨h, fun hne => absurd rfl hne⟩
  | some id =>
    have hsized : ∀ m : Bytes, m.length = noise.length → ∀ id' m' ok',
        NoiseSeen.sent id' m' ok' ∈ NoiseSeen.sent id m ok :: history →
          m'.length = noise.length := by
      intro m hm id' m' ok' hin
      rcases mem_cons.mp hin with heq | hin
      · cases heq
        exact hm
      · exact h.sized id' m' ok' hin
    rcases h.nextSlice hid with ⟨hqueue, hnext⟩ |
      ⟨sent, s, left, rest, earlier, hqueue, hsliced, hnext, hhist⟩
    · rw [hnext]
      cases ok with
      | false =>
        exact ⟨⟨h.queued, hsized _ rfl, fun hne => absurd rfl hne⟩, fun hne => absurd rfl hne⟩
      | true =>
        have htail : c.queue.tail = c.queue := by rw [hqueue, tail_nil]
        exact ⟨⟨fun m hm => h.queued m (htail ▸ hm), hsized _ rfl, fun hne => absurd rfl hne⟩,
          fun hne => absurd htail hne⟩
    · have hlen : s.length = noise.length := hsliced s (by simp)
      rw [hnext]
      cases ok with
      | false =>
        exact ⟨⟨h.queued, hsized s hlen, fun hne => absurd rfl hne⟩, fun hne => absurd rfl hne⟩
      | true =>
        have hhist' : NoiseSeen.sent id s true :: history =
            ((sent ++ [s]).map (NoiseSeen.sent id · true)).reverse ++ earlier := by
          simp [hhist]
        cases left with
        | nil =>
          exact ⟨⟨fun m hm => h.queued m (mem_of_mem_tail hm), hsized s hlen,
            fun hne => absurd rfl hne⟩, fun _ => ⟨rfl, id, sent ++ [s], rest, earlier, hid, hqueue,
            by simp [hqueue], hsliced, hhist'⟩⟩
        | cons x left =>
          have hmore : (x :: left).flatten.isEmpty = false := by
            have hx : x.length = noise.length := hsliced x (by simp)
            cases x with
            | nil => exact absurd hx (Nat.ne_of_lt hpos)
            | cons b x => rfl
          simp only [if_true, hmore, Bool.false_eq_true, if_false]
          exact ⟨⟨h.queued, hsized s hlen, fun _ => ⟨id, sent ++ [s], x :: left, rest, earlier,
            rfl, by simpa using hqueue, by simpa using hsliced, by simp, rfl, hhist'⟩⟩,
            fun hne => absurd rfl hne⟩

/-! ## Runs -/

/-- **Runs of a noise channel**: every buffer has the size of the noise, and `send_noise` takes a
message off the queue only when it has just sent the last of its slices, after all the others, with
nothing else in between, on the connection that the channel has had since. -/
theorem noise_channel_runs (hnoise : headSize * 2 ≤ noise.length) (hword : noise.length < 2 ^ 64)
    (hrun : Relation.ReflTransGen (NoiseStep noise) ({}, []) (c, history)) :
    (∀ id m ok, NoiseSeen.sent id m ok ∈ history → m.length = noise.length) ∧
      ∀ ok c' seen, c.sendNoise noise ok = (c', seen) → c'.queue ≠ c.queue →
        ok = true ∧ MessageSent noise c c' (seen ++ history) := by
  have hpos : 0 < noise.length := Nat.lt_of_lt_of_le (by decide) hnoise
  have h : Underway noise c history := by
    generalize hst : (c, history) = st at hrun
    induction hrun generalizing c history with
    | refl =>
      cases hst
      exact ⟨by simp, by simp, fun hne => absurd rfl hne⟩
    | tail _ hstep ih =>
      subst hst
      cases hstep with
      | queue hm =>
        exact (ih rfl).queueCovertNotify (makeFragmentedNotify_sliced hnoise hword hm)
      | update connection => exact (ih rfl).updateChannel connection
      | send ok => exact ((ih rfl).sendNoise hpos ok).1
  refine ⟨h.sized, fun ok c' seen hsend hne => ?_⟩
  have hspec := (h.sendNoise hpos ok).2
  rw [hsend] at hspec
  exact hspec hne

/-- A notification that takes two slices of 100 bytes. -/
def sampleMessage : Bytes := (makeFragmentedNotify 100 2002 (replicate 70 1)).getD []

/-- The channel when the message was queued and its first slice was sent. -/
def sampleChannel : NoiseChannel ℕ where
  active := sampleMessage.drop 100
  queue := [sampleMessage]
  connection := some 5

/-- The second slice is sent, and the message leaves the queue. -/
theorem noise_channel_runs_slices :
    sampleMessage.length = 200 ∧ (sampleChannel.sendNoise (zeros 100) true).1.queue = [] ∧
      MessageSent (zeros 100) sampleChannel (sampleChannel.sendNoise (zeros 100) true).1
        [.sent 5 (sampleMessage.drop 100) true, .sent 5 (sampleMessage.take 100) true,
          .set (some 5)] := by
  have hmessage : makeFragmentedNotify (zeros 100).length 2002 (replicate 70 1) =
      some sampleMessage := rfl
  have hrun : Relation.ReflTransGen (NoiseStep (zeros 100)) ({}, [])
      (sampleChannel, [.sent 5 (sampleMessage.take 100) true, .set (some 5)]) :=
    .tail (.tail (.tail .refl (.update (some 5))) (.queue hmessage)) (.send true)
  have hqueue : (sampleChannel.sendNoise (zeros 100) true).1.queue = [] := by decide
  have hsent := (noise_channel_runs (by decide) (by decide) hrun).2 true
    (sampleChannel.sendNoise (zeros 100) true).1
    [.sent 5 (sampleMessage.drop 100) true] rfl (by rw [hqueue]; exact (cons_ne_nil _ _).symm)
  exact ⟨by decide +kernel, hqueue, hsent.2⟩

end Hashmonkey.Protocol
