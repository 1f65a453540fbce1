import Mathlib.Data.List.Basic

/-!
# Loops that read what has arrived

A receiver holds what it has not read yet and works in rounds: a round waits for more input, goes
on, or gives up (`Outcome`). `loop` makes rounds for a given number of times, and `settle` for as
long as there is work, which a measure bounds.

* `loop_congr`, `loop_map`: steps that agree where a round begins, or that a map of states commutes
  with, make the same loop;
* `Along`: a property of every state in which a round begins;
* `Incremental`: a machine whose rounds do not depend on what comes behind the input they read.

Result: **`Incremental.feed_settle`**, input that is fed in pieces, with the loop run to its end
after every piece, ends as the same input in one piece does.
-/

namespace Hashmonkey.Lib

variable {σ σ' τ ω : Type}

/-- A round of a loop: it waits for more input, goes on, or gives up. -/
inductive Outcome (σ : Type)
  | wait (s : σ)
  | next (s : σ)
  | refuse (s : σ)
deriving DecidableEq, Repr

/-- A map of the state in an outcome. -/
def Outcome.map (f : σ → σ') : Outcome σ → Outcome σ'
  | .wait s => .wait (f s)
  | .next s => .next (f s)
  | .refuse s => .refuse (f s)

@[simp] theorem Outcome.map_wait (f : σ → σ') (s : σ) : (Outcome.wait s).map f = .wait (f s) := rfl

@[simp] theorem Outcome.map_next (f : σ → σ') (s : σ) : (Outcome.next s).map f = .next (f s) := rfl

@[simp] theorem Outcome.map_refuse (f : σ → σ') (s : σ) :
    (Outcome.refuse s).map f = .refuse (f s) := rfl

/-- What a loop does with an outcome: it ends, gives up, or continues. -/
def Outcome.andThen (k : σ → Bool × σ) : Outcome σ → Bool × σ
  | .wait s => (true, s)
  | .next s => k s
  | .refuse s => (false, s)

/-! ## Loops -/

/-- A number of rounds: did the loop not give up, and the state after it. -/
def loop (step : σ → Outcome σ) : ℕ → σ → Bool × σ
  | 0, s => (true, s)
  | n + 1, s => (step s).andThen fun t => loop step n t

/-- Something holds in every state in which a round begins. -/
def Along (step : σ → Outcome σ) (P : σ → Prop) : ℕ → σ → Prop
  | 0, _ => True
  | n + 1, s => P s ∧
    match step s with
    | .wait _ => True
    | .refuse _ => True
    | .next t => Along step P n t

instance decidableAlong (step : σ → Outcome σ) (P : σ → Prop) [DecidablePred P] :
    ∀ n s, Decidable (Along step P n s)
  | 0, _ => inferInstanceAs (Decidable True)
  | n + 1, s => by
    have hrest : Decidable (match step s with
        | .wait _ => True
        | .refuse _ => True
        | .next t => Along step P n t) :=
      match step s with
      | .wait _ => inferInstanceAs (Decidable True)
      | .refuse _ => inferInstanceAs (Decidable True)
      | .next t => decidableAlong step P n t
    exact inferInstanceAs (Decidable (P s ∧ _))

variable {step : σ → Outcome σ} {n : ℕ} {s : σ}

/-- Two steps that agree wherever a round begins make the same loop. -/
theorem loop_congr {step' : σ → Outcome σ}
    (h : Along step (fun s => step s = step' s) n s) : loop step n s = loop step' n s := by
  induction n generalizing s with
  | zero => rfl
  | succ n ih =>
    obtain ⟨hs, hrest⟩ := h
    rw [loop, loop, ← hs]
    cases hstep : step s with
    | wait t => rfl
    | refuse t => rfl
    | next t =>
      rw [hstep] at hrest
      exact ih hrest

/-- A map that commutes with the step commutes with the loop. -/
theorem loop_map {step' : σ' → Outcome σ'} {f : σ → σ'} (h : ∀ s, (step s).map f = step' (f s))
    (n : ℕ) (s : σ) : (loop step n s).map id f = loop step' n (f s) := by
  induction n generalizing s with
  | zero => rfl
  | succ n ih =>
    rw [loop, loop, ← h s]
    cases step s with
    | wait t => rfl
    | refuse t => rfl
    | next t => exact ih t

theorem along_map {step' : σ' → Outcome σ'} {f : σ → σ'} {P : σ → Prop}
    {Q : σ' → Prop} (h : ∀ s, (step s).map f = step' (f s)) (hP : ∀ s, P s → Q (f s))
    (hs : Along step P n s) : Along step' Q n (f s) := by
  induction n generalizing s with
  | zero => trivial
  | succ n ih =>
    obtain ⟨hhere, hrest⟩ := hs
    refine ⟨hP s hhere, ?_⟩
    rw [← h s]
    cases hstep : step s with
    | wait t => trivial
    | refuse t => trivial
    | next t =>
      rw [hstep] at hrest
      exact ih hrest

section Measure

variable {step : σ → Outcome σ} (work : σ → ℕ)
  (hwork : ∀ s t, step s = .next t → work t < work s)

include hwork

/-- More rounds than there is work for change nothing. -/
theorem loop_eq_loop {m : ℕ} (hn : work s < n) (hm : work s < m) :
    loop step n s = loop step m s := by
  induction n generalizing m s with
  | zero => omega
  | succ n ih =>
    obtain ⟨m, rfl⟩ := Nat.exists_eq_add_one_of_ne_zero (by omega : m ≠ 0)
    rw [loop, loop]
    cases hs : step s with
    | wait t => rfl
    | refuse t => rfl
    | next t =>
      have hlt := hwork s t hs
      exact ih (by omega) (by omega)

/-- The loop to its end, round by round. -/
theorem loop_work_eq (s : σ) :
    loop step (work s + 1) s = (step s).andThen fun t => loop step (work t + 1) t := by
  rw [loop]
  cases hs : step s with
  | wait t => rfl
  | refuse t => rfl
  | next t => exact loop_eq_loop work hwork (hwork s t hs) (Nat.lt_succ_self _)

end Measure

/-! ## Input in pieces -/

/-- A machine that reads from the front of the input it holds. -/
structure Incremental (σ τ ω : Type) where
  step : σ → Outcome σ
  /-- More input behind what is held. -/
  more : List τ → σ → σ
  /-- What is seen of a state in which the machine gave up. -/
  observe : σ → ω
  work : σ → ℕ
  work_lt : ∀ {s t}, step s = .next t → work t < work s
  more_nil : ∀ s, more [] s = s
  more_more : ∀ a b s, more b (more a s) = more (a ++ b) s
  wait_eq : ∀ {s t}, step s = .wait t → t = s
  next_more : ∀ {s t}, step s = .next t → ∀ a, step (more a s) = .next (more a t)
  refuse_more : ∀ {s t}, step s = .refuse t →
    ∀ a, ∃ t', step (more a s) = .refuse t' ∧ observe t' = observe t

namespace Incremental

variable (m : Incremental σ τ ω)

/-- The loop to its end. -/
def settle (s : σ) : Bool × σ := loop m.step (m.work s + 1) s

/-- Pieces of input, with the loop run to its end after each; none is taken after the machine has
given up. -/
def feed : List (List τ) → σ → Bool × σ
  | [], s => (true, s)
  | c :: cs, s =>
    match m.settle (m.more c s) with
    | (true, t) => feed cs t
    | (false, t) => (false, t)

/-- What is seen of a loop's end. -/
def result (r : Bool × σ) : Bool × ω := (r.1, m.observe r.2)

variable {m}

variable {t : σ}

theorem settle_of_wait (h : m.step s = .wait t) : m.settle s = (true, s) := by
  rw [settle, loop, h, Outcome.andThen, m.wait_eq h]

theorem settle_of_refuse (h : m.step s = .refuse t) : m.settle s = (false, t) := by
  rw [settle, loop, h, Outcome.andThen]

theorem settle_of_next (h : m.step s = .next t) : m.settle s = m.settle t := by
  rw [settle, loop_work_eq m.work (fun _ _ => m.work_lt), h]
  rfl

/-- A loop that ended without giving up waits, and more input then goes on from there. -/
theorem settle_more (h : m.settle s = (true, t)) :
    m.settle t = (true, t) ∧ ∀ a, m.settle (m.more a s) = m.settle (m.more a t) := by
  induction hn : m.work s using Nat.strongRecOn generalizing s with
  | _ n ih =>
    cases hs : m.step s with
    | wait u =>
      rw [settle_of_wait hs] at h
      cases h
      exact ⟨settle_of_wait hs, fun _ => rfl⟩
    | refuse u =>
      rw [settle_of_refuse hs] at h
      cases h
    | next u =>
      rw [settle_of_next hs] at h
      obtain ⟨hstop, hmore⟩ := ih (m.work u) (hn ▸ m.work_lt hs) h rfl
      refine ⟨hstop, fun a => ?_⟩
      rw [settle_of_next (m.next_more hs a), hmore a]

/-- A loop that gave up does so with more input, and is seen to end in the same way. -/
theorem settle_more_refuse (h : m.settle s = (false, t)) (a : List τ) :
    m.result (m.settle (m.more a s)) = (false, m.observe t) := by
  induction hn : m.work s using Nat.strongRecOn generalizing s with
  | _ n ih =>
    cases hs : m.step s with
    | wait u =>
      rw [settle_of_wait hs] at h
      cases h
    | refuse u =>
      rw [settle_of_refuse hs] at h
      cases h
      obtain ⟨u', hu', hobs⟩ := m.refuse_more hs a
      rw [settle_of_refuse hu', result, hobs]
    | next u =>
      rw [settle_of_next hs] at h
      rw [settle_of_next (m.next_more hs a)]
      exact ih (m.work u) (hn ▸ m.work_lt hs) h rfl

/-- **Input in pieces ends as the same input in one piece.** -/
theorem feed_settle (cs : List (List τ)) (hs : m.settle s = (true, s)) :
    m.result (m.feed cs s) = m.result (m.settle (m.more cs.flatten s)) := by
  induction cs generalizing s with
  | nil => rw [feed, List.flatten_nil, m.more_nil, hs]
  | cons c cs ih =>
    rw [feed, List.flatten_cons, ← m.more_more]
    cases hc : m.settle (m.more c s) with
    | mk ok t =>
      cases ok with
      | true =>
        obtain ⟨hstop, hmore⟩ := settle_more hc
        rw [hmore]
        exact ih hstop
      | false => exact (settle_more_refuse hc cs.flatten).symm

end Incremental

end Hashmonkey.Lib
