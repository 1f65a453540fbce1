import Mathlib.Algebra.GroupWithZero.Nat
import Mathlib.Data.List.Forall2

/-!
# Two-way formats

A serialiser that is one template for both directions describes a wire format once: saving and
loading walk through the same fields. A `Codec` is such a description together with the two facts
that make it a format:

* `read_write`: what was written without failure is read back, up to `norm`, whatever follows it;
* `write_read`: what the strict reader accepts is what the writer writes for the value it returns.

A writer can fail in the middle, and what it wrote before that is still observable, so `write`
returns the tokens with a success flag. `read` comes in two strengths: `read true` is the strict
reader, `read false` one that may accept more (a deployed reader that is lenient somewhere).
`norm` says what a value looks like after it went through the wire: fields that are not written
come back at their defaults.

The combinators build formats from formats, so a format that is put together from them is lawful
by construction. Results about every codec:

* `Codec.read_of_strict`: the lenient reader agrees with the strict one where that one accepts;
* `Codec.write_eq_iff_strict`: re-writing an accepted input gives it back exactly when the strict
  reader accepts it;
* `Codec.write_append_inj`: what is written can be split off from what follows in one way only;
* `Codec.read_consumed`: a reader that is lenient only where the input ends (`LenientAtEnd`) reads
  what it took from the front of an input in the same way when that is all there is.
-/

namespace Hashmonkey.Lib

open List

/-! ## Writers that can fail -/

/-- What a writer leaves behind: the tokens written, and whether it got through. -/
abbrev Written (τ : Type) := List τ × Bool

variable {τ α β : Type}

/-- One write after another; nothing is written after a failure. -/
def Written.andThen (x y : Written τ) : Written τ := if x.2 then (x.1 ++ y.1, y.2) else x

theorem Written.andThen_ok {x y : Written τ} {bs : List τ} :
    x.andThen y = (bs, true) ↔ ∃ b1 b2, x = (b1, true) ∧ y = (b2, true) ∧ bs = b1 ++ b2 := by
  obtain ⟨b1, o1⟩ := x
  obtain ⟨b2, o2⟩ := y
  cases o1
  · simp [andThen]
  · constructor
    · intro h
      simp only [andThen, if_true, Prod.mk.injEq] at h
      exact ⟨b1, b2, rfl, by rw [h.2], h.1.symm⟩
    · rintro ⟨c1, c2, h1, h2, rfl⟩
      simp only [Prod.mk.injEq, and_true] at h1 h2
      obtain ⟨rfl, rfl⟩ := h2
      simp [andThen, h1]

/-! ## Codecs -/

/-- A wire format for `α` over tokens `τ`, with the laws that tie its two directions. -/
structure Codec (τ α : Type) where
  write : α → Written τ
  read : Bool → List τ → Option (α × List τ)
  norm : α → α
  read_write : ∀ {a : α} {bs : List τ}, write a = (bs, true) →
    ∀ strict rest, read strict (bs ++ rest) = some (norm a, rest)
  write_read : ∀ {inp : List τ} {a : α} {rest : List τ}, read true inp = some (a, rest) →
    ∃ bs, write a = (bs, true) ∧ inp = bs ++ rest

namespace Codec

variable {c : Codec τ α} {inp : List τ} {a : α}

/-- A value the strict reader returns is already in normal form. -/
theorem norm_of_read {rest : List τ} (h : c.read true inp = some (a, rest)) : c.norm a = a := by
  obtain ⟨bs, hw, rfl⟩ := c.write_read h
  rw [c.read_write hw true rest, Option.some.injEq, Prod.mk.injEq] at h
  exact h.1

/-- The lenient reader agrees with the strict one where the strict one accepts. -/
theorem read_of_strict {r : α × List τ}
    (h : c.read true inp = some r) (strict : Bool) : c.read strict inp = some r := by
  obtain ⟨a, rest⟩ := r
  obtain ⟨bs, hw, rfl⟩ := c.write_read h
  rw [c.read_write hw strict rest, norm_of_read h]

variable {bs : List τ}

/-- The normal form is written in the same way. -/
theorem write_norm (h : c.write a = (bs, true)) : c.write (c.norm a) = (bs, true) := by
  have hr := c.read_write h true []
  obtain ⟨bs', hw, e⟩ := c.write_read hr
  rw [append_nil, append_nil] at e
  rwa [e]

/-- **Re-writing an accepted input gives it back exactly when the strict reader accepts it.** -/
theorem write_eq_iff_strict (h : c.read false inp = some (a, [])) :
    c.write a = (inp, true) ↔ ∃ a', c.read true inp = some (a', []) := by
  constructor
  · intro hw
    have hr := c.read_write hw true []
    rw [append_nil] at hr
    exact ⟨_, hr⟩
  · rintro ⟨a', hr⟩
    have e := read_of_strict hr false
    rw [h, Option.some.injEq, Prod.mk.injEq] at e
    obtain ⟨bs, hw, hb⟩ := c.write_read hr
    rw [append_nil] at hb
    rw [e.1, hw, hb]

/-- What is written can be split off from what follows it in one way only. -/
theorem write_append_inj {a' : α} {bs' r r' : List τ} (h : c.write a = (bs, true))
    (h' : c.write a' = (bs', true)) (e : bs ++ r = bs' ++ r') : c.norm a = c.norm a' ∧ r = r' := by
  have hr := c.read_write h true r
  rw [e, c.read_write h' true r', Option.some.injEq, Prod.mk.injEq] at hr
  exact ⟨hr.1.symm, hr.2.symm⟩

/-- A codec that keeps every value as it is. -/
def Exact (c : Codec τ α) : Prop := ∀ a, c.norm a = a

/-- A codec whose values take at least one token. -/
def Nonempty (c : Codec τ α) : Prop := ∀ a bs, c.write a = (bs, true) → bs ≠ []

/-! ## Nothing on the wire, and no format at all -/

/-- Nothing on the wire: the reader leaves the default. -/
def skip (d : α) : Codec τ α where
  write _ := ([], true)
  read _ inp := some (d, inp)
  norm _ := d
  read_write h strict rest := by
    simp only [Prod.mk.injEq, and_true] at h
    rw [← h, nil_append]
  write_read h := by
    simp only [Option.some.injEq, Prod.mk.injEq] at h
    exact ⟨[], rfl, h.2⟩

/-- The empty format: both directions fail. -/
def fail : Codec τ α where
  write _ := ([], false)
  read _ _ := none
  norm a := a
  read_write h := by simp at h
  write_read h := by simp at h

/-- The normal form under a format that is chosen by a condition. -/
theorem ite_norm {p : Prop} [Decidable p] {d : Codec τ α} {x y : α}
    (h : (if p then c else d).write a = (bs, true)) (hc : c.write a = (bs, true) → c.norm a = x)
    (hd : d.write a = (bs, true) → d.norm a = y) :
    (if p then c else d).norm a = if p then x else y := by
  split
  · rename_i hp
    rw [if_pos hp] at h
    exact hc h
  · rename_i hp
    rw [if_neg hp] at h
    exact hd h

/-! ## Sequences -/

/-- One field after another, where the format of the second depends on the value of the first.
`hf`: it depends only on what survives the wire. -/
def dep (c : Codec τ α) (f : α → Codec τ β) (hf : ∀ a, f (c.norm a) = f a) :
    Codec τ (α × β) where
  write p := (c.write p.1).andThen ((f p.1).write p.2)
  read strict inp :=
    match c.read strict inp with
    | none => none
    | some (a, rest) =>
      match (f a).read strict rest with
      | none => none
      | some (b, rest') => some ((a, b), rest')
  norm p := (c.norm p.1, (f p.1).norm p.2)
  read_write {p bs} h strict rest := by
    obtain ⟨b₁, b₂, h₁, h₂, rfl⟩ := Written.andThen_ok.mp h
    rw [append_assoc, c.read_write h₁]
    simp only
    rw [hf, (f p.1).read_write h₂]
  write_read {inp p rest} h := by
    split at h
    · cases h
    rename_i a r hc
    split at h
    · cases h
    rename_i b r' hd
    cases h
    obtain ⟨b₁, h₁, rfl⟩ := c.write_read hc
    obtain ⟨b₂, h₂, rfl⟩ := (f a).write_read hd
    exact ⟨b₁ ++ b₂, Written.andThen_ok.mpr ⟨b₁, b₂, h₁, h₂, rfl⟩,
      (append_assoc b₁ b₂ rest).symm⟩

/-- One field after another. -/
def seq (c : Codec τ α) (d : Codec τ β) : Codec τ (α × β) := c.dep (fun _ => d) fun _ => rfl

variable {d : Codec τ β}

theorem seq_write_ok {b : β} :
    (c.seq d).write (a, b) = (bs, true) ↔
      ∃ b1 b2, c.write a = (b1, true) ∧ d.write b = (b2, true) ∧ bs = b1 ++ b2 :=
  Written.andThen_ok

theorem seq_norm (c : Codec τ α) (d : Codec τ β) (a : α) (b : β) :
    (c.seq d).norm (a, b) = (c.norm a, d.norm b) := rfl

/-- A field followed by a check of its value. `hp`: the check survives the wire. -/
def check (c : Codec τ α) (p : α → Bool) (hp : ∀ a, p a = true → p (c.norm a) = true) :
    Codec τ α where
  write a := ((c.write a).1, (c.write a).2 && p a)
  read strict inp :=
    match c.read strict inp with
    | none => none
    | some (a, rest) => if p a then some (a, rest) else none
  norm := c.norm
  read_write {a bs} h strict rest := by
    simp only [Prod.mk.injEq, Bool.and_eq_true] at h
    obtain ⟨hb, ho, hpa⟩ := h
    rw [c.read_write (Prod.ext hb ho)]
    simp only [hp a hpa, if_true]
  write_read {inp a rest} h := by
    split at h
    · cases h
    rename_i a' r hc
    obtain ⟨hpa, h⟩ := Option.ite_none_right_eq_some.mp h
    cases h
    obtain ⟨bs, hw, rfl⟩ := c.write_read hc
    exact ⟨bs, by rw [hw, hpa]; rfl, rfl⟩

/-! ## Records -/

/-- The format of a record through the tuple of its fields. `view` can refuse a value: the
writer then fails before it writes anything. `hv`: the tuple of a record that was built from a
writable tuple is written in the same way. -/
def map (c : Codec τ α) (build : α → β) (view : β → Option α)
    (hv : ∀ a bs, c.write a = (bs, true) →
      ∃ a', view (build a) = some a' ∧ c.write a' = (bs, true)) : Codec τ β where
  write b :=
    match view b with
    | none => ([], false)
    | some a => c.write a
  read strict inp :=
    match c.read strict inp with
    | none => none
    | some (a, rest) => some (build a, rest)
  norm b :=
    match view b with
    | none => b
    | some a => build (c.norm a)
  read_write {b bs} h strict rest := by
    split at h
    · cases h
    rw [c.read_write h]
  write_read {inp b rest} h := by
    split at h
    · cases h
    rename_i a r hc
    cases h
    obtain ⟨bs, hw, rfl⟩ := c.write_read hc
    obtain ⟨a', ha, hw'⟩ := hv a bs hw
    exact ⟨bs, by rw [ha]; exact hw', rfl⟩

variable {build : α → β} {view : β → Option α}
  {hv : ∀ a bs, c.write a = (bs, true) → ∃ a', view (build a) = some a' ∧ c.write a' = (bs, true)}

theorem map_write_ok {b : β} (h : (c.map build view hv).write b = (bs, true)) :
    ∃ a, view b = some a ∧ c.write a = (bs, true) := by
  unfold map at h
  dsimp only at h
  split at h
  · cases h
  exact ⟨_, ‹_›, h⟩

/-- A value together with the number of tokens that it takes. -/
def sized (c : Codec τ α) : Codec τ (α × Nat) where
  write p := c.write p.1
  read strict inp :=
    match c.read strict inp with
    | none => none
    | some (a, rest) => some ((a, inp.length - rest.length), rest)
  norm p := (c.norm p.1, (c.write p.1).1.length)
  read_write {p bs} h strict rest := by
    rw [c.read_write h, h]
    simp only [length_append, Nat.add_sub_cancel_right]
  write_read {inp p rest} h := by
    split at h
    · cases h
    rename_i a r hc
    cases h
    exact c.write_read hc

/-! ### What the readers of these accept -/

section Reading

variable {strict : Bool} {rest : List τ}

theorem dep_read_iff {f : α → Codec τ β} {hf : ∀ a, f (c.norm a) = f a} {p : α × β} :
    (c.dep f hf).read strict inp = some (p, rest) ↔
      ∃ r, c.read strict inp = some (p.1, r) ∧ (f p.1).read strict r = some (p.2, rest) := by
  simp only [dep]
  grind

theorem check_read_iff {p : α → Bool} {hp : ∀ a, p a = true → p (c.norm a) = true} :
    (c.check p hp).read strict inp = some (a, rest) ↔
      c.read strict inp = some (a, rest) ∧ p a = true := by
  simp only [check]
  grind

theorem map_read_iff {b : β} : (c.map build view hv).read strict inp = some (b, rest) ↔
    ∃ a, c.read strict inp = some (a, rest) ∧ build a = b := by
  simp only [map]
  grind

theorem sized_read_iff {p : α × Nat} : c.sized.read strict inp = some (p, rest) ↔
    c.read strict inp = some (p.1, rest) ∧ inp.length - rest.length = p.2 := by
  simp only [sized]
  grind

end Reading

/-! ## Lists -/

/-- Writes one value with each codec. -/
def writeEach : List (Codec τ α) → List α → Written τ
  | c :: cs, a :: l => (c.write a).andThen (writeEach cs l)
  | _, _ => ([], true)

/-- Reads one value with each codec. -/
def readEach (strict : Bool) : List (Codec τ α) → List τ → Option (List α × List τ)
  | [], inp => some ([], inp)
  | c :: cs, inp =>
    match c.read strict inp with
    | none => none
    | some (a, rest) =>
      match readEach strict cs rest with
      | none => none
      | some (l, rest') => some (a :: l, rest')

theorem readEach_writeEach (strict : Bool) : ∀ {cs : List (Codec τ α)} {l : List α} {bs : List τ},
    l.length = cs.length → writeEach cs l = (bs, true) → ∀ rest,
    readEach strict cs (bs ++ rest) = some (List.zipWith (fun c a => c.norm a) cs l, rest)
  | [], [], bs, _, h, rest => by
    simp only [writeEach, Prod.mk.injEq, and_true] at h
    rw [← h]
    rfl
  | c :: cs, a :: l, bs, hlen, h, rest => by
    obtain ⟨b1, b2, h1, h2, rfl⟩ := Written.andThen_ok.mp h
    have hlen' : l.length = cs.length := Nat.succ.inj hlen
    rw [append_assoc, readEach, c.read_write h1]
    simp only
    rw [readEach_writeEach strict hlen' h2]
    rfl

theorem writeEach_readEach : ∀ {cs : List (Codec τ α)} {inp rest : List τ} {l : List α},
    readEach true cs inp = some (l, rest) →
    l.length = cs.length ∧ ∃ bs, writeEach cs l = (bs, true) ∧ inp = bs ++ rest
  | [], inp, rest, l, h => by
    obtain ⟨rfl, rfl⟩ := h
    exact ⟨rfl, [], rfl, rfl⟩
  | c :: cs, inp, rest, l, h => by
    rw [readEach] at h
    split at h
    · cases h
    rename_i a r hc
    split at h
    · cases h
    rename_i l' r' hd
    cases h
    obtain ⟨b1, h1, rfl⟩ := c.write_read hc
    obtain ⟨hlen, b2, h2, rfl⟩ := writeEach_readEach hd
    exact ⟨congrArg (· + 1) hlen, b1 ++ b2,
      Written.andThen_ok.mpr ⟨b1, b2, h1, h2, rfl⟩, (append_assoc b1 b2 rest).symm⟩

/-- A list whose length is known beforehand, each entry with its own format. A list of another
length is refused before anything is written. -/
def each (cs : List (Codec τ α)) : Codec τ (List α) where
  write l := if l.length = cs.length then writeEach cs l else ([], false)
  read strict := readEach strict cs
  norm l := List.zipWith (fun c a => c.norm a) cs l
  read_write {l bs} h strict rest := by
    split at h
    · rename_i hlen
      exact readEach_writeEach strict hlen h rest
    · simp at h
  write_read {inp l rest} h := by
    obtain ⟨hlen, bs, hw, e⟩ := writeEach_readEach h
    exact ⟨bs, by rw [if_pos hlen]; exact hw, e⟩

/-- A list of a length known beforehand. -/
def vector (n : Nat) (c : Codec τ α) : Codec τ (List α) := each (List.replicate n c)

theorem zipWith_norm_replicate (c : Codec τ α) : ∀ l : List α,
    List.zipWith (fun c a => c.norm a) (List.replicate l.length c) l = l.map c.norm
  | [] => rfl
  | a :: l => by
    rw [length_cons, replicate_succ, zipWith_cons_cons, zipWith_norm_replicate c l, map_cons]

variable {n : Nat} {l : List α}

theorem vector_norm (h : l.length = n) : (vector n c).norm l = l.map c.norm := by
  subst h
  exact zipWith_norm_replicate c l

variable {f : α → α}

/-- The normal form of a list whose entries were written, when that of each entry is known. -/
theorem zipWith_norm_of_writeEach :
    ∀ {cs : List (Codec τ α)} {l : List α} {bs : List τ},
    (∀ c ∈ cs, ∀ a bs, c.write a = (bs, true) → c.norm a = f a) → l.length = cs.length →
    writeEach cs l = (bs, true) → List.zipWith (fun c a => c.norm a) cs l = l.map f
  | [], [], _, _, _, _ => rfl
  | c :: cs, a :: l, bs, hf, hlen, h => by
    obtain ⟨b1, b2, h1, h2, -⟩ := Written.andThen_ok.mp h
    rw [zipWith_cons_cons, map_cons, hf c mem_cons_self a b1 h1,
      zipWith_norm_of_writeEach (fun c hc => hf c (mem_cons_of_mem _ hc))
        (Nat.succ.inj hlen) h2]

theorem each_norm_of_write {cs : List (Codec τ α)}
    (hf : ∀ c ∈ cs, ∀ a bs, c.write a = (bs, true) → c.norm a = f a)
    (h : (each cs).write l = (bs, true)) : (each cs).norm l = l.map f := by
  by_cases hl : l.length = cs.length
  · simp only [each, if_pos hl] at h
    exact zipWith_norm_of_writeEach hf hl h
  · simp only [each, if_neg hl, Prod.mk.injEq, Bool.false_eq_true, and_false] at h

theorem vector_norm_of_write (hf : ∀ a bs, c.write a = (bs, true) → c.norm a = f a)
    (h : (vector n c).write l = (bs, true)) : (vector n c).norm l = l.map f :=
  each_norm_of_write (fun _ hc => (eq_of_mem_replicate hc) ▸ hf) h

/-- A vector with entries that keep their value keeps its value. -/
theorem vector_norm_exact (hc : c.Exact)
    (h : (vector n c).write l = (bs, true)) : (vector n c).norm l = l := by
  rw [vector_norm_of_write (f := id) (fun a _ _ => hc a) h, map_id]

/-- The lists that a `vector` writes have its length. -/
theorem vector_length (h : (vector n c).write l = (bs, true)) : l.length = n := by
  by_cases hl : l.length = (List.replicate n c).length
  · rwa [length_replicate] at hl
  · simp only [vector, each, if_neg hl, Prod.mk.injEq, Bool.false_eq_true, and_false] at h

theorem writeEach_congr : ∀ {l l' : List α},
    List.Forall₂ (fun a a' => c.write a = c.write a') l l' → ∀ n,
    writeEach (List.replicate n c) l = writeEach (List.replicate n c) l'
  | _, _, .nil, _ => rfl
  | _, _, .cons _ _, 0 => rfl
  | _, _, .cons h hs, n + 1 => by
    rw [replicate_succ, writeEach, writeEach, h, writeEach_congr hs]

/-- A vector is written in the same way when its entries are. -/
theorem vector_write_congr {l' : List α} (n : Nat)
    (h : List.Forall₂ (fun a a' => c.write a = c.write a') l l') :
    (vector n c).write l = (vector n c).write l' := by
  simp only [vector, each, h.length_eq, writeEach_congr h]

/-- Entries of at least one token: a written list is at least as long as the list of values. -/
theorem length_le_writeEach (hc : c.Nonempty) : ∀ {l : List α} {bs : List τ},
    writeEach (List.replicate l.length c) l = (bs, true) → l.length ≤ bs.length
  | [], _, _ => Nat.zero_le _
  | a :: l, bs, h => by
    obtain ⟨b1, b2, h1, h2, rfl⟩ := Written.andThen_ok.mp h
    have hpos := length_pos_iff.mpr (hc a b1 h1)
    have ih := length_le_writeEach hc h2
    rw [length_cons, length_append]
    omega

/-- A list behind its length. The reader refuses a length that exceeds what is left of the
input before it reads an entry. -/
def container (count : Codec τ Nat) (c : Codec τ α) (hcount : count.Exact) (hc : c.Nonempty) :
    Codec τ (List α) where
  write l := (count.write l.length).andThen (writeEach (List.replicate l.length c) l)
  read strict inp :=
    match count.read strict inp with
    | none => none
    | some (n, rest) => if rest.length < n then none else readEach strict (List.replicate n c) rest
  norm l := l.map c.norm
  read_write {l bs} h strict rest := by
    obtain ⟨b₁, b₂, h₁, h₂, rfl⟩ := Written.andThen_ok.mp h
    have hle := length_le_writeEach hc h₂
    rw [append_assoc, count.read_write h₁]
    simp only [hcount l.length]
    rw [if_neg (by rw [length_append]; omega),
      readEach_writeEach strict length_replicate.symm h₂, zipWith_norm_replicate]
  write_read {inp l rest} h := by
    split at h
    · cases h
    rename_i n r hn
    obtain ⟨-, h⟩ := Option.ite_none_left_eq_some.mp h
    obtain ⟨hlen, b₂, h₂, rfl⟩ := writeEach_readEach h
    rw [length_replicate] at hlen
    subst hlen
    obtain ⟨b₁, h₁, rfl⟩ := count.write_read hn
    exact ⟨b₁ ++ b₂, Written.andThen_ok.mpr ⟨b₁, b₂, h₁, h₂, rfl⟩,
      (append_assoc b₁ b₂ rest).symm⟩

/-! ## Sizes -/

/-- What is written for a value has the given number of tokens. -/
def Size (c : Codec τ α) (n : α → Nat) : Prop := ∀ a bs, c.write a = (bs, true) → bs.length = n a

theorem Size.skip (d : α) : (skip d : Codec τ α).Size fun _ => 0 := by
  intro a bs h
  simp only [Codec.skip, Prod.mk.injEq, and_true] at h
  rw [← h]
  rfl

variable {f : α → Codec τ β} {hf : ∀ a, f (c.norm a) = f a}

theorem Size.dep {n : α → Nat} {m : α → β → Nat} (hc : c.Size n) (hd : ∀ a, (f a).Size (m a)) :
    (c.dep f hf).Size fun p => n p.1 + m p.1 p.2 := by
  intro p bs h
  obtain ⟨b1, b2, h1, h2, rfl⟩ := Written.andThen_ok.mp h
  rw [length_append, hc p.1 b1 h1, hd p.1 p.2 b2 h2]

theorem Size.seq {n : α → Nat} {m : β → Nat} (hc : c.Size n)
    (hd : d.Size m) : (c.seq d).Size fun p => n p.1 + m p.2 :=
  Size.dep hc fun _ => hd

theorem Size.check {n : α → Nat} {p : α → Bool}
    {hp : ∀ a, p a = true → p (c.norm a) = true} (hc : c.Size n) : (c.check p hp).Size n := by
  intro a bs h
  simp only [Codec.check, Prod.mk.injEq, Bool.and_eq_true] at h
  exact hc a bs (Prod.ext h.1 h.2.1)

theorem Size.map {n : α → Nat} {m : β → Nat} (hc : c.Size n)
    (hm : ∀ b a, view b = some a → m b = n a) : (c.map build view hv).Size m := by
  intro b bs h
  obtain ⟨a, hb, h⟩ := map_write_ok h
  rw [hc a bs h, hm b a hb]

theorem length_writeEach {n : α → Nat} (hc : c.Size n) :
    ∀ {l : List α} {bs : List τ}, writeEach (List.replicate l.length c) l = (bs, true) →
    bs.length = (l.map n).sum
  | [], bs, h => by
    simp only [length_nil, replicate_zero, writeEach, Prod.mk.injEq, and_true] at h
    rw [← h]
    rfl
  | a :: l, bs, h => by
    obtain ⟨b1, b2, h1, h2, rfl⟩ := Written.andThen_ok.mp h
    rw [length_append, hc a b1 h1, length_writeEach hc h2, map_cons, sum_cons]

theorem Size.vector {n : α → Nat} (k : Nat) (hc : c.Size n) :
    (Codec.vector k c).Size fun l => (l.map n).sum := by
  intro l bs h
  have hlen := vector_length h
  subst hlen
  simp only [Codec.vector, each, length_replicate, if_true] at h
  exact length_writeEach hc h

/-- A vector of entries of one size. -/
theorem Size.vector_const (k : Nat) (hc : c.Size fun _ => n) :
    (Codec.vector k c).Size fun _ => k * n := by
  intro l bs h
  have hsize : bs.length = (l.map fun _ => n).sum := hc.vector k l bs h
  rw [hsize, map_const', sum_replicate_nat, vector_length h]

theorem Size.container {count : Codec τ Nat} {hcount : count.Exact}
    {hne : c.Nonempty} {m : Nat → Nat} {n : α → Nat} (hn : count.Size m) (hc : c.Size n) :
    (container count c hcount hne).Size fun l => m l.length + (l.map n).sum := by
  intro l bs h
  obtain ⟨b1, b2, h1, h2, rfl⟩ := Written.andThen_ok.mp h
  rw [length_append, hn l.length b1 h1, length_writeEach hc h2]

/-! ## Tagged unions -/

/-- One alternative of a tagged union. -/
structure Alt (τ V : Type) where
  tag : τ
  Arg : Type
  codec : Codec τ Arg
  inj : Arg → V
  view : V → Option Arg
  view_inj : ∀ x, view (inj x) = some x

/-- Neither the tag nor the values of two alternatives can be confused. -/
def Alt.Disjoint {V : Type} (a b : Alt τ V) : Prop := a.tag ≠ b.tag ∧ ∀ x, a.view (b.inj x) = none

section Variant

variable {V : Type}

/-- Writes the tag of the first alternative a value belongs to, then its content. -/
def writeAlt : List (Alt τ V) → V → Written τ
  | [], _ => ([], false)
  | a :: alts, v =>
    match a.view v with
    | none => writeAlt alts v
    | some x => Written.andThen ([a.tag], true) (a.codec.write x)

/-- Reads the content of the first alternative with the given tag. -/
def readAlt [DecidableEq τ] (strict : Bool) : List (Alt τ V) → τ → List τ → Option (V × List τ)
  | [], _, _ => none
  | a :: alts, t, inp =>
    if a.tag = t then
      match a.codec.read strict inp with
      | none => none
      | some (x, rest) => some (a.inj x, rest)
    else readAlt strict alts t inp

/-- The normal form of a value of a union. -/
def normAlt : List (Alt τ V) → V → V
  | [], v => v
  | a :: alts, v =>
    match a.view v with
    | none => normAlt alts v
    | some x => a.inj (a.codec.norm x)

theorem tag_of_writeAlt : ∀ {alts : List (Alt τ V)} {v : V} {bs : List τ},
    writeAlt alts v = (bs, true) → ∃ a ∈ alts, ∃ bs', bs = a.tag :: bs'
  | [], _, _, h => by simp [writeAlt] at h
  | a :: alts, v, bs, h => by
    cases hv : a.view v with
    | none =>
      simp only [writeAlt, hv] at h
      obtain ⟨b, hb, e⟩ := tag_of_writeAlt h
      exact ⟨b, mem_cons_of_mem a hb, e⟩
    | some x =>
      simp only [writeAlt, hv] at h
      obtain ⟨b1, b2, h1, -, rfl⟩ := Written.andThen_ok.mp h
      simp only [Prod.mk.injEq, and_true] at h1
      exact ⟨a, mem_cons_self, b2, by rw [← h1]; rfl⟩

theorem readAlt_writeAlt [DecidableEq τ] (strict : Bool) :
    ∀ {alts : List (Alt τ V)}, alts.Pairwise Alt.Disjoint → ∀ {v : V} {t : τ} {bs : List τ},
    writeAlt alts v = (t :: bs, true) → ∀ rest,
    readAlt strict alts t (bs ++ rest) = some (normAlt alts v, rest)
  | [], _, _, _, _, h, _ => by simp [writeAlt] at h
  | a :: alts, hd, v, t, bs, h, rest => by
    cases hv : a.view v with
    | none =>
      simp only [writeAlt, hv] at h
      obtain ⟨b, hb, bs', e⟩ := tag_of_writeAlt h
      have hne : a.tag ≠ t := by
        rw [(List.cons.inj e).1]
        exact ((pairwise_cons.mp hd).1 b hb).1
      simp only [readAlt, if_neg hne, normAlt, hv]
      exact readAlt_writeAlt strict (pairwise_cons.mp hd).2 h rest
    | some x =>
      simp only [writeAlt, hv] at h
      obtain ⟨b1, b2, h1, h2, e⟩ := Written.andThen_ok.mp h
      simp only [Prod.mk.injEq, and_true] at h1
      rw [← h1, singleton_append] at e
      obtain ⟨rfl, rfl⟩ := List.cons.inj e
      simp only [readAlt, if_true, normAlt, hv, a.codec.read_write h2]

theorem writeAlt_readAlt [DecidableEq τ] : ∀ {alts : List (Alt τ V)}, alts.Pairwise Alt.Disjoint →
    ∀ {t : τ} {inp rest : List τ} {v : V}, readAlt true alts t inp = some (v, rest) →
    (∃ a ∈ alts, ∃ x, v = a.inj x) ∧ ∃ bs, writeAlt alts v = (t :: bs, true) ∧ inp = bs ++ rest
  | [], _, _, _, _, _, h => by simp [readAlt] at h
  | a :: alts, hd, t, inp, rest, v, h => by
    by_cases ht : a.tag = t
    · subst ht
      rw [readAlt, if_pos rfl] at h
      split at h
      · cases h
      rename_i x r hc
      cases h
      obtain ⟨bs, hw, rfl⟩ := a.codec.write_read hc
      refine ⟨⟨a, mem_cons_self, x, rfl⟩, bs, ?_, rfl⟩
      simp only [writeAlt, a.view_inj, hw]
      rfl
    · simp only [readAlt, if_neg ht] at h
      obtain ⟨⟨b, hb, x, rfl⟩, bs, hw, e⟩ := writeAlt_readAlt (pairwise_cons.mp hd).2 h
      refine ⟨⟨b, mem_cons_of_mem a hb, x, rfl⟩, bs, ?_, e⟩
      have hnone := ((pairwise_cons.mp hd).1 b hb).2 x
      simp only [writeAlt, hnone, hw]

/-- A tagged union: the tag, then the content of the alternative with that tag. -/
def variant [DecidableEq τ] (alts : List (Alt τ V)) (hd : alts.Pairwise Alt.Disjoint) :
    Codec τ V where
  write := writeAlt alts
  read strict
    | [] => none
    | t :: inp => readAlt strict alts t inp
  norm := normAlt alts
  read_write {v bs} h strict rest := by
    obtain ⟨a, -, bs', rfl⟩ := tag_of_writeAlt h
    exact readAlt_writeAlt strict hd h rest
  write_read {inp v rest} h := by
    cases inp with
    | nil => simp at h
    | cons t inp =>
      obtain ⟨-, bs, hw, rfl⟩ := writeAlt_readAlt hd h
      exact ⟨t :: bs, hw, rfl⟩

theorem variant_nonempty [DecidableEq τ] {alts : List (Alt τ V)}
    (hd : alts.Pairwise Alt.Disjoint) : (variant alts hd).Nonempty := by
  intro v bs h
  obtain ⟨a, -, bs', rfl⟩ := tag_of_writeAlt h
  exact cons_ne_nil _ _

end Variant

/-! ## What keeps every value, and what takes room -/

theorem Exact.dep (hc : c.Exact) (hd : ∀ a, (f a).Exact) : (c.dep f hf).Exact := fun p => by
  show (c.norm p.1, (f p.1).norm p.2) = p
  rw [hc, hd]

theorem Exact.seq (hc : c.Exact) (hd : d.Exact) : (c.seq d).Exact := Exact.dep hc fun _ => hd

theorem Exact.check {p : α → Bool} {hp : ∀ a, p a = true → p (c.norm a) = true}
    (hc : c.Exact) : (c.check p hp).Exact := hc

theorem Exact.map (hc : c.Exact) (hb : ∀ b, ∃ a, view b = some a ∧ build a = b) :
    (c.map build view hv).Exact := fun b => by
  obtain ⟨a, ha, rfl⟩ := hb b
  simp only [Codec.map, ha, hc a]

theorem Exact.container {count : Codec τ Nat} {hcount : count.Exact}
    {hn : c.Nonempty} (hc : c.Exact) : (container count c hcount hn).Exact := fun l => by
  show l.map c.norm = l
  rw [show c.norm = id from funext hc, map_id]

theorem Exact.variant {V : Type} [DecidableEq τ] {alts : List (Alt τ V)}
    {hd : alts.Pairwise Alt.Disjoint} (h : ∀ a ∈ alts, a.codec.Exact)
    (hi : ∀ a ∈ alts, ∀ v x, a.view v = some x → a.inj x = v) : (variant alts hd).Exact := by
  intro v
  show normAlt alts v = v
  clear hd
  induction alts with
  | nil => rfl
  | cons a alts ih =>
    cases hv : a.view v with
    | none =>
      simp only [normAlt, hv]
      exact ih (fun b hb => h b (mem_cons_of_mem a hb))
        fun b hb => hi b (mem_cons_of_mem a hb)
    | some x =>
      simp only [normAlt, hv, h a mem_cons_self x]
      exact hi a mem_cons_self v x hv

theorem Nonempty.dep (hc : c.Nonempty) : (c.dep f hf).Nonempty := fun p bs h => by
  obtain ⟨b1, b2, h1, -, rfl⟩ := Written.andThen_ok.mp h
  exact append_ne_nil_of_left_ne_nil (hc p.1 b1 h1) b2

theorem Nonempty.map (hc : c.Nonempty) : (c.map build view hv).Nonempty := fun b bs h => by
  obtain ⟨a, -, h⟩ := map_write_ok h
  exact hc a bs h

/-! ## Lenient at the end of the input only -/

/-- The lenient reader agrees with the strict one on everything that it does not read up to the
end of the input. -/
def LenientAtEnd (c : Codec τ α) : Prop := ∀ ⦃inp : List τ⦄ ⦃a : α⦄ ⦃rest : List τ⦄,
  c.read false inp = some (a, rest) → rest ≠ [] → c.read true inp = some (a, rest)

theorem LenientAtEnd.skip (d : α) : (skip d : Codec τ α).LenientAtEnd := fun _ _ _ h _ => h

theorem LenientAtEnd.ite {p : Prop} [Decidable p] {d : Codec τ α} (hc : c.LenientAtEnd)
    (hd : d.LenientAtEnd) : (if p then c else d).LenientAtEnd := by
  split
  · exact hc
  · exact hd

/-- What a strict reader leaves of an input comes from that input. -/
theorem ne_nil_of_read {inp rest : List τ} {a : α}
    (h : c.read true inp = some (a, rest)) (hr : rest ≠ []) : inp ≠ [] := by
  obtain ⟨bs, -, rfl⟩ := c.write_read h
  exact append_ne_nil_of_right_ne_nil bs hr

theorem LenientAtEnd.dep (hc : c.LenientAtEnd) (hd : ∀ a, (f a).LenientAtEnd) :
    (c.dep f hf).LenientAtEnd := by
  intro inp p rest h hr
  obtain ⟨r, ha, hb⟩ := dep_read_iff.mp h
  have hb' := hd p.1 hb hr
  exact dep_read_iff.mpr ⟨r, hc ha (ne_nil_of_read hb' hr), hb'⟩

theorem LenientAtEnd.seq {d : Codec τ β} (hc : c.LenientAtEnd)
    (hd : d.LenientAtEnd) : (c.seq d).LenientAtEnd := LenientAtEnd.dep hc fun _ => hd

theorem LenientAtEnd.check {p : α → Bool} {hp : ∀ a, p a = true → p (c.norm a) = true}
    (hc : c.LenientAtEnd) : (c.check p hp).LenientAtEnd := by
  intro inp a rest h hr
  obtain ⟨ha, hpa⟩ := check_read_iff.mp h
  exact check_read_iff.mpr ⟨hc ha hr, hpa⟩

theorem LenientAtEnd.map (hc : c.LenientAtEnd) : (c.map build view hv).LenientAtEnd := by
  intro inp b rest h hr
  obtain ⟨a, ha, hb⟩ := map_read_iff.mp h
  exact map_read_iff.mpr ⟨a, hc ha hr, hb⟩

theorem LenientAtEnd.sized (hc : c.LenientAtEnd) : c.sized.LenientAtEnd := by
  intro inp p rest h hr
  obtain ⟨ha, hn⟩ := sized_read_iff.mp h
  exact sized_read_iff.mpr ⟨hc ha hr, hn⟩

theorem readEach_of_lenient : ∀ {cs : List (Codec τ α)}, (∀ c ∈ cs, c.LenientAtEnd) →
    ∀ {inp rest : List τ} {l : List α}, readEach false cs inp = some (l, rest) → rest ≠ [] →
    readEach true cs inp = some (l, rest)
  | [], _, _, _, _, h, _ => h
  | c :: cs, hcs, inp, rest, l, h, hr => by
    simp only [readEach] at h ⊢
    split at h
    · cases h
    rename_i a r ha
    split at h
    · cases h
    rename_i l' r' hl
    cases h
    have hl' := readEach_of_lenient (fun c hc => hcs c (mem_cons_of_mem _ hc)) hl hr
    obtain ⟨-, bs, -, rfl⟩ := writeEach_readEach hl'
    rw [hcs c mem_cons_self ha (append_ne_nil_of_right_ne_nil bs hr)]
    simp only [hl']

theorem LenientAtEnd.vector {n : Nat} (hc : c.LenientAtEnd) :
    (vector n c).LenientAtEnd := fun _ _ _ h hr =>
  readEach_of_lenient (fun _ hd => eq_of_mem_replicate hd ▸ hc) h hr

theorem LenientAtEnd.container {count : Codec τ Nat} {hcount : count.Exact}
    {hne : c.Nonempty} (hn : count.LenientAtEnd) (hc : c.LenientAtEnd) :
    (container count c hcount hne).LenientAtEnd := by
  intro inp l rest h hr
  simp only [Codec.container] at h ⊢
  split at h
  · cases h
  rename_i n r ha
  split at h
  · cases h
  rename_i hle
  have hl := readEach_of_lenient (fun _ hd => eq_of_mem_replicate hd ▸ hc) h hr
  obtain ⟨-, bs, -, hbs⟩ := writeEach_readEach hl
  rw [hn ha (hbs ▸ append_ne_nil_of_right_ne_nil bs hr)]
  simp only [hle, if_false, hl]

theorem LenientAtEnd.variant {V : Type} [DecidableEq τ] {alts : List (Alt τ V)}
    {hd : alts.Pairwise Alt.Disjoint} (h : ∀ a ∈ alts, a.codec.LenientAtEnd) :
    (variant alts hd).LenientAtEnd := by
  have hread : ∀ {alts : List (Alt τ V)}, (∀ a ∈ alts, a.codec.LenientAtEnd) →
      ∀ {t : τ} {inp rest : List τ} {v : V}, readAlt false alts t inp = some (v, rest) →
      rest ≠ [] → readAlt true alts t inp = some (v, rest) := by
    intro alts
    induction alts with
    | nil => exact fun _ _ _ _ _ h _ => h
    | cons a alts ih =>
      intro ha t inp rest v h hr
      simp only [readAlt] at h ⊢
      split at h
      · rename_i ht
        rw [if_pos ht]
        split at h
        · cases h
        rename_i x r hx
        cases h
        rw [ha a mem_cons_self hx hr]
      · rename_i ht
        rw [if_neg ht]
        exact ih (fun b hb => ha b (mem_cons_of_mem a hb)) h hr
  intro inp v rest hv hr
  cases inp with
  | nil => cases hv
  | cons t inp => exact hread h hv hr

/-- **What the lenient reader took from the front of an input is read in the same way on its
own.** -/
theorem read_consumed (hc : c.LenientAtEnd) {inp rest : List τ} {a : α}
    (h : c.read false inp = some (a, rest)) :
    c.read false (inp.take (inp.length - rest.length)) = some (a, []) := by
  by_cases hr : rest = []
  · subst hr
    rwa [length_nil, Nat.sub_zero, take_length]
  have hs := hc h hr
  obtain ⟨bs, hw, rfl⟩ := c.write_read hs
  have hb := c.read_write hw false []
  rw [append_nil, norm_of_read hs] at hb
  rw [length_append, Nat.add_sub_cancel_right, take_left, hb]

end Codec

end Hashmonkey.Lib
