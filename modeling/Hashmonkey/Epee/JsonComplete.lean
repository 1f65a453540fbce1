import Hashmonkey.Epee.Json
import Mathlib.Data.List.TakeWhile

/-!
# Which texts are complete objects (`portable_storage_from_json.h`)

`run_handler` throws on a character that does not fit, but a call whose loop comes to the end of
the text just returns, in whatever state it is. So `load_from_json` accepts texts that stop in the
middle of an object.

* `outside` gives the characters of a text that are not in string literals, and `scan` follows the
  braces and brackets among them until everything is closed.
* `stackScanner` keeps the open delimiters, so that `IsComplete` says that a text is white space
  followed by an object whose closing brace was reached, with every nested object and array closed.
* `braceCounter` only counts braces; `BracesClose` says that behind the first opening brace the
  closing braces catch up with the opening ones.
* A round of the parser moves every such scanner as it moves itself (`Move.scan`), except where a
  nested call came to the end of the text.

Result: **`loadFromJson_complete_iff`**, a text that is accepted is complete exactly when its
braces close; `loadFromJson_incomplete` shows accepted texts that are not.
-/

namespace Hashmonkey.Epee.Json

open Lib List

/-! ## Scanning -/

/-- Where a character stands. -/
inductive Lex
  | plain
  | string
  | escaped
deriving DecidableEq, Repr

/-- The characters of a text outside string literals. -/
def outside : Lex → Bytes → Bytes
  | _, [] => []
  | .plain, c :: cs => if c = quote then outside .string cs else c :: outside .plain cs
  | .string, c :: cs =>
    if c = quote then outside .plain cs
    else if c = backslash then outside .escaped cs
    else outside .string cs
  | .escaped, _ :: cs => outside .string cs

/-- A character that neither delimits nor begins a string. -/
def isNeutral (c : UInt8) : Bool :=
  c != quote && c != openBrace && c != closeBrace && c != openBracket && c != closeBracket

/-- A way to follow the delimiters of a text: what is noted of those that are open. -/
structure Scanner (σ : Type) where
  brace : σ → σ
  bracket : σ → σ
  next : σ → UInt8 → Option σ
  done : σ → Bool
  next_neutral : ∀ {c : UInt8}, isNeutral c = true → ∀ s, next s c = some s
  next_openBrace : ∀ s, next s openBrace = some (brace s)
  next_openBracket : ∀ s, next s openBracket = some (bracket s)
  next_closeBrace : ∀ s, next (brace s) closeBrace = some s
  next_closeBracket : ∀ s, next (bracket s) closeBracket = some s
  brace_open : ∀ s, done (brace s) = false
  bracket_open : ∀ s, done (bracket (brace s)) = false

/-- Is everything closed at some point? -/
def scan {σ : Type} (k : Scanner σ) (s : σ) : Bytes → Bool
  | [] => k.done s
  | c :: cs =>
    if k.done s then true
    else
      match k.next s c with
      | some t => scan k t cs
      | none => false

/-- The two kinds of delimiters. -/
inductive Delim
  | brace
  | bracket
deriving DecidableEq, Repr

/-- The open delimiters, the innermost first. -/
def stackScanner : Scanner (List Delim) where
  brace s := .brace :: s
  bracket s := .bracket :: s
  next s c :=
    if c = openBrace then some (.brace :: s)
    else if c = openBracket then some (.bracket :: s)
    else if c = closeBrace then (if s.head? = some .brace then some s.tail else none)
    else if c = closeBracket then (if s.head? = some .bracket then some s.tail else none)
    else some s
  done s := s.isEmpty
  next_neutral {c} hc s := by
    simp only [isNeutral, Bool.and_eq_true, bne_iff_ne] at hc
    simp [hc]
  next_openBrace s := rfl
  next_openBracket s := rfl
  next_closeBrace s := rfl
  next_closeBracket s := rfl
  brace_open s := rfl
  bracket_open s := rfl

/-- The number of open braces. -/
def braceCounter : Scanner ℕ where
  brace n := n + 1
  bracket n := n
  next n c :=
    if c = openBrace then some (n + 1) else if c = closeBrace then some (n - 1) else some n
  done n := n == 0
  next_neutral {c} hc s := by
    simp only [isNeutral, Bool.and_eq_true, bne_iff_ne] at hc
    simp [hc]
  next_openBrace s := rfl
  next_openBracket s := rfl
  next_closeBrace s := rfl
  next_closeBracket s := rfl
  brace_open s := rfl
  bracket_open s := rfl

/-- White space, and then an object whose closing brace is there and in which every object and
array is closed. -/
def IsComplete (text : Bytes) : Prop :=
  ∃ cs, text.dropWhile isSpace = openBrace :: cs ∧
    scan stackScanner [.brace] (outside .plain cs) = true

/-- From the first opening brace on, outside string literals, there come as many closing braces as
opening ones at some point. -/
def BracesClose (text : Bytes) : Prop :=
  ∃ cs, text.dropWhile (· != openBrace) = openBrace :: cs ∧
    scan braceCounter 1 (outside .plain cs) = true

section Scan

variable {σ : Type} {k : Scanner σ} {s : σ}

theorem scan_of_done (h : k.done s = true) (text : Bytes) : scan k s text = true := by
  cases text with
  | nil => exact h
  | cons c cs => rw [scan, if_pos h]

theorem scan_cons {c : UInt8} {t : σ} (hopen : k.done s = false) (hnext : k.next s c = some t)
    (cs : Bytes) : scan k s (c :: cs) = scan k t cs := by
  rw [scan, if_neg (by simp [hopen]), hnext]

theorem scan_outside_neutral {u : Bytes} (hu : ∀ c ∈ u, isNeutral c = true) (cs : Bytes) :
    scan k s (outside .plain (u ++ cs)) = scan k s (outside .plain cs) := by
  induction u with
  | nil => rfl
  | cons c u ih =>
    have hc := hu c mem_cons_self
    have hquote : c ≠ quote := by
      rintro rfl
      cases hc
    rw [← ih fun d hd => hu d (mem_cons_of_mem c hd), cons_append, outside, if_neg hquote]
    cases hdone : k.done s with
    | true => rw [scan_of_done hdone, scan_of_done hdone]
    | false => rw [scan_cons hdone (k.next_neutral hc s)]

end Scan

/-! ## Strings, numbers and words -/

variable {c : UInt8}

theorem outside_string_cons (hc : isVerbatim c = true) (cs : Bytes) :
    outside .string (c :: cs) = outside .string cs := by
  simp only [isVerbatim, Bool.and_eq_true, bne_iff_ne] at hc
  rw [outside, if_neg hc.1, if_neg hc.2]

theorem verbatim_of_hex {x : ℕ} (h : hexValue c = some x) : isVerbatim c = true := by
  by_contra hv
  have hc : c = quote ∨ c = backslash := by
    simp only [isVerbatim, Bool.and_eq_true, bne_iff_ne, not_and_or, not_not] at hv
    exact hv
  rcases hc with rfl | rfl <;> cases h

variable {text : Bytes}

/-- A string that is matched is what the scanner takes for one. -/
theorem outside_stringLoop {esc : Bool} {r : Bytes × Bytes} (h : stringLoop esc text = some r) :
    outside (if esc then .escaped else .string) text = outside .plain r.2 := by
  fun_induction stringLoop esc text generalizing r with
  | case1 => cases h
  | case2 a b d e rest x y z w he hd hb ha ih =>
    obtain ⟨q, hq, rfl⟩ := Option.map_eq_some_iff.mp h
    change outside .string (a :: b :: d :: e :: rest) = _
    rw [outside_string_cons (verbatim_of_hex ha), outside_string_cons (verbatim_of_hex hb),
      outside_string_cons (verbatim_of_hex hd), outside_string_cons (verbatim_of_hex he), ← ih hq]
    rfl
  | case3 => cases h
  | case4 => cases h
  | case5 c cs _ ih =>
    obtain ⟨q, hq, rfl⟩ := Option.map_eq_some_iff.mp h
    rw [← ih hq]
    rfl
  | case6 cs =>
    cases h
    rfl
  | case7 cs hne ih =>
    rw [← ih h]
    simp [outside, hne]
  | case8 c cs h1 h2 ih =>
    obtain ⟨q, hq, rfl⟩ := Option.map_eq_some_iff.mp h
    rw [← ih hq]
    simp [outside, h1, h2]

theorem outside_matchString2 {r : Bytes × Bytes} (h : matchString2 text = some r) :
    outside .plain (quote :: text) = outside .plain r.2 := by
  obtain ⟨q, hq, rfl⟩ := Option.map_eq_some_iff.mp h
  have hskip : ∀ text : Bytes, outside .string text =
      outside .string (text.dropWhile isVerbatim) := by
    intro text
    induction text with
    | nil => rfl
    | cons c cs ih =>
      by_cases hc : isVerbatim c = true
      · rw [outside_string_cons hc, ih, dropWhile_cons_of_pos hc]
      · rw [dropWhile_cons_of_neg hc]
  rw [outside, if_pos rfl, hskip]
  exact outside_stringLoop hq

theorem neutral_of_class : ∀ c : UInt8,
    (isSpace c || isAlpha c || isNumberChar c || c == colon || c == comma) = true →
      isNeutral c = true :=
  forall_byte (by decide +kernel)

/-- What a number is written with. -/
theorem matchNumber2_text {tok : NumberToken} (h : matchNumber2 text = some tok) :
    ∃ u, text = u ++ tok.rest ∧ ∀ c ∈ u, isNeutral c = true := by
  simp only [matchNumber2] at h
  split_ifs at h with hsigned hnil hnil
  all_goals cases h
  · cases text with
    | nil => cases hsigned
    | cons c cs =>
      obtain rfl : c = minus := by simpa using hsigned
      refine ⟨minus :: cs.takeWhile isNumberChar, by simp [takeWhile_append_dropWhile], ?_⟩
      rintro d (_ | ⟨_, hd⟩)
      · decide
      · exact neutral_of_class d (by simp [mem_takeWhile_imp hd])
  · exact ⟨_, (takeWhile_append_dropWhile).symm, fun d hd =>
      neutral_of_class d (by simp [mem_takeWhile_imp hd])⟩

theorem matchWord2_text {w : Bytes × Bytes} (h : matchWord2 text = some w) :
    ∃ u, text = u ++ w.2 ∧ ∀ c ∈ u, isNeutral c = true := by
  simp only [matchWord2] at h
  split_ifs at h
  cases h
  exact ⟨_, (takeWhile_append_dropWhile).symm, fun d hd =>
    neutral_of_class d (by simp [mem_takeWhile_imp hd])⟩

/-! ## A round moves the scanner -/

/-- A text that is not taken behind a value: white space, and then its end or a string. -/
def Unfinished (text : Bytes) : Prop :=
  ∀ c cs, text.dropWhile isSpace = c :: cs → c = quote

/-- What a nested call does to a scanner: it leaves the delimiter that the call began with, or does
not find its end. -/
structure NestedScans (nested : Section → Bytes → Option Handled) : Prop where
  shrinks : Shrinks nested
  closed : ∀ {sec sec' : Section} {cs rest : Bytes},
    nested sec (openBrace :: cs) = some (sec', some rest) →
    ∀ {σ : Type} (k : Scanner σ) (s : σ),
      scan k (k.brace s) (outside .plain cs) = scan k s (outside .plain rest)
  unclosed : ∀ {sec sec' : Section} {cs : Bytes},
    nested sec (openBrace :: cs) = some (sec', none) →
    Unfinished cs ∧ ∀ {σ : Type} (k : Scanner σ) (s : σ),
      scan k (k.brace s) (outside .plain cs) = false

/-- What is open in a state inside a section. -/
def inside {σ : Type} (k : Scanner σ) (s : σ) : MatchState → σ
  | .wonderArray | .arrayAfterValue | .arrayWaitingValue => k.bracket (k.brace s)
  | _ => k.brace s

section Moves

variable {nested : Section → Bytes → Option Handled} {σ : Type} {k : Scanner σ} {s : σ}
  {text rest : Bytes} {st st' : MatchState}

theorem done_inside : k.done (inside k s st) = false := by
  cases st <;> first | exact k.brace_open s | exact k.bracket_open s

theorem scan_outside_cons {t : σ} {cs : Bytes} (hc : c ≠ quote)
    (hopen : k.done s = false) (hnext : k.next s c = some t) :
    scan k s (outside .plain (c :: cs)) = scan k t (outside .plain cs) := by
  rw [outside, if_neg hc, scan_cons hopen hnext]

/-- A value is behind the scanner, or stops in the middle. -/
theorem Value.scan (hn : NestedScans nested) (h : Value nested text rest)
    (hopen : k.done s = false) :
    Json.scan k s (outside .plain text) = Json.scan k s (outside .plain rest) ∨
      Unfinished rest ∧ Json.scan k s (outside .plain text) = false := by
  cases h with
  | string h => exact .inl (by rw [outside_matchString2 h])
  | number hc h =>
    obtain ⟨u, htext, hu⟩ := matchNumber2_text h
    exact .inl (by rw [htext, scan_outside_neutral hu])
  | word hc h =>
    obtain ⟨u, htext, hu⟩ := matchWord2_text h
    exact .inl (by rw [htext, scan_outside_neutral hu])
  | closed h =>
    refine .inl ?_
    rw [scan_outside_cons (by decide) hopen (k.next_openBrace s), hn.closed h]
  | unclosed h =>
    refine .inr ⟨(hn.unclosed h).1, ?_⟩
    rw [scan_outside_cons (by decide) hopen (k.next_openBrace s), (hn.unclosed h).2]

/-- **A round moves the scanner as it moves the parser**, or it has read a section that stops in
the middle. -/
theorem Move.scan (hn : NestedScans nested) (h : Move nested st text st' rest)
    (hst : st ≠ .lookupForSectionStart) :
    Json.scan k (inside k s st) (outside .plain text) =
        Json.scan k (inside k s st') (outside .plain rest) ∨
      Unfinished rest ∧ (st' = .wonderAfterValue ∨ st' = .arrayAfterValue) ∧
        Json.scan k (inside k s st) (outside .plain text) = false := by
  have hneutral {c : UInt8} (hc : isNeutral c = true) (cs : Bytes) (t : σ) :
      Json.scan k t (outside .plain (c :: cs)) = Json.scan k t (outside .plain cs) :=
    scan_outside_neutral (u := [c]) (by simpa using hc) cs
  cases h with
  | space hc => exact .inl (hneutral (neutral_of_class _ (by simp [hc])) _ _)
  | start => exact absurd rfl hst
  | name h => exact .inl (by rw [outside_matchString2 h]; rfl)
  | separator => exact .inl (hneutral (by decide) _ _)
  | field => exact .inl (hneutral (by decide) _ _)
  | array => exact .inl (scan_outside_cons (by decide) done_inside (k.next_openBracket _))
  | noElement => exact .inl (scan_outside_cons (by decide) done_inside (k.next_closeBracket _))
  | endArray => exact .inl (scan_outside_cons (by decide) done_inside (k.next_closeBracket _))
  | element => exact .inl (hneutral (by decide) _ _)
  | value hawait hvalue =>
    have hsame : inside k s st' = inside k s st := by cases hawait <;> rfl
    have hstate : st' = .wonderAfterValue ∨ st' = .arrayAfterValue := by
      cases hawait <;> simp
    rw [hsame]
    rcases hvalue.scan hn (done_inside (s := s)) with heq | ⟨hunf, hfalse⟩
    · exact .inl heq
    · exact .inr ⟨hunf, hstate, hfalse⟩

theorem Move.target_ne (h : Move nested st text st' rest) (hst : st ≠ .lookupForSectionStart) :
    st' ≠ .lookupForSectionStart := by
  cases h with
  | space _ => exact hst
  | value hawait _ => cases hawait <;> nofun
  | _ => nofun

end Moves

/-! ## A call moves the scanner -/

section Calls

variable {strtod : Bytes → Option (Fin (256 ^ 8))} {nested : Section → Bytes → Option Handled}
  {p r : Parser}

theorem unfinished_cons {cs : Bytes} (hc : isSpace c = true) :
    Unfinished (c :: cs) ↔ Unfinished cs := by
  rw [Unfinished, Unfinished, dropWhile_cons_of_pos hc]

theorem not_unfinished {cs : Bytes} (hspace : isSpace c = false) (hquote : c ≠ quote) :
    ¬ Unfinished (c :: cs) :=
  fun h => hquote (h c cs (dropWhile_cons_of_neg (by simp [hspace])))

/-- Behind a value that stopped in the middle the closing brace is not found. -/
theorem not_closed_of_unfinished (hn : Shrinks nested) :
    ∀ p r : Parser, p.run strtod nested = (true, r) →
      p.state = .wonderAfterValue ∨ p.state = .arrayAfterValue → Unfinished p.text →
      p.closed = false → r.closed = false := by
  refine run_induction hn ?_ ?_
  · intro p q hstop _ hunf hp
    rcases step_wait hstop with ⟨-, rfl⟩ | ⟨cs, htext, -, -⟩
    · exact hp
    · exact absurd (htext ▸ hunf) (not_unfinished (by decide) (by decide))
  · intro p q r hnext _ ih hst hunf hp
    obtain ⟨hmove, hsame⟩ := step_next hnext
    generalize p.state = st, p.text = text, q.state = st', q.text = rest at *
    cases hmove with
    | space hc => exact ih hst ((unfinished_cons hc).mp hunf) (hsame.trans hp)
    | field => exact absurd hunf (not_unfinished (by decide) (by decide))
    | endArray => exact absurd hunf (not_unfinished (by decide) (by decide))
    | element => exact absurd hunf (not_unfinished (by decide) (by decide))
    | value hawait _ => cases hawait <;> simp at hst
    | _ => simp at hst

/-- A section that stops before its first name is white space to the end, and one that stops later
has a name first. -/
theorem unfinished_of_not_closed (hn : Shrinks nested) :
    ∀ p r : Parser, p.run strtod nested = (true, r) → p.state = .lookupForName →
      r.closed = false → Unfinished p.text := by
  refine run_induction hn ?_ ?_
  · intro p q hstop _ hq
    rcases step_wait hstop with ⟨htext, -⟩ | ⟨cs, -, -, rfl⟩
    · rw [htext]
      nofun
    · cases hq
  · intro p q r hnext _ ih hst hr
    obtain ⟨hmove, -⟩ := step_next hnext
    generalize p.state = st, p.text = text, q.state = st', q.text = rest at *
    subst hst
    cases hmove with
    | space hc => exact (unfinished_cons hc).mpr (ih rfl hr)
    | name h =>
      intro c cs heq
      exact (List.cons.inj heq).1.symm
    | value hawait _ => cases hawait

/-- **A call leaves the scanner behind its section, or does not find the section's end.** -/
theorem run_scan (hn : NestedScans nested) :
    ∀ p r : Parser, p.run strtod nested = (true, r) → p.state ≠ .lookupForSectionStart →
      p.closed = false → ∀ {σ : Type} (k : Scanner σ) (s : σ),
        scan k (inside k s p.state) (outside .plain p.text) =
          (r.closed && scan k s (outside .plain r.text)) := by
  refine run_induction hn.shrinks ?_ ?_
  · intro p q hstop hst hp σ k s
    rcases step_wait hstop with ⟨htext, rfl⟩ | ⟨cs, htext, hstate, rfl⟩
    · rw [hp, htext, Bool.false_and]
      exact done_inside
    have hbrace : inside k s p.state = k.brace s := by rcases hstate with h | h <;> rw [h] <;> rfl
    rw [hbrace, htext, scan_outside_cons (by decide) (k.brace_open s) (k.next_closeBrace s)]
    rfl
  · intro p q r hnext hrun ih hst hp σ k s
    obtain ⟨hmove, hsame⟩ := step_next hnext
    have hq : q.closed = false := hsame.trans hp
    rcases hmove.scan hn hst (k := k) (s := s) with heq | ⟨hunf, hstate, hfalse⟩
    · rw [heq]
      exact ih (hmove.target_ne hst) hq k s
    · rw [hfalse, not_closed_of_unfinished hn.shrinks q r hrun hstate hunf hq, Bool.false_and]

/-- Before the opening brace of the section there is white space only. -/
theorem run_start (hn : Shrinks nested) :
    ∀ p r : Parser, p.run strtod nested = (true, r) → p.state = .lookupForSectionStart →
      p.closed = false →
      p.text.dropWhile isSpace = [] ∧ r.closed = false ∨
        ∃ q : Parser, p.text.dropWhile isSpace = openBrace :: q.text ∧ q.state = .lookupForName ∧
          q.closed = false ∧ q.run strtod nested = (true, r) := by
  refine run_induction hn ?_ ?_
  · intro p q hstop hst hp
    rcases step_wait hstop with ⟨htext, rfl⟩ | ⟨cs, -, hstate, -⟩
    · exact .inl ⟨by rw [htext]; rfl, hp⟩
    rw [hst] at hstate
    simp at hstate
  · intro p q r hnext hrun ih hst hp
    obtain ⟨hmove, hsame⟩ := step_next hnext
    have hq : q.closed = false := hsame.trans hp
    generalize p.state = st, p.text = text, hst2 : q.state = st', hrest : q.text = rest at *
    subst hst
    cases hmove with
    | space hc =>
      rw [dropWhile_cons_of_pos hc]
      exact ih rfl hq
    | start => exact .inr ⟨q, by rw [hrest, dropWhile_cons_of_neg (by decide)], hst2, hq, hrun⟩
    | value hawait _ => cases hawait

/-- A call reads white space to the end, or up to a brace and then follows its section. -/
theorem run_section (hn : NestedScans nested) (hrun : p.run strtod nested = (true, r))
    (hst : p.state = .lookupForSectionStart) (hp : p.closed = false) :
    p.text.dropWhile isSpace = [] ∨ ∃ cs, p.text.dropWhile isSpace = openBrace :: cs ∧
      (r.closed = false → Unfinished cs) ∧ ∀ {σ : Type} (k : Scanner σ) (s : σ),
        scan k (k.brace s) (outside .plain cs) =
          (r.closed && scan k s (outside .plain r.text)) := by
  refine (run_start hn.shrinks p r hrun hst hp).imp And.left ?_
  rintro ⟨q, htext, hq, hopen, hrest⟩
  refine ⟨q.text, htext, unfinished_of_not_closed hn.shrinks q r hrest hq, fun k s => ?_⟩
  have hscan := run_scan hn q r hrest (by rw [hq]; nofun) hopen k s
  rwa [hq] at hscan

end Calls

/-- What a call gives, and the state its loop ended in. -/
theorem result_eq_some {x : Bool × Parser} {h : Handled} (hx : Parser.result x = some h) :
    ∃ p, x = (true, p) ∧ h = (p.sec, if p.closed then some p.text else none) := by
  obtain ⟨ok, p⟩ := x
  cases ok with
  | false => cases hx
  | true => exact ⟨p, rfl, (Option.some.inj hx).symm⟩

/-- The nested calls of every level. -/
theorem nestedScans_runHandler (strtod : Bytes → Option (Fin (256 ^ 8))) (r : ℕ) :
    NestedScans (runHandler strtod r) := by
  induction r with
  | zero => exact ⟨shrinks_runHandler strtod 0, nofun, nofun⟩
  | succ r ih =>
    have hcall {sec : Section} {cs : Bytes} {p : Parser}
        (hp : Parser.run strtod (runHandler strtod r) (.start sec (openBrace :: cs)) = (true, p)) :
        (p.closed = false → Unfinished cs) ∧ ∀ {σ : Type} (k : Scanner σ) (s : σ),
          scan k (k.brace s) (outside .plain cs) =
            (p.closed && scan k s (outside .plain p.text)) := by
      rcases run_section ih hp rfl rfl with hnil | ⟨cs', htext, hcs⟩
      · cases hnil
      · obtain rfl : cs = cs' := (List.cons.inj htext).2
        exact hcs
    refine ⟨shrinks_runHandler strtod (r + 1), ?_, ?_⟩
    · intro sec sec' cs rest h σ k s
      obtain ⟨p, hp, hclosed, rfl, -⟩ := result_some h
      rw [(hcall hp).2 k s, hclosed, Bool.true_and]
    · intro sec sec' cs h
      obtain ⟨p, hp, heq⟩ := result_eq_some h
      have hclosed : p.closed = false := by
        cases hc : p.closed with
        | false => rfl
        | true =>
          rw [hc] at heq
          cases heq
      exact ⟨(hcall hp).1 hclosed, fun k s => by rw [(hcall hp).2 k s, hclosed, Bool.false_and]⟩

/-- White space does not matter before the first brace. -/
theorem dropWhile_brace {cs : Bytes} (h : text.dropWhile isSpace = openBrace :: cs) :
    text.dropWhile (· != openBrace) = openBrace :: cs := by
  induction text with
  | nil => cases h
  | cons c text ih =>
    cases hc : isSpace c with
    | true =>
      rw [dropWhile_cons_of_pos hc] at h
      have hne : (c != openBrace) = true := by
        rw [bne_iff_ne]
        rintro rfl
        cases hc
      exact (dropWhile_cons_of_pos (p := (· != openBrace)) hne).trans (ih h)
    | false =>
      rw [dropWhile_cons_of_neg (by simp [hc])] at h
      obtain ⟨rfl, rfl⟩ := List.cons.inj h
      exact dropWhile_cons_of_neg (by decide)

theorem dropWhile_no_brace (h : text.dropWhile isSpace = []) :
    text.dropWhile (· != openBrace) = [] := by
  rw [dropWhile_eq_nil_iff] at h ⊢
  intro c hc
  rw [bne_iff_ne]
  rintro rfl
  cases h _ hc

/-- **A text that is accepted is a complete object exactly when its braces close.** -/
theorem loadFromJson_complete_iff (strtod : Bytes → Option (Fin (256 ^ 8))) (root : Section)
    (text : Bytes) (h : (loadFromJson strtod root text).isSome = true) :
    IsComplete text ↔ BracesClose text := by
  rw [loadFromJson, Option.isSome_map] at h
  obtain ⟨res, hres⟩ := Option.isSome_iff_exists.mp h
  obtain ⟨p, hp, -⟩ := result_eq_some hres
  rcases run_section (nestedScans_runHandler strtod 99) hp rfl rfl with
    hnil | ⟨cs, htext, -, hscan⟩
  · -- nothing but white space
    have hbrace := dropWhile_no_brace hnil
    constructor
    · rintro ⟨cs, hcs, -⟩
      cases hnil.symm.trans hcs
    · rintro ⟨cs, hcs, -⟩
      cases hbrace.symm.trans hcs
  · have hstack := hscan stackScanner []
    have hcount := hscan braceCounter 0
    rw [scan_of_done (s := []) rfl, Bool.and_true] at hstack
    rw [scan_of_done (s := 0) rfl, Bool.and_true] at hcount
    constructor
    · rintro ⟨cs', hcs, hclose⟩
      obtain rfl : cs = cs' := (List.cons.inj (htext.symm.trans hcs)).2
      exact ⟨cs, dropWhile_brace htext, hcount.trans (hstack.symm.trans hclose)⟩
    · rintro ⟨cs', hcs, hclose⟩
      obtain rfl : cs = cs' := (List.cons.inj ((dropWhile_brace htext).symm.trans hcs)).2
      exact ⟨cs, htext, hstack.trans (hcount.symm.trans hclose)⟩

/-- An object in an array in an object in an object: `{"a":{"b":[{"c":"}"}]}}`. -/
def nestedText : Bytes :=
  [openBrace, quote, 97, quote, colon, openBrace, quote, 98, quote, colon, openBracket, openBrace,
    quote, 99, quote, colon, quote, closeBrace, quote, closeBrace, closeBracket, closeBrace,
    closeBrace]

/-- Its braces close, but for the one in the string. -/
theorem loadFromJson_complete_nested :
    (loadFromJson (fun _ => none) .nil nestedText).isSome = true ∧ IsComplete nestedText := by
  have hload : (loadFromJson (fun _ => none) .nil nestedText).isSome = true := by decide +kernel
  exact ⟨hload,
    (loadFromJson_complete_iff (fun _ => none) .nil nestedText hload).mpr ⟨_, rfl, by decide⟩⟩

/-- An opening brace alone, and an object with a field that is an empty object but without its own
closing brace, are accepted. -/
theorem loadFromJson_incomplete :
    ((loadFromJson (fun _ => none) .nil [openBrace]).isSome = true ∧ ¬ IsComplete [openBrace]) ∧
    (loadFromJson (fun _ => none) .nil
        [openBrace, quote, 97, quote, colon, openBrace, closeBrace]).isSome = true ∧
      ¬ IsComplete [openBrace, quote, 97, quote, colon, openBrace, closeBrace] := by
  refine ⟨⟨by decide, ?_⟩, by decide, ?_⟩
  · rintro ⟨cs, hcs, hscan⟩
    obtain rfl : [] = cs := (List.cons.inj hcs).2
    exact absurd hscan (by decide)
  · rintro ⟨cs, hcs, hscan⟩
    obtain rfl : [quote, 97, quote, colon, openBrace, closeBrace] = cs := (List.cons.inj hcs).2
    exact absurd hscan (by decide)

end Hashmonkey.Epee.Json
