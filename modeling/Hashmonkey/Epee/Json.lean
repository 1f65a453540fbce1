import Hashmonkey.Epee.Storage
import Hashmonkey.Lib.Incremental

/-!
# Loading a portable storage from JSON (`portable_storage_from_json.h`)

A model of the state machine `run_handler`, with the matchers of `parserse_base_utils.cpp` and the
operations of `portable_storage` that it calls.

* The storage's handles become values: `run_handler` takes the section it fills and gives it back,
  and the handle of an array is the name of its entry, which does not change while the array is
  read.
* The iterator is the text that is left. `run_handler` hands it back through a reference, but only
  from the two places where it finds the closing brace of its section; a call that runs out of text
  leaves the caller's iterator at the opening brace. So a call's result is the section and, when
  the brace was found, the text behind it (`runHandler`).
* A throw is `none`, with no section: what a failed load leaves in the storage is not modelled.
* `strtod` is a parameter, which gives the bytes of the `double`, or nothing where it sets `errno`.
-/

namespace Hashmonkey.Epee.Json

open Lib

/-! ## Characters -/

/-- The double quote. -/
def quote : UInt8 := 0x22

/-- The backslash. -/
def backslash : UInt8 := 0x5c

/-- The opening brace. -/
def openBrace : UInt8 := 0x7b

/-- The closing brace. -/
def closeBrace : UInt8 := 0x7d

/-- The opening bracket. -/
def openBracket : UInt8 := 0x5b

/-- The closing bracket. -/
def closeBracket : UInt8 := 0x5d

/-- The colon. -/
def colon : UInt8 := 0x3a

/-- The comma. -/
def comma : UInt8 := 0x2c

/-- The minus sign. -/
def minus : UInt8 := 0x2d

/-- Flag 8 of `lut`. -/
def isSpace (c : UInt8) : Bool := c == 32 || (9 ≤ c && c ≤ 13)

/-- Flag 1 of `lut`. -/
def isDigit (c : UInt8) : Bool := 48 ≤ c && c ≤ 57

/-- Flag 4 of `lut`, and `isalpha`. -/
def isAlpha (c : UInt8) : Bool := (65 ≤ c && c ≤ 90) || (97 ≤ c && c ≤ 122)

/-- Flag 2 of `lut`: a point or an exponent. -/
def isFloatChar (c : UInt8) : Bool := c == 46 || c == 69 || c == 101

/-- Flag 16 of `lut`: digits, signs, points and exponents. -/
def isNumberChar (c : UInt8) : Bool := isDigit c || isFloatChar c || c == 43 || c == 45

/-- Not flag 32 of `lut`. -/
def isVerbatim (c : UInt8) : Bool := c != quote && c != backslash

/-! ## Matchers -/

/-- `isx`. -/
def hexValue (c : UInt8) : Option ℕ :=
  if isDigit c then some (c.toNat - 48)
  else if 65 ≤ c ∧ c ≤ 70 then some (c.toNat - 55)
  else if 97 ≤ c ∧ c ≤ 102 then some (c.toNat - 87)
  else none

/-- The UTF-8 bytes of a code point of four hexadecimal digits. -/
def utf8 (dst : ℕ) : Bytes :=
  if dst ≤ 0x7f then [.ofNat dst]
  else if dst ≤ 0x7ff then [.ofNat (0xc0 ||| dst >>> 6), .ofNat (0x80 ||| dst &&& 0x3f)]
  else [.ofNat (0xe0 ||| dst >>> 12), .ofNat (0x80 ||| (dst >>> 6) &&& 0x3f),
    .ofNat (0x80 ||| dst &&& 0x3f)]

/-- The character behind a backslash; an unknown one stands for itself. -/
def unescape (c : UInt8) : UInt8 :=
  if c = 98 then 8
  else if c = 102 then 12
  else if c = 110 then 10
  else if c = 114 then 13
  else if c = 116 then 9
  else if c = 118 then 11
  else c

/-- The loop of `match_string2`, with its escape mode: the value and the text behind the closing
quote. -/
def stringLoop : Bool → Bytes → Option (Bytes × Bytes)
  | _, [] => none
  | true, c :: cs =>
    if c = 117 then
      match cs with
      | a :: b :: d :: e :: rest =>
        match hexValue a, hexValue b, hexValue d, hexValue e with
        | some x, some y, some z, some w =>
          (stringLoop false rest).map fun r => (utf8 (((x * 16 + y) * 16 + z) * 16 + w) ++ r.1, r.2)
        | _, _, _, _ => none
      | _ => none
    else (stringLoop false cs).map fun r => (unescape c :: r.1, r.2)
  | false, c :: cs =>
    if c = quote then some ([], cs)
    else if c = backslash then stringLoop true cs
    else (stringLoop false cs).map fun r => (c :: r.1, r.2)

/-- `match_string2`, on the text behind the opening quote: what needs no attention is taken over
at once. -/
def matchString2 (text : Bytes) : Option (Bytes × Bytes) :=
  (stringLoop false (text.dropWhile isVerbatim)).map fun r =>
    (text.takeWhile isVerbatim ++ r.1, r.2)

/-- What `match_number2` finds. -/
structure NumberToken where
  val : Bytes
  isFloat : Bool
  isSigned : Bool
  rest : Bytes

/-- `match_number2`; a number that ends with the text is refused. -/
def matchNumber2 (text : Bytes) : Option NumberToken :=
  let isSigned := text.head? == some minus
  let body := if isSigned then text.tail else text
  let chars := body.takeWhile isNumberChar
  let rest := body.dropWhile isNumberChar
  let val := if isSigned then minus :: chars else chars
  if rest = [] ∨ val = [] then none
  else some ⟨val, chars.any isFloatChar, isSigned, rest⟩

/-- `match_word2`. -/
def matchWord2 (text : Bytes) : Option (Bytes × Bytes) :=
  if text.dropWhile isAlpha = [] ∨ text.takeWhile isAlpha = [] then none
  else some (text.takeWhile isAlpha, text.dropWhile isAlpha)

/-- `boost::iequals` with a word in lower case. -/
def iequals (word lower : Bytes) : Bool :=
  word.map (fun c => if 65 ≤ c ∧ c ≤ 90 then c + 32 else c) == lower

/-- The word of null. -/
def wordNull : Bytes := [110, 117, 108, 108]

/-- The word of true. -/
def wordTrue : Bytes := [116, 114, 117, 101]

/-- The word of false. -/
def wordFalse : Bytes := [102, 97, 108, 115, 101]

/-- The number that the digits at the front of a text spell. -/
def digitsValue (text : Bytes) : ℕ :=
  (text.takeWhile isDigit).foldl (fun acc d => acc * 10 + (d.toNat - 48)) 0

/-- `strtoull`. -/
def strtoull (val : Bytes) : Option (Fin (256 ^ 8)) :=
  if h : digitsValue val < 256 ^ 8 then some ⟨digitsValue val, h⟩ else none

/-- `strtoll` of a number with a minus sign, in two's complement. -/
def strtoll (val : Bytes) : Option (Fin (256 ^ 8)) :=
  if digitsValue val.tail ≤ 2 ^ 63 then
    some ⟨(256 ^ 8 - digitsValue val.tail) % 256 ^ 8, Nat.mod_lt _ (by decide)⟩
  else none

/-- The value of a number: a `double`, an `int64_t` or a `uint64_t` by the way it is written. -/
def NumberToken.value (strtod : Bytes → Option (Fin (256 ^ 8))) (tok : NumberToken) :
    Option (Σ t : PodType, t.Val) :=
  if tok.isFloat then (strtod tok.val).map fun v => ⟨.double, v⟩
  else if tok.isSigned then (strtoll tok.val).map fun v => ⟨.int64, v⟩
  else (strtoull tok.val).map fun v => ⟨.uint64, v⟩

/-! ## The storage -/

/-- Something that can be put into an array. -/
inductive Element
  | pod (t : PodType) (v : t.Val)
  | string (v : Bytes)
  | object (s : Section)

/-- An array of one element. -/
def Element.single : Element → ArrayEntry
  | .pod t v => .pods t [v]
  | .string v => .strings [v]
  | .object s => .objects [s]

/-- `insert_next_value` and `insert_next_section`: an element of the array's own type. -/
def push : ArrayEntry → Element → Option ArrayEntry
  | .pods t vs, .pod u v => if h : u = t then some (.pods t (vs ++ [h ▸ v])) else none
  | .strings vs, .string v => some (.strings (vs ++ [v]))
  | .objects vs, .object s => some (.objects (vs ++ [s]))
  | _, _ => none

/-- Can an entry of a name be made or replaced? `insert_new_entry_get_storage_entry` refuses an
empty name. -/
def canInsert (name : Bytes) (sec : Section) : Prop := name ≠ [] ∨ (sec.find name).isSome

instance (name : Bytes) (sec : Section) : Decidable (canInsert name sec) :=
  inferInstanceAs (Decidable (_ ∨ _))

/-- `set_value`, whose result the parser does not look at. -/
def setValue (name : Bytes) (e : StorageEntry) (sec : Section) : Section :=
  if canInsert name sec then sec.set name e else sec

/-- `open_section`: the section that is there, or an empty one in place of what is there. -/
def openSection (name : Bytes) (sec : Section) : Option Section :=
  if canInsert name sec then
    match sec.find name with
    | some (.object s) => some s
    | _ => some .nil
  else none

/-- `insert_first_value` and `insert_first_section`: an array of one element in place of what is
there. -/
def insertFirst (name : Bytes) (x : Element) (sec : Section) : Option Section :=
  if canInsert name sec then some (sec.set name (.array x.single)) else none

/-- `insert_next_value` and `insert_next_section` on the array of a name. -/
def insertNext (name : Bytes) (x : Element) (sec : Section) : Option Section :=
  match sec.find name with
  | some (.array a) => (push a x).map fun b => sec.set name (.array b)
  | _ => none

/-! ## The state machine -/

/-- `match_state`; the error state is never entered. -/
inductive MatchState
  | lookupForSectionStart
  | lookupForName
  | waitingSeparator
  | wonderAfterSeparator
  | wonderAfterValue
  | wonderArray
  | arrayAfterValue
  | arrayWaitingValue
deriving DecidableEq, Repr

/-- `array_mode`. -/
inductive ArrayMode
  | undefined
  | sections
  | string
  | numbers
  | booleans
deriving DecidableEq, Repr

/-- The variables of `run_handler`, with the text from its iterator on. -/
structure Parser where
  text : Bytes
  sec : Section
  name : Bytes
  state : MatchState
  mode : ArrayMode
  closed : Bool

/-- What a call of `run_handler` gives: the section, and the text behind the closing brace if that
was found. -/
abbrev Handled := Section × Option Bytes

namespace Parser

/-- The variables when `run_handler` begins. -/
def start (sec : Section) (text : Bytes) : Parser :=
  ⟨text, sec, [], .lookupForSectionStart, .undefined, false⟩

/-- A round that throws where there is nothing to go on with. -/
def orThrow (p : Parser) : Option Parser → Outcome Parser
  | some q => .next q
  | none => .refuse p

/-- `CHECK_ISSPACE`. -/
def checkSpace (p : Parser) (c : UInt8) (cs : Bytes) : Outcome Parser :=
  if isSpace c then .next { p with text := cs } else .refuse p

/-- The closing brace of the section. -/
def close (p : Parser) (cs : Bytes) : Outcome Parser := .wait { p with text := cs, closed := true }

variable (strtod : Bytes → Option (Fin (256 ^ 8))) (nested : Section → Bytes → Option Handled)

/-- A value of the section that is read with it. -/
def withValue (p : Parser) (e : StorageEntry) (rest : Bytes) : Parser :=
  { p with text := rest, sec := setValue p.name e p.sec, state := .wonderAfterValue }

/-- `match_state_lookup_for_name`. -/
def lookForName (p : Parser) (c : UInt8) (cs : Bytes) : Outcome Parser :=
  if c = quote then
    p.orThrow ((matchString2 cs).map fun r =>
      { p with text := r.2, name := r.1, state := .waitingSeparator })
  else if c = closeBrace then p.close cs
  else p.checkSpace c cs

/-- The keywords among the values. -/
def keyword (p : Parser) (word rest : Bytes) : Option Parser :=
  if iequals word wordNull then some { p with text := rest, state := .wonderAfterValue }
  else if iequals word wordTrue then some (p.withValue (.pod .bool (1 : Fin 2)) rest)
  else if iequals word wordFalse then some (p.withValue (.pod .bool (0 : Fin 2)) rest)
  else none

/-- A section that begins with the current character. Where the nested call does not find its end,
the text goes on behind the opening brace. -/
def nestedSection (sec : Section) (c : UInt8) (cs : Bytes) : Option (Section × Bytes) :=
  (nested sec (c :: cs)).map fun r => (r.1, r.2.getD cs)

/-- `match_state_wonder_after_separator`. -/
def afterSeparator (p : Parser) (c : UInt8) (cs : Bytes) : Outcome Parser :=
  if c = quote then p.orThrow ((matchString2 cs).map fun r => p.withValue (.string r.1) r.2)
  else if isDigit c || c == minus then
    p.orThrow do
      let tok ← matchNumber2 (c :: cs)
      let v ← tok.value strtod
      return p.withValue (.pod v.1 v.2) tok.rest
  else if isAlpha c then
    p.orThrow do
      let w ← matchWord2 (c :: cs)
      p.keyword w.1 w.2
  else if c = openBrace then
    p.orThrow do
      let s ← openSection p.name p.sec
      let r ← nestedSection nested s c cs
      return { p with
        text := r.2, sec := p.sec.set p.name (.object r.1), state := .wonderAfterValue }
  else if c = openBracket then .next { p with text := cs, state := .wonderArray }
  else p.checkSpace c cs

/-- `match_state_wonder_after_value`. -/
def afterValue (p : Parser) (c : UInt8) (cs : Bytes) : Outcome Parser :=
  if c = comma then .next { p with text := cs, state := .lookupForName }
  else if c = closeBrace then p.close cs
  else p.checkSpace c cs

/-- The boolean of a word in an array. -/
def boolWord (word : Bytes) : Option Element :=
  if iequals word wordTrue then some (.pod .bool (1 : Fin 2))
  else if iequals word wordFalse then some (.pod .bool (0 : Fin 2))
  else none

/-- An element of an array in each of the modes, and the text behind it. -/
def element (c : UInt8) (cs : Bytes) : ArrayMode → Option (Element × Bytes)
  | .undefined => none
  | .sections => (nestedSection nested .nil c cs).map fun r => (.object r.1, r.2)
  | .string => (matchString2 cs).map fun r => (.string r.1, r.2)
  | .numbers => do
    let tok ← matchNumber2 (c :: cs)
    let v ← tok.value strtod
    return (.pod v.1 v.2, tok.rest)
  | .booleans => do
    let w ← matchWord2 (c :: cs)
    let x ← boolWord w.1
    return (x, w.2)

/-- The mode of an array by the first character of an element. -/
def modeOf (c : UInt8) : ArrayMode :=
  if c = openBrace then .sections
  else if c = quote then .string
  else if isDigit c || c == minus then .numbers
  else if isAlpha c then .booleans
  else .undefined

/-- `match_state_wonder_array`: the first element says what the array is made of. -/
def firstElement (p : Parser) (c : UInt8) (cs : Bytes) : Outcome Parser :=
  if c = openBracket then .refuse p
  else if modeOf c ≠ .undefined then
    p.orThrow do
      let r ← element strtod nested c cs (modeOf c)
      let sec ← insertFirst p.name r.1 p.sec
      return { p with text := r.2, sec, state := .arrayAfterValue, mode := modeOf c }
  else if c = closeBracket then
    .next { p with text := cs, state := .wonderAfterValue, mode := .undefined }
  else p.checkSpace c cs

/-- `match_state_array_after_value`. -/
def afterElement (p : Parser) (c : UInt8) (cs : Bytes) : Outcome Parser :=
  if c = comma then .next { p with text := cs, state := .arrayWaitingValue }
  else if c = closeBracket then
    .next { p with text := cs, state := .wonderAfterValue, mode := .undefined }
  else p.checkSpace c cs

/-- `match_state_array_waiting_value`: a further element begins as the first one did. -/
def nextElement (p : Parser) (c : UInt8) (cs : Bytes) : Outcome Parser :=
  if p.mode = .undefined then .refuse p
  else if modeOf c = p.mode then
    p.orThrow do
      let r ← element strtod nested c cs p.mode
      let sec ← insertNext p.name r.1 p.sec
      return { p with text := r.2, sec, state := .arrayAfterValue }
  else p.checkSpace c cs

/-- One round of `run_handler`. At the end of the text the loop ends, in whatever state. -/
def step (p : Parser) : Outcome Parser :=
  match p.text with
  | [] => .wait p
  | c :: cs =>
    match p.state with
    | .lookupForSectionStart =>
      if c = openBrace then .next { p with text := cs, state := .lookupForName }
      else p.checkSpace c cs
    | .lookupForName => p.lookForName c cs
    | .waitingSeparator =>
      if c = colon then .next { p with text := cs, state := .wonderAfterSeparator }
      else p.checkSpace c cs
    | .wonderAfterSeparator => p.afterSeparator strtod nested c cs
    | .wonderAfterValue => p.afterValue c cs
    | .wonderArray => p.firstElement strtod nested c cs
    | .arrayAfterValue => p.afterElement c cs
    | .arrayWaitingValue => p.nextElement strtod nested c cs

/-- The loop of `run_handler`, which takes at least one character in every round. -/
def run (p : Parser) : Bool × Parser := loop (step strtod nested) (p.text.length + 1) p

/-- What a call gives at the end of its loop. -/
def result : Bool × Parser → Option Handled
  | (true, p) => some (p.sec, if p.closed then some p.text else none)
  | (false, _) => none

end Parser

/-- `EPEE_JSON_RECURSION_LIMIT_INTERNAL`. -/
def recursionLimit : ℕ := 100

/-- `run_handler`, with the number of nested calls that are still allowed. -/
def runHandler (strtod : Bytes → Option (Fin (256 ^ 8))) : ℕ → Section → Bytes → Option Handled
  | 0, _, _ => none
  | r + 1, sec, text =>
    Parser.result (Parser.run strtod (runHandler strtod r) (Parser.start sec text))

/-- `load_from_json`: `none` where it returns `false`. -/
def loadFromJson (strtod : Bytes → Option (Fin (256 ^ 8))) (root : Section) (text : Bytes) :
    Option Section :=
  (runHandler strtod recursionLimit root text).map Prod.fst

/-! ## The loop takes characters -/

theorem stringLoop_length {esc : Bool} {text : Bytes} {r : Bytes × Bytes}
    (h : stringLoop esc text = some r) : r.2.length < text.length := by
  fun_induction stringLoop esc text generalizing r with
  | case1 => cases h
  | case2 a b d e rest _ _ _ _ _ _ _ _ ih =>
    obtain ⟨q, hq, rfl⟩ := Option.map_eq_some_iff.mp h
    have := ih hq
    simp only [List.length_cons]
    omega
  | case3 => cases h
  | case4 => cases h
  | case5 c cs _ ih =>
    obtain ⟨q, hq, rfl⟩ := Option.map_eq_some_iff.mp h
    exact (ih hq).trans (Nat.lt_succ_self _)
  | case6 cs => 
    cases h
    exact Nat.lt_succ_self _
  | case7 cs _ ih => exact (ih h).trans (Nat.lt_succ_self _)
  | case8 c cs _ _ ih =>
    obtain ⟨q, hq, rfl⟩ := Option.map_eq_some_iff.mp h
    exact (ih hq).trans (Nat.lt_succ_self _)

theorem matchString2_length {text : Bytes} {r : Bytes × Bytes} (h : matchString2 text = some r) :
    r.2.length < text.length := by
  obtain ⟨q, hq, rfl⟩ := Option.map_eq_some_iff.mp h
  exact (stringLoop_length hq).trans_le (List.dropWhile_suffix _).length_le

theorem matchNumber2_length {c : UInt8} {cs : Bytes} {tok : NumberToken}
    (hc : (isDigit c || c == minus) = true) (h : matchNumber2 (c :: cs) = some tok) :
    tok.rest.length ≤ cs.length := by
  simp only [matchNumber2] at h
  split_ifs at h with hnil hsigned hnil
  all_goals cases h
  · exact (List.dropWhile_suffix _).length_le
  · have hnumber : isNumberChar c = true := by
      rcases Bool.or_eq_true _ _ |>.mp hc with hdigit | hminus
      · simp [isNumberChar, hdigit]
      rw [beq_iff_eq.mp hminus]
      decide
    rw [List.dropWhile_cons_of_pos hnumber]
    exact (List.dropWhile_suffix _).length_le

theorem matchWord2_length {c : UInt8} {cs : Bytes} {w : Bytes × Bytes} (hc : isAlpha c = true)
    (h : matchWord2 (c :: cs) = some w) : w.2.length ≤ cs.length := by
  simp only [matchWord2] at h
  split_ifs at h
  cases h
  rw [List.dropWhile_cons_of_pos hc]
  exact (List.dropWhile_suffix _).length_le

/-! ## What a round can do -/

/-- A value at the front of a text, with the text behind it: a string, a number, a word, a section
that the nested call closes, or one that it does not close. -/
inductive Value (nested : Section → Bytes → Option Handled) : Bytes → Bytes → Prop
  | string {cs : Bytes} {r : Bytes × Bytes} (h : matchString2 cs = some r) :
    Value nested (quote :: cs) r.2
  | number {c : UInt8} {cs : Bytes} {tok : NumberToken} (hc : (isDigit c || c == minus) = true)
    (h : matchNumber2 (c :: cs) = some tok) : Value nested (c :: cs) tok.rest
  | word {c : UInt8} {cs : Bytes} {w : Bytes × Bytes} (hc : isAlpha c = true)
    (h : matchWord2 (c :: cs) = some w) : Value nested (c :: cs) w.2
  | closed {sec sec' : Section} {cs rest : Bytes}
    (h : nested sec (openBrace :: cs) = some (sec', some rest)) :
    Value nested (openBrace :: cs) rest
  | unclosed {sec sec' : Section} {cs : Bytes}
    (h : nested sec (openBrace :: cs) = some (sec', none)) : Value nested (openBrace :: cs) cs

/-- The states in which a value is read, each with the state behind it. -/
inductive Awaits : MatchState → MatchState → Prop
  | value : Awaits .wonderAfterSeparator .wonderAfterValue
  | first : Awaits .wonderArray .arrayAfterValue
  | further : Awaits .arrayWaitingValue .arrayAfterValue

/-- The rounds that go on, by the state and the text before and after. -/
inductive Move (nested : Section → Bytes → Option Handled) :
    MatchState → Bytes → MatchState → Bytes → Prop
  | space {st : MatchState} {c : UInt8} {cs : Bytes} (hc : isSpace c = true) :
    Move nested st (c :: cs) st cs
  | start {cs : Bytes} : Move nested .lookupForSectionStart (openBrace :: cs) .lookupForName cs
  | name {cs : Bytes} {r : Bytes × Bytes} (h : matchString2 cs = some r) :
    Move nested .lookupForName (quote :: cs) .waitingSeparator r.2
  | separator {cs : Bytes} : Move nested .waitingSeparator (colon :: cs) .wonderAfterSeparator cs
  | field {cs : Bytes} : Move nested .wonderAfterValue (comma :: cs) .lookupForName cs
  | array {cs : Bytes} : Move nested .wonderAfterSeparator (openBracket :: cs) .wonderArray cs
  | noElement {cs : Bytes} : Move nested .wonderArray (closeBracket :: cs) .wonderAfterValue cs
  | endArray {cs : Bytes} : Move nested .arrayAfterValue (closeBracket :: cs) .wonderAfterValue cs
  | element {cs : Bytes} : Move nested .arrayAfterValue (comma :: cs) .arrayWaitingValue cs
  | value {st st' : MatchState} {text rest : Bytes} (hst : Awaits st st')
    (h : Value nested text rest) : Move nested st text st' rest

section Rounds

variable {strtod : Bytes → Option (Fin (256 ^ 8))} {nested : Section → Bytes → Option Handled}
  {p q : Parser} {c : UInt8} {cs : Bytes}

theorem orThrow_next {o : Option Parser} (h : p.orThrow o = .next q) : o = some q := by
  cases o with
  | none => cases h
  | some r => exact congrArg some (Outcome.next.inj h)

theorem checkSpace_next (h : p.checkSpace c cs = .next q) :
    isSpace c = true ∧ q = { p with text := cs } := by
  unfold Parser.checkSpace at h
  split_ifs at h with hc
  exact ⟨hc, (Outcome.next.inj h).symm⟩

theorem nestedSection_value {sec : Section} {r : Section × Bytes}
    (h : Parser.nestedSection nested sec openBrace cs = some r) :
    Value nested (openBrace :: cs) r.2 := by
  obtain ⟨⟨s', rest⟩, hn, rfl⟩ := Option.map_eq_some_iff.mp h
  cases rest with
  | none => exact .unclosed hn
  | some rest => exact .closed hn

theorem element_value {x : Element × Bytes}
    (h : Parser.element strtod nested c cs (Parser.modeOf c) = some x) :
    Value nested (c :: cs) x.2 := by
  unfold Parser.modeOf at h
  split_ifs at h with h1 h2 h3 h4
  · subst h1
    obtain ⟨r, hr, rfl⟩ := Option.map_eq_some_iff.mp h
    exact nestedSection_value hr
  · subst h2
    obtain ⟨r, hr, rfl⟩ := Option.map_eq_some_iff.mp h
    exact .string hr
  · simp only [Parser.element, Option.bind_eq_bind, Option.bind_eq_some_iff] at h
    obtain ⟨tok, htok, v, -, hx⟩ := h
    cases hx
    exact .number h3 htok
  · simp only [Parser.element, Option.bind_eq_bind, Option.bind_eq_some_iff] at h
    obtain ⟨w, hw, v, -, hx⟩ := h
    cases hx
    exact .word h4 hw
  · cases h

/-- A round's result is one of the moves, and has not found the closing brace. -/
def Moves (nested : Section → Bytes → Option Handled) (p : Parser) (text : Bytes) (q : Parser) :
    Prop :=
  Move nested p.state text q.state q.text ∧ q.closed = p.closed

theorem moves_space (h : p.checkSpace c cs = .next q) : Moves nested p (c :: cs) q := by
  obtain ⟨hc, rfl⟩ := checkSpace_next h
  exact ⟨.space hc, rfl⟩

theorem lookForName_next (hs : p.state = .lookupForName) (h : p.lookForName c cs = .next q) :
    Moves nested p (c :: cs) q := by
  unfold Parser.lookForName at h
  split_ifs at h with h1 h2
  · subst h1
    obtain ⟨r, hr, rfl⟩ := Option.map_eq_some_iff.mp (orThrow_next h)
    exact ⟨hs ▸ .name hr, rfl⟩
  · cases h
  · exact moves_space h

theorem afterSeparator_next (hs : p.state = .wonderAfterSeparator)
    (h : p.afterSeparator strtod nested c cs = .next q) : Moves nested p (c :: cs) q := by
  unfold Parser.afterSeparator at h
  split_ifs at h with h1 h2 h3 h4 h5
  · subst h1
    obtain ⟨r, hr, rfl⟩ := Option.map_eq_some_iff.mp (orThrow_next h)
    exact ⟨hs ▸ .value .value (.string hr), rfl⟩
  · have hq := orThrow_next h
    simp only [Option.bind_eq_bind, Option.bind_eq_some_iff] at hq
    obtain ⟨tok, htok, v, -, hq⟩ := hq
    cases hq
    exact ⟨hs ▸ .value .value (.number h2 htok), rfl⟩
  · have hq := orThrow_next h
    simp only [Option.bind_eq_bind, Option.bind_eq_some_iff] at hq
    obtain ⟨w, hw, hq⟩ := hq
    have hmove : Move nested p.state (c :: cs) .wonderAfterValue w.2 :=
      hs ▸ .value .value (.word h3 hw)
    unfold Parser.keyword at hq
    split_ifs at hq <;> obtain rfl := Option.some.inj hq <;> exact ⟨hmove, rfl⟩
  · subst h4
    have hq := orThrow_next h
    simp only [Option.bind_eq_bind, Option.bind_eq_some_iff] at hq
    obtain ⟨sec, -, r, hr, hq⟩ := hq
    cases hq
    exact ⟨hs ▸ .value .value (nestedSection_value hr), rfl⟩
  · subst h5
    cases h
    exact ⟨hs ▸ .array, rfl⟩
  · exact moves_space h

theorem afterValue_next (hs : p.state = .wonderAfterValue) (h : p.afterValue c cs = .next q) :
    Moves nested p (c :: cs) q := by
  unfold Parser.afterValue at h
  split_ifs at h with h1 h2
  · subst h1
    cases h
    exact ⟨hs ▸ .field, rfl⟩
  · cases h
  · exact moves_space h

theorem firstElement_next (hs : p.state = .wonderArray)
    (h : p.firstElement strtod nested c cs = .next q) : Moves nested p (c :: cs) q := by
  unfold Parser.firstElement at h
  split_ifs at h with h1 h2 h3
  · have hq := orThrow_next h
    simp only [Option.bind_eq_bind, Option.bind_eq_some_iff] at hq
    obtain ⟨x, hx, sec, -, hq⟩ := hq
    cases hq
    exact ⟨hs ▸ .value .first (element_value hx), rfl⟩
  · subst h3
    cases h
    exact ⟨hs ▸ .noElement, rfl⟩
  · exact moves_space h

theorem afterElement_next (hs : p.state = .arrayAfterValue) (h : p.afterElement c cs = .next q) :
    Moves nested p (c :: cs) q := by
  unfold Parser.afterElement at h
  split_ifs at h with h1 h2
  · subst h1
    cases h
    exact ⟨hs ▸ .element, rfl⟩
  · subst h2
    cases h
    exact ⟨hs ▸ .endArray, rfl⟩
  · exact moves_space h

theorem nextElement_next (hs : p.state = .arrayWaitingValue)
    (h : p.nextElement strtod nested c cs = .next q) : Moves nested p (c :: cs) q := by
  unfold Parser.nextElement at h
  split_ifs at h with h1 h2
  · have hq := orThrow_next h
    rw [← h2] at hq
    simp only [Option.bind_eq_bind, Option.bind_eq_some_iff] at hq
    obtain ⟨x, hx, sec, -, hq⟩ := hq
    cases hq
    exact ⟨hs ▸ .value .further (element_value hx), rfl⟩
  · exact moves_space h

/-- **What a round that goes on has done.** -/
theorem step_next (h : p.step strtod nested = .next q) : Moves nested p p.text q := by
  unfold Parser.step at h
  cases htext : p.text with
  | nil =>
    rw [htext] at h
    cases h
  | cons c cs =>
    simp only [htext] at h
    cases hs : p.state <;> simp only [hs] at h
    case lookupForSectionStart =>
      split_ifs at h with hc
      · subst hc
        cases h
        exact ⟨hs ▸ .start, rfl⟩
      · exact moves_space h
    case lookupForName => exact lookForName_next hs h
    case waitingSeparator =>
      split_ifs at h with hc
      · subst hc
        cases h
        exact ⟨hs ▸ .separator, rfl⟩
      · exact moves_space h
    case wonderAfterSeparator => exact afterSeparator_next hs h
    case wonderAfterValue => exact afterValue_next hs h
    case wonderArray => exact firstElement_next hs h
    case arrayAfterValue => exact afterElement_next hs h
    case arrayWaitingValue => exact nextElement_next hs h

theorem orThrow_ne_wait {o : Option Parser} : p.orThrow o ≠ .wait q := by
  cases o <;> nofun

theorem checkSpace_ne_wait : p.checkSpace c cs ≠ .wait q := by
  unfold Parser.checkSpace
  split_ifs <;> nofun

/-- **The loop ends at the end of the text, or at the closing brace of the section.** -/
theorem step_wait (h : p.step strtod nested = .wait q) :
    (p.text = [] ∧ q = p) ∨
      ∃ cs, p.text = closeBrace :: cs ∧ (p.state = .lookupForName ∨ p.state = .wonderAfterValue) ∧
        q = { p with text := cs, closed := true } := by
  unfold Parser.step at h
  cases htext : p.text with
  | nil =>
    rw [htext] at h
    exact .inl ⟨rfl, (Outcome.wait.inj h).symm⟩
  | cons c cs =>
    simp only [htext] at h
    refine .inr ?_
    cases hs : p.state <;> simp only [hs, Parser.lookForName, Parser.afterSeparator,
      Parser.afterValue, Parser.firstElement, Parser.afterElement, Parser.nextElement] at h <;>
      split_ifs at h <;>
      first
      | exact absurd h orThrow_ne_wait
      | exact absurd h checkSpace_ne_wait
      | skip
    all_goals
      subst c
      refine ⟨cs, rfl, by simp, ?_⟩
      rw [← hs]
      exact (Outcome.wait.inj h).symm

/-- A nested call that finds its closing brace has taken characters. -/
def Shrinks (nested : Section → Bytes → Option Handled) : Prop :=
  ∀ {sec sec' : Section} {text rest : Bytes}, nested sec text = some (sec', some rest) →
    rest.length < text.length

theorem Value.length_lt (hn : Shrinks nested) {text rest : Bytes} (h : Value nested text rest) :
    rest.length < text.length := by
  cases h with
  | string h => exact (matchString2_length h).trans (Nat.lt_succ_self _)
  | number hc h => exact Nat.lt_succ_of_le (matchNumber2_length hc h)
  | word hc h => exact Nat.lt_succ_of_le (matchWord2_length hc h)
  | closed h => exact hn h
  | unclosed h => exact Nat.lt_succ_self _

theorem Move.length_lt (hn : Shrinks nested) {st st' : MatchState} {text rest : Bytes}
    (h : Move nested st text st' rest) : rest.length < text.length := by
  cases h with
  | name h => exact (matchString2_length h).trans (Nat.lt_succ_self _)
  | value _ h => exact h.length_lt hn
  | _ => exact Nat.lt_succ_self _

/-- The loop of `run_handler`, round by round. -/
theorem run_eq (hn : Shrinks nested) (p : Parser) :
    p.run strtod nested = (p.step strtod nested).andThen (Parser.run strtod nested) := by
  have hwork : ∀ p q : Parser, Parser.step strtod nested p = .next q →
      q.text.length < p.text.length := fun _ _ h => (step_next h).1.length_lt hn
  exact loop_work_eq (fun p : Parser => p.text.length) hwork p

/-- Induction along the rounds of a call that does not throw. -/
theorem run_induction (hn : Shrinks nested) {motive : Parser → Parser → Prop}
    (stop : ∀ p q, p.step strtod nested = .wait q → motive p q)
    (next : ∀ p q r, p.step strtod nested = .next q → q.run strtod nested = (true, r) →
      motive q r → motive p r) :
    ∀ p r, p.run strtod nested = (true, r) → motive p r := by
  intro p r h
  induction hlen : p.text.length using Nat.strongRecOn generalizing p with
  | _ n ih =>
    rw [run_eq hn] at h
    cases hstep : p.step strtod nested with
    | wait q =>
      rw [hstep] at h
      obtain rfl : q = r := congrArg Prod.snd h
      exact stop p q hstep
    | refuse q =>
      rw [hstep] at h
      cases h
    | next q =>
      rw [hstep] at h
      exact next p q r hstep h (ih q.text.length (hlen ▸ (step_next hstep).1.length_lt hn) q h rfl)

end Rounds

theorem result_some {x : Bool × Parser} {sec : Section} {rest : Bytes}
    (h : Parser.result x = some (sec, some rest)) :
    ∃ p, x = (true, p) ∧ p.closed = true ∧ p.text = rest ∧ p.sec = sec := by
  obtain ⟨ok, p⟩ := x
  cases ok with
  | false => cases h
  | true =>
    simp only [Parser.result, Option.some.injEq, Prod.mk.injEq] at h
    split_ifs at h with hclosed
    · exact ⟨p, rfl, hclosed, Option.some.inj h.2, h.1⟩
    · cases h.2

theorem shrinks_runHandler (strtod : Bytes → Option (Fin (256 ^ 8))) (r : ℕ) :
    Shrinks (runHandler strtod r) := by
  induction r with
  | zero => nofun
  | succ r ih =>
    intro sec sec' text rest h
    obtain ⟨p, hp, hclosed, rfl, -⟩ := result_some h
    refine run_induction ih (motive := fun p q => q.closed = true → p.closed = false →
      q.text.length < p.text.length) ?_ ?_ _ _ hp hclosed rfl
    · intro p q hstop hq hp
      rcases step_wait hstop with ⟨-, rfl⟩ | ⟨cs, htext, -, rfl⟩
      · exact absurd (hq.symm.trans hp) (by decide)
      rw [htext]
      exact Nat.lt_succ_self _
    · intro p q r hnext _ hq hr hp
      obtain ⟨hmove, hsame⟩ := step_next hnext
      exact (hq hr (hsame.trans hp)).trans (hmove.length_lt ih)

end Hashmonkey.Epee.Json
