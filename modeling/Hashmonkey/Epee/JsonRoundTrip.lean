import Hashmonkey.Epee.Json
import Mathlib.Data.List.TakeWhile

/-!
# What was written as JSON is loaded again (`portable_storage_to_json.h`)

A model of `dump_as_json` and `transform_to_escape_sequence`, and what the state machine of
`Epee.Json` makes of their output.

JSON does not say how wide an integer was, so a loaded tree has 64-bit integers only, unsigned ones
where there was no minus sign (`Section.widen`). An array takes the type of its first element, and
an element of the other sign is then refused.

Result: **`load_dump`**, a tree without doubles, arrays of arrays, empty arrays and empty names,
with sections nested fewer than 100 deep and no integers of both signs in one array, is loaded from
what was dumped, up to the width of its integers; `load_dump_fails` shows an array with both signs.
How a `double` is printed is a parameter. **`spellsInt_iff`**: a number without point and exponent
is read as it is written unless it has a second sign, or a sign and no digit.
-/

namespace Hashmonkey.Epee.Json

open Lib

/-! ## Writing -/

/-- A character of a string literal. -/
def escapeChar (c : UInt8) : Bytes :=
  if c = 8 then [backslash, 98]
  else if c = 12 then [backslash, 102]
  else if c = 10 then [backslash, 110]
  else if c = 13 then [backslash, 114]
  else if c = 9 then [backslash, 116]
  else if c = 11 then [backslash, 118]
  else if c = quote then [backslash, quote]
  else if c = backslash then [backslash, backslash]
  else if c = 47 then [backslash, 47]
  else [c]

/-- Not one of the characters that `transform_to_escape_sequence` looks for first; the terminating
zero of its table is among them. -/
def isClean (c : UInt8) : Bool := escapeChar c == [c] && c != 0

/-- `transform_to_escape_sequence`: what comes before the first special character is copied. -/
def transformToEscapeSequence (src : Bytes) : Bytes :=
  if src.dropWhile isClean = [] then src
  else src.takeWhile isClean ++ (src.dropWhile isClean).flatMap escapeChar

/-- A string literal. -/
def dumpString (v : Bytes) : Bytes := quote :: (transformToEscapeSequence v ++ [quote])

/-- A number in decimal digits. -/
def decimal (n : ℕ) : Bytes := (Nat.toDigits 10 n).map fun c => UInt8.ofNat c.toNat

/-- An integer in decimal digits. -/
def dumpInt (n : ℤ) : Bytes := if n < 0 then minus :: decimal n.natAbs else decimal n.natAbs

end Hashmonkey.Epee.Json

namespace Hashmonkey.Epee.PodType

/-- Is it a type with a sign? -/
def isSigned : PodType → Bool
  | int64 | int32 | int16 | int8 => true
  | _ => false

/-- The integer that a value stands for, in two's complement. -/
def toInt (t : PodType) (v : t.Val) : ℤ :=
  if t.isSigned && t.bound ≤ 2 * v.val then (v.val : ℤ) - t.bound else v.val

end Hashmonkey.Epee.PodType

namespace Hashmonkey.Epee.Json

open Lib List Json.Parser

/-- The word of a boolean. -/
def boolText (v : Fin 2) : Bytes := if v.val = 0 then wordFalse else wordTrue

/-- `dump_as_json` of a plain value. -/
def dumpPod (showDouble : Fin (256 ^ 8) → Bytes) : (t : PodType) → t.Val → Bytes
  | .bool, v => boolText v
  | .double, v => showDouble v
  | t, v => dumpInt (t.toInt v)

/-- `make_indent`. -/
def makeIndent (indent : ℕ) : Bytes := List.replicate (indent * 2) 32

/-- The line end, where lines are wanted. -/
def newline (newlines : Bool) : Bytes := if newlines then [13, 10] else []

/-- Elements with commas between them. -/
def joinComma : List Bytes → Bytes
  | [] => []
  | [b] => b
  | b :: bs => b ++ comma :: joinComma bs

/-- An array of elements. -/
def dumpElements (elems : List Bytes) : Bytes := openBracket :: (joinComma elems ++ [closeBracket])

/-- The braces around the fields of a section. -/
def wrapFields (newlines : Bool) (indent : ℕ) (fields : Bytes) : Bytes :=
  openBrace :: (newline newlines ++ (fields ++ (makeIndent indent ++ [closeBrace])))

variable (showDouble : Fin (256 ^ 8) → Bytes) (newlines : Bool)

mutual

/-- The fields of `dump_as_json` for a section. -/
def dumpFields (indent : ℕ) : Section → Bytes
  | .nil => []
  | .cons name entry rest =>
    makeIndent indent ++ (dumpString name ++ (colon :: 32 :: (dumpEntry indent entry ++
      ((if rest.length = 0 then [] else [comma]) ++ (newline newlines ++ dumpFields indent rest)))))

/-- `dump_as_json` for an entry. -/
def dumpEntry (indent : ℕ) : StorageEntry → Bytes
  | .pod t v => dumpPod showDouble t v
  | .string v => dumpString v
  | .object s => wrapFields newlines indent (dumpFields (indent + 1) s)
  | .array a => dumpArray indent a

/-- `dump_as_json` for an array. -/
def dumpArray (indent : ℕ) : ArrayEntry → Bytes
  | .pods t vs => dumpElements (vs.map (dumpPod showDouble t))
  | .strings vs => dumpElements (vs.map dumpString)
  | .objects vs => dumpElements (dumpObjects indent vs)
  | .arrays vs => dumpElements (dumpArrays indent vs)

/-- The sections of an array. -/
def dumpObjects (indent : ℕ) : List Section → List Bytes
  | [] => []
  | s :: vs => wrapFields newlines indent (dumpFields (indent + 1) s) :: dumpObjects indent vs

/-- The arrays of an array. -/
def dumpArrays (indent : ℕ) : List ArrayEntry → List Bytes
  | [] => []
  | a :: vs => dumpArray indent a :: dumpArrays indent vs

end

/-- `dump_as_json`. -/
def dumpAsJson (indent : ℕ) (root : Section) : Bytes :=
  wrapFields newlines indent (dumpFields showDouble newlines (indent + 1) root)

/-! ## What is read back -/

/-- The eight bytes of an integer, in two's complement. -/
def wideVal (n : ℤ) : Fin (256 ^ 8) :=
  ⟨(n % 256 ^ 8).toNat, by have := Int.emod_lt_of_pos n (b := 256 ^ 8) (by decide); omega⟩

/-- An integer in 64 bits: `int64_t` where it is negative, `uint64_t` where it is not. -/
def wideInt (n : ℤ) : Σ t : PodType, t.Val :=
  if n < 0 then ⟨.int64, wideVal n⟩ else ⟨.uint64, wideVal n⟩

/-- A plain value with its integers widened. -/
def widenPod : (t : PodType) → t.Val → Σ t : PodType, t.Val
  | .bool, v => ⟨.bool, v⟩
  | .double, v => ⟨.double, v⟩
  | t, v => wideInt (t.toInt v)

/-- An array of integers in 64 bits. -/
def wideInts (ns : List ℤ) : ArrayEntry :=
  if ns.any (· < 0) then .pods .int64 (ns.map wideVal) else .pods .uint64 (ns.map wideVal)

/-- An array of plain values with its integers widened. -/
def widenPods : (t : PodType) → List t.Val → ArrayEntry
  | .bool, vs => .pods .bool vs
  | .double, vs => .pods .double vs
  | t, vs => wideInts (vs.map t.toInt)

mutual

/-- A section with its integers widened. -/
def widen : Section → Section
  | .nil => .nil
  | .cons name entry rest => .cons name (widenEntry entry) (widen rest)

/-- An entry with its integers widened. -/
def widenEntry : StorageEntry → StorageEntry
  | .pod t v => .pod (widenPod t v).1 (widenPod t v).2
  | .string v => .string v
  | .object s => .object (widen s)
  | .array a => .array (widenArray a)

/-- An array with its integers widened. -/
def widenArray : ArrayEntry → ArrayEntry
  | .pods t vs => widenPods t vs
  | .strings vs => .strings vs
  | .objects vs => .objects (widenObjects vs)
  | .arrays vs => .arrays (widenArrays vs)

/-- The sections of an array with their integers widened. -/
def widenObjects : List Section → List Section
  | [] => []
  | s :: vs => widen s :: widenObjects vs

/-- The arrays of an array with their integers widened. -/
def widenArrays : List ArrayEntry → List ArrayEntry
  | [] => []
  | a :: vs => widenArray a :: widenArrays vs

end

mutual

/-- The names of a section are in order and not empty, and it is made of strings, booleans,
integers, sections and non-empty arrays of these. -/
def Printable : Section → Prop
  | .nil => True
  | .cons name entry rest =>
    (∀ n ∈ rest.names, name < n) ∧ name ≠ [] ∧ PrintableEntry entry ∧ Printable rest

/-- An entry that is no `double`. -/
def PrintableEntry : StorageEntry → Prop
  | .pod t _ => t ≠ .double
  | .string _ => True
  | .object s => Printable s
  | .array a => PrintableArray a

/-- A non-empty array, not of doubles and not of arrays. -/
def PrintableArray : ArrayEntry → Prop
  | .pods t vs => t ≠ .double ∧ vs ≠ []
  | .strings vs => vs ≠ []
  | .objects vs => vs ≠ [] ∧ PrintableObjects vs
  | .arrays _ => False

/-- Every section of an array. -/
def PrintableObjects : List Section → Prop
  | [] => True
  | s :: vs => Printable s ∧ PrintableObjects vs

end

/-- All values of an array are negative, or none is. -/
def OneSign (t : PodType) (vs : List t.Val) : Prop :=
  (∀ v ∈ vs, 0 ≤ t.toInt v) ∨ ∀ v ∈ vs, t.toInt v < 0

instance (t : PodType) (vs : List t.Val) : Decidable (OneSign t vs) :=
  inferInstanceAs (Decidable (_ ∨ _))

mutual

/-- No array of integers in the tree mixes signs. -/
def Unmixed : Section → Prop
  | .nil => True
  | .cons _ entry rest => UnmixedEntry entry ∧ Unmixed rest

/-- No array of integers in an entry mixes signs. -/
def UnmixedEntry : StorageEntry → Prop
  | .pod _ _ => True
  | .string _ => True
  | .object s => Unmixed s
  | .array a => UnmixedArray a

/-- No array of integers in an array mixes signs. -/
def UnmixedArray : ArrayEntry → Prop
  | .pods t vs => OneSign t vs
  | .strings _ => True
  | .objects vs => UnmixedObjects vs
  | .arrays vs => UnmixedArrays vs

/-- No array of integers in an array's sections mixes signs. -/
def UnmixedObjects : List Section → Prop
  | [] => True
  | s :: vs => Unmixed s ∧ UnmixedObjects vs

/-- No array of integers in an array's arrays mixes signs. -/
def UnmixedArrays : List ArrayEntry → Prop
  | [] => True
  | a :: vs => UnmixedArray a ∧ UnmixedArrays vs

end

/-! ## Strings -/

variable {c : UInt8}

theorem escapeChar_of_clean (h : isClean c = true) : escapeChar c = [c] := by
  simp only [isClean, Bool.and_eq_true, beq_iff_eq] at h
  exact h.1

/-- The copied part needs no escapes, so that the whole text is escaped character by character. -/
theorem transformToEscapeSequence_eq (src : Bytes) :
    transformToEscapeSequence src = src.flatMap escapeChar := by
  have hclean : (src.takeWhile isClean).flatMap escapeChar = src.takeWhile isClean := by
    have hc : ∀ c ∈ src.takeWhile isClean, escapeChar c = [c] := fun c hc =>
      escapeChar_of_clean (mem_takeWhile_imp hc)
    rw [flatMap_congr hc, flatMap_singleton']
  conv_rhs => rw [← takeWhile_append_dropWhile (p := isClean) (l := src)]
  rw [flatMap_append, hclean]
  unfold transformToEscapeSequence
  split_ifs with hnil
  · rw [hnil, flatMap_nil, append_nil]
    conv_lhs => rw [← takeWhile_append_dropWhile (p := isClean) (l := src), hnil]
    rw [append_nil]
  · rfl

theorem stringLoop_verbatim (hc : isVerbatim c = true) (cs : Bytes) :
    stringLoop false (c :: cs) = (stringLoop false cs).map fun r => (c :: r.1, r.2) := by
  simp only [isVerbatim, Bool.and_eq_true, bne_iff_ne] at hc
  rw [stringLoop, if_neg hc.1, if_neg hc.2]

/-- The characters that are taken over at once are those the loop would take one by one. -/
theorem matchString2_eq (text : Bytes) : matchString2 text = stringLoop false text := by
  induction text with
  | nil => rfl
  | cons c cs ih =>
    unfold matchString2
    by_cases hc : isVerbatim c = true
    · rw [dropWhile_cons_of_pos hc, takeWhile_cons_of_pos hc, stringLoop_verbatim hc,
        ← ih, matchString2, Option.map_map]
      rfl
    · rw [dropWhile_cons_of_neg hc, takeWhile_cons_of_neg hc]
      exact Option.map_id'

/-- An escape of two characters is taken back by the loop. -/
theorem stringLoop_escape {e : UInt8} (he : e ≠ 117) (hc : unescape e = c) (rest : Bytes) :
    stringLoop false (backslash :: e :: rest) =
      (stringLoop false rest).map fun r => (c :: r.1, r.2) := by
  rw [stringLoop, if_neg (by decide), if_pos rfl, stringLoop.eq_def]
  simp only [if_neg he, hc]

theorem stringLoop_escapeChar (c : UInt8) (rest : Bytes) :
    stringLoop false (escapeChar c ++ rest) =
      (stringLoop false rest).map fun r => (c :: r.1, r.2) := by
  unfold escapeChar
  split_ifs with h1 h2 h3 h4 h5 h6 h7 h8 h9
  case neg => exact stringLoop_verbatim (by simp [isVerbatim, h7, h8]) rest
  all_goals
    subst c
    exact stringLoop_escape (by decide) (by decide) rest

/-- **A string literal is read back**, whatever stands behind it. -/
theorem matchString2_dump (v rest : Bytes) :
    matchString2 (transformToEscapeSequence v ++ quote :: rest) = some (v, rest) := by
  rw [matchString2_eq, transformToEscapeSequence_eq]
  induction v with
  | nil => exact if_pos rfl
  | cons c v ih =>
    rw [flatMap_cons, append_assoc, stringLoop_escapeChar, ih]
    rfl

/-- **Unescaping undoes escaping**: from the opening quote on the matcher finds the string, and
stops at the quote that closes it, so that what follows is left. -/
theorem matchString2_transform (s t : Bytes) :
    matchString2 (quote :: (transformToEscapeSequence s ++ [quote] ++ t)).tail = some (s, t) := by
  rw [tail_cons, append_assoc]
  exact matchString2_dump s t

/-! ## Numbers and words -/

/-- A text at which a number or a word before it ends. -/
def Stops (text : Bytes) : Prop :=
  ∃ c cs, text = c :: cs ∧ isNumberChar c = false ∧ isAlpha c = false

variable {w rest : Bytes}

theorem takeWhile_stops {f : UInt8 → Bool} (hw : ∀ c ∈ w, f c = true)
    (hrest : ∃ c cs, rest = c :: cs ∧ f c = false) :
    (w ++ rest).takeWhile f = w ∧ (w ++ rest).dropWhile f = rest := by
  obtain ⟨c, cs, rfl, hc⟩ := hrest
  have hstop : ¬ f c = true := by simp [hc]
  constructor
  · rw [takeWhile_append_of_pos hw, takeWhile_cons_of_neg hstop, append_nil]
  · rw [dropWhile_append_of_pos hw, dropWhile_cons_of_neg hstop]

theorem toNat_of_mem_toDigits {n : ℕ} {c : Char} (hc : c ∈ Nat.toDigits 10 n) :
    48 ≤ c.toNat ∧ c.toNat ≤ 57 := by
  have hdigit := Nat.isDigit_of_mem_toDigits (by decide) (by decide) hc
  simp only [Char.isDigit, Bool.and_eq_true, decide_eq_true_eq, ge_iff_le,
    UInt32.le_iff_toNat_le] at hdigit
  exact hdigit

theorem isDigit_decimal {n : ℕ} {d : UInt8} (hd : d ∈ decimal n) : isDigit d = true := by
  obtain ⟨c, hc, rfl⟩ := mem_map.mp hd
  obtain ⟨hlow, hhigh⟩ := toNat_of_mem_toDigits hc
  simp only [isDigit, Bool.and_eq_true, decide_eq_true_eq, UInt8.le_iff_toNat_le,
    UInt8.toNat_ofNat', Nat.mod_eq_of_lt (show c.toNat < 2 ^ 8 by omega)]
  exact ⟨hlow, hhigh⟩

theorem decimal_ne_nil (n : ℕ) : decimal n ≠ [] := by simp [decimal]

theorem digitsValue_decimal (n : ℕ) : digitsValue (decimal n) = n := by
  have hall : (decimal n).takeWhile isDigit = decimal n :=
    takeWhile_eq_self_iff.mpr fun d hd => isDigit_decimal hd
  rw [digitsValue, hall, decimal, foldl_map]
  conv_rhs => rw [← Nat.ofDigitChars_toDigits (b := 10) (n := n) (by decide) (by decide)]
  refine foldl_ext _ _ _ fun acc c hc => ?_
  have hhigh := (toNat_of_mem_toDigits hc).2
  rw [UInt8.toNat_ofNat', Nat.mod_eq_of_lt (by omega), Nat.mul_comm]
  rfl

variable {n : ℤ}

theorem dumpInt_of_neg (h : n < 0) : dumpInt n = minus :: decimal n.natAbs := if_pos h

theorem dumpInt_of_nonneg (h : ¬ n < 0) : dumpInt n = decimal n.natAbs := if_neg h

/-- The first character of a printed integer. -/
theorem dumpInt_head (n : ℤ) : ∃ c cs, dumpInt n = c :: cs ∧ (isDigit c || c == minus) = true := by
  by_cases hn : n < 0
  · exact ⟨minus, _, dumpInt_of_neg hn, by decide⟩
  · rw [dumpInt_of_nonneg hn]
    obtain ⟨c, cs, hcs⟩ := exists_cons_of_ne_nil (decimal_ne_nil n.natAbs)
    refine ⟨c, cs, hcs, ?_⟩
    rw [isDigit_decimal (hcs ▸ mem_cons_self), Bool.true_or]

theorem not_isFloatChar_of_isDigit : ∀ c : UInt8, isDigit c = true → isFloatChar c = false :=
  forall_byte (by decide +kernel)

theorem isDigit_ne_minus : ∀ c : UInt8, isDigit c = true → c ≠ minus :=
  forall_byte (by decide +kernel)

/-- The digits of a number are taken as a whole, and have neither point nor exponent. -/
theorem decimal_chars (n : ℕ) (hrest : Stops rest) :
    (decimal n ++ rest).takeWhile isNumberChar = decimal n ∧
      (decimal n ++ rest).dropWhile isNumberChar = rest ∧ (decimal n).any isFloatChar = false := by
  obtain ⟨c, cs, hcs, hnumber, -⟩ := hrest
  have hdigits : ∀ d ∈ decimal n, isNumberChar d = true := fun d hd => by
    simp [isNumberChar, isDigit_decimal hd]
  obtain ⟨htake, hdrop⟩ := takeWhile_stops hdigits ⟨c, cs, hcs, hnumber⟩
  refine ⟨htake, hdrop, any_eq_false.mpr fun d hd => ?_⟩
  simp [not_isFloatChar_of_isDigit d (isDigit_decimal hd)]

/-- A printed integer is one token. -/
theorem matchNumber2_dump (n : ℤ) (hrest : Stops rest) :
    matchNumber2 (dumpInt n ++ rest) = some ⟨dumpInt n, false, decide (n < 0), rest⟩ := by
  obtain ⟨htake, hdrop, hfloat⟩ := decimal_chars n.natAbs hrest
  have hne : rest ≠ [] := by
    obtain ⟨c, cs, rfl, -⟩ := hrest
    exact cons_ne_nil _ _
  by_cases hn : n < 0
  · rw [dumpInt_of_neg hn]
    simp [matchNumber2, htake, hdrop, hfloat, hne, hn]
  · rw [dumpInt_of_nonneg hn]
    have hhead : ((decimal n.natAbs ++ rest).head? == some minus) = false := by
      obtain ⟨c, cs, hcs⟩ := exists_cons_of_ne_nil (decimal_ne_nil n.natAbs)
      have hc := isDigit_ne_minus c (isDigit_decimal (hcs ▸ mem_cons_self))
      simp [hcs, hc]
    simp only [matchNumber2, hhead, Bool.false_eq_true, if_false, htake, hdrop, hfloat, hne,
      decimal_ne_nil, or_self, hn, decide_false]

/-- The integers of 64 bits, with or without a sign. -/
def InRange (n : ℤ) : Prop := -2 ^ 63 ≤ n ∧ n < 2 ^ 64

theorem inRange_toInt (t : PodType) (v : t.Val) : InRange (t.toInt v) := by
  have hbound : t.bound ≤ 2 ^ 64 := by cases t <;> decide
  unfold InRange PodType.toInt
  split_ifs with h
  · simp only [Bool.and_eq_true, decide_eq_true_eq] at h
    omega
  · omega

theorem value_dump (strtod : Bytes → Option (Fin (256 ^ 8))) (hn : InRange n) (rest : Bytes) :
    NumberToken.value strtod ⟨dumpInt n, false, decide (n < 0), rest⟩ = some (wideInt n) := by
  obtain ⟨hlow, hhigh⟩ := hn
  unfold NumberToken.value wideInt wideVal
  by_cases hneg : n < 0
  · have hdigits : digitsValue (dumpInt n).tail = n.natAbs := by
      rw [dumpInt_of_neg hneg, tail_cons, digitsValue_decimal]
    simp only [hneg, Bool.false_eq_true, if_false, decide_true, if_true, strtoll, hdigits,
      if_pos (show n.natAbs ≤ 2 ^ 63 by omega)]
    refine congrArg some (Sigma.ext rfl (heq_of_eq (Fin.ext ?_)))
    change (256 ^ 8 - n.natAbs) % 256 ^ 8 = (n % 256 ^ 8).toNat
    omega
  · have hdigits : digitsValue (dumpInt n) = n.natAbs := by
      rw [dumpInt_of_nonneg hneg, digitsValue_decimal]
    simp only [hneg, Bool.false_eq_true, if_false, decide_false, strtoull, hdigits,
      dif_pos (show n.natAbs < 256 ^ 8 by omega)]
    refine congrArg some (Sigma.ext rfl (heq_of_eq (Fin.ext ?_)))
    change n.natAbs = (n % 256 ^ 8).toNat
    omega

/-! ## What a number token stands for -/

/-- A token in decimal digits, with a minus sign or without, and its value. -/
def SpellsInt (val : Bytes) (n : ℤ) : Prop :=
  ∃ digits, digits ≠ [] ∧ (∀ d ∈ digits, isDigit d = true) ∧
    (val = digits ∧ n = digitsValue digits ∨ val = minus :: digits ∧ n = -digitsValue digits)

/-- Characters of a token, at least one, without a sign. -/
def plainChars (chars : Bytes) : Bool := chars != [] && chars.all fun c => c != 43 && c != minus

/-- A text whose number has no sign but a minus sign at its front, and more than that. -/
def plainNumber (text : Bytes) : Bool :=
  plainChars ((if text.head? == some minus then text.tail else text).takeWhile isNumberChar)

theorem isDigit_eq_not_sign : ∀ c : UInt8, isNumberChar c = true → isFloatChar c = false →
    (c != 43 && c != minus) = isDigit c :=
  forall_byte (by decide +kernel)

theorem plainChars_iff {body : Bytes}
    (hfloat : (body.takeWhile isNumberChar).any isFloatChar = false) :
    plainChars (body.takeWhile isNumberChar) = true ↔
      body.takeWhile isNumberChar ≠ [] ∧ ∀ d ∈ body.takeWhile isNumberChar, isDigit d = true := by
  rw [plainChars, Bool.and_eq_true, bne_iff_ne, all_eq_true]
  refine and_congr_right fun _ => forall₂_congr fun d hd => ?_
  rw [isDigit_eq_not_sign d (mem_takeWhile_imp hd) (by simpa using any_eq_false.1 hfloat d hd)]

/-- The value that is stored for a token without point and exponent. -/
theorem toInt_value {strtod : Bytes → Option (Fin (256 ^ 8))} {chars rest : Bytes} (signed : Bool)
    {v : Σ t : PodType, t.Val}
    (hv : NumberToken.value strtod ⟨if signed then minus :: chars else chars, false, signed, rest⟩ =
      some v) :
    v.1.toInt v.2 = if signed then -(digitsValue chars : ℤ) else digitsValue chars := by
  cases signed with
  | false =>
    obtain ⟨w, hw, rfl⟩ := Option.map_eq_some_iff.1 hv
    obtain ⟨_, hw⟩ := Option.dite_none_right_eq_some.1 hw
    cases hw
    simp [PodType.toInt, PodType.isSigned]
  | true =>
    obtain ⟨w, hw, rfl⟩ := Option.map_eq_some_iff.1 hv
    obtain ⟨hle, hw⟩ := Option.ite_none_right_eq_some.1 hw
    cases hw
    rw [if_pos rfl, tail_cons] at hle
    simp only [PodType.toInt, PodType.isSigned, PodType.bound, PodType.size, Bool.true_and, if_true,
      tail_cons, decide_eq_true_eq]
    split_ifs <;> omega

/-- **When a number is read as it is written.** -/
theorem spellsInt_iff {strtod : Bytes → Option (Fin (256 ^ 8))} {c : UInt8} {cs : Bytes}
    {tok : NumberToken} {v : Σ t : PodType, t.Val} (hc : (isDigit c || c == minus) = true)
    (h : matchNumber2 (c :: cs) = some tok) (hfloat : tok.val.any isFloatChar = false)
    (hv : tok.value strtod = some v) :
    SpellsInt tok.val (v.1.toInt v.2) ↔ plainNumber (c :: cs) = true := by
  simp only [matchNumber2, Option.ite_none_left_eq_some, Option.some.injEq] at h
  obtain ⟨-, rfl⟩ := h
  by_cases hminus : c = minus
  · subst hminus
    simp only [head?_cons, beq_self_eq_true, if_true, tail_cons, any_cons] at hfloat hv ⊢
    have hchars := (Bool.or_eq_false_iff.1 hfloat).2
    rw [hchars] at hv
    rw [toInt_value true hv, if_pos rfl, plainNumber, head?_cons, beq_self_eq_true, if_pos rfl,
      tail_cons, plainChars_iff hchars]
    refine ⟨?_, fun hd => ⟨_, hd.1, hd.2, .inr ⟨rfl, rfl⟩⟩⟩
    rintro ⟨digits, hne, hall, ⟨rfl, -⟩ | ⟨hval, -⟩⟩
    · exact absurd (hall minus mem_cons_self) (by decide)
    · cases hval
      exact ⟨hne, hall⟩
  · have hhead : ((c :: cs).head? == some minus) = false := by simpa using hminus
    have hdigit : isDigit c = true := by simpa [hminus] using hc
    simp only [hhead, Bool.false_eq_true, if_false] at hfloat hv ⊢
    rw [hfloat] at hv
    rw [toInt_value false hv, if_neg (by simp), plainNumber, hhead, if_neg (by simp),
      plainChars_iff hfloat]
    refine ⟨?_, fun hd => ⟨_, hd.1, hd.2, .inl ⟨rfl, rfl⟩⟩⟩
    rintro ⟨digits, hne, hall, ⟨rfl, -⟩ | ⟨hval, -⟩⟩
    · exact ⟨hne, hall⟩
    · rw [takeWhile_cons_of_pos (by simp [isNumberChar, hdigit])] at hval
      exact absurd (cons.inj hval).1 hminus

/-- `1-2` is taken for 1. -/
theorem number_misread : ∃ (c : UInt8) (cs : Bytes) (tok : NumberToken) (v : Σ t : PodType, t.Val),
    (isDigit c || c == minus) = true ∧ matchNumber2 (c :: cs) = some tok ∧
      tok.val.any isFloatChar = false ∧ tok.value (fun _ => none) = some v ∧
      ¬ SpellsInt tok.val (v.1.toInt v.2) := by
  refine ⟨49, [45, 50, 44], ⟨[49, 45, 50], false, false, [44]⟩, ⟨.uint64, (1 : Fin (256 ^ 8))⟩,
    rfl, rfl, rfl, rfl, ?_⟩
  rintro ⟨digits, -, hall, ⟨rfl, -⟩ | ⟨hval, -⟩⟩
  · exact absurd (hall 45 (by simp)) (by decide)
  · cases hval

theorem number_read : SpellsInt [45, 49, 50] (-12) ∧ plainNumber [45, 49, 50, 44] = true := by
  have hiff := @spellsInt_iff (fun _ => none) 45 [49, 50, 44]
    ⟨[45, 49, 50], false, true, [44]⟩ ⟨.int64, (256 ^ 8 - 12 : Fin (256 ^ 8))⟩ rfl rfl rfl rfl
  exact ⟨hiff.2 rfl, rfl⟩

/-- A word of letters is one token. -/
theorem matchWord2_word (hw : ∀ c ∈ w, isAlpha c = true) (hne : w ≠ [])
    (hrest : Stops rest) : matchWord2 (w ++ rest) = some (w, rest) := by
  obtain ⟨c, cs, rfl, -, halpha⟩ := hrest
  obtain ⟨htake, hdrop⟩ := takeWhile_stops hw ⟨c, cs, rfl, halpha⟩
  simp [matchWord2, htake, hdrop, hne]

/-! ## Rounds over what was written -/

/-- A parser that is not in an array. -/
def Parser.outside (st : MatchState) (sec : Section) (name text : Bytes) : Parser :=
  ⟨text, sec, name, st, .undefined, false⟩

section Rounds

variable {strtod : Bytes → Option (Fin (256 ^ 8))} {nested : Section → Bytes → Option Handled}
  {sec : Section} {name : Bytes}

theorem run_next (hn : Shrinks nested) {p q : Parser} (h : p.step strtod nested = .next q) :
    p.run strtod nested = q.run strtod nested := by
  rw [run_eq hn, h]
  rfl

/-- White space means nothing else. -/
theorem isSpace_only : ∀ c : UInt8, isSpace c = true →
    c ≠ quote ∧ c ≠ openBrace ∧ c ≠ closeBrace ∧ c ≠ openBracket ∧ c ≠ colon ∧ c ≠ comma ∧
      (isDigit c || c == minus) = false ∧ isAlpha c = false :=
  forall_byte (by decide +kernel)

/-- The states in which the text between fields is read. -/
def Between (st : MatchState) : Prop :=
  st = .lookupForName ∨ st = .wonderAfterSeparator ∨ st = .wonderAfterValue

theorem step_space (hc : isSpace c = true) {st : MatchState} (hst : Between st) (cs : Bytes) :
    (Parser.outside st sec name (c :: cs)).step strtod nested =
      .next (Parser.outside st sec name cs) := by
  obtain ⟨hquote, hopen, hclose, hbracket, hcolon, hcomma, hdigit, halpha⟩ := isSpace_only c hc
  rcases hst with rfl | rfl | rfl <;>
    simp [step, Parser.outside, lookForName, afterSeparator, afterValue,
      checkSpace, hc, hquote, hopen, hclose, hbracket, hcomma, hdigit, halpha]

theorem run_spaces (hn : Shrinks nested) {st : MatchState} (hst : Between st) (rest : Bytes)
    (hw : ∀ c ∈ w, isSpace c = true) :
    (Parser.outside st sec name (w ++ rest)).run strtod nested =
      (Parser.outside st sec name rest).run strtod nested := by
  induction w with
  | nil => rfl
  | cons c w ih =>
    rw [cons_append, run_next hn (step_space (hw c mem_cons_self) hst _),
      ih fun d hd => hw d (mem_cons_of_mem c hd)]

theorem makeIndent_space (indent : ℕ) : ∀ c ∈ makeIndent indent, isSpace c = true := by
  intro c hc
  rw [eq_of_mem_replicate hc]
  decide

theorem newline_space (newlines : Bool) : ∀ c ∈ newline newlines, isSpace c = true := by
  cases newlines <;> simp [newline, isSpace]

/-- The name of a field. -/
theorem run_name (hn : Shrinks nested) (indent : ℕ) (name' rest : Bytes) :
    (Parser.outside .lookupForName sec name
      (makeIndent indent ++ (dumpString name' ++ (colon :: 32 :: rest)))).run strtod nested =
      (Parser.outside .wonderAfterSeparator sec name' rest).run strtod nested := by
  have hname : (Parser.outside .lookupForName sec name
      (dumpString name' ++ (colon :: 32 :: rest))).step strtod nested =
      .next (Parser.outside .waitingSeparator sec name' (colon :: 32 :: rest)) := by
    simp [step, Parser.outside, lookForName, orThrow, dumpString,
      matchString2_dump]
  have hcolon : (Parser.outside .waitingSeparator sec name' (colon :: 32 :: rest)).step strtod
      nested = .next (Parser.outside .wonderAfterSeparator sec name' (32 :: rest)) := by
    simp [step, Parser.outside]
  rw [run_spaces hn (.inl rfl) _ (makeIndent_space indent), run_next hn hname, run_next hn hcolon,
    run_next hn (step_space (by decide) (.inr (.inl rfl)) rest)]

variable (strtod nested) in
/-- A text that is read as an entry, behind the name of a field that comes last in its section. -/
def EntryReads (text : Bytes) (e : StorageEntry) : Prop :=
  ∀ ⦃sec : Section⦄ ⦃name rest : Bytes⦄, name ≠ [] → (∀ n ∈ sec.names, n < name) → Stops rest →
    (Parser.outside .wonderAfterSeparator sec name (text ++ rest)).run strtod nested =
      (Parser.outside .wonderAfterValue (sec.append (.cons name e .nil)) name rest).run strtod
        nested

theorem setValue_last (hname : name ≠ []) (hlast : ∀ n ∈ sec.names, n < name)
    (e : StorageEntry) : setValue name e sec = sec.append (.cons name e .nil) := by
  rw [setValue, if_pos (.inl hname), Section.set_last hlast]

theorem entryReads_string (hn : Shrinks nested) (v : Bytes) :
    EntryReads strtod nested (dumpString v) (.string v) := by
  intro sec name rest hname hlast _
  refine run_next hn ?_
  simp [step, Parser.outside, afterSeparator, orThrow, withValue,
    dumpString, matchString2_dump, setValue_last hname hlast]

theorem number_chars : ∀ c : UInt8, (isDigit c || c == minus) = true →
    c ≠ quote ∧ c ≠ openBrace ∧ c ≠ openBracket :=
  forall_byte (by decide +kernel)

theorem entryReads_int (hn : Shrinks nested) (hrange : InRange n) :
    EntryReads strtod nested (dumpInt n) (.pod (wideInt n).1 (wideInt n).2) := by
  intro sec name rest hname hlast hrest
  refine run_next hn ?_
  have htok := matchNumber2_dump n hrest
  obtain ⟨c, cs, hcs, hc⟩ := dumpInt_head n
  rw [hcs, cons_append] at htok
  rw [hcs, cons_append]
  simp [step, Parser.outside, afterSeparator, orThrow, withValue,
    hc, (number_chars c hc).1, htok, ← hcs, value_dump strtod hrange, setValue_last hname hlast]

theorem matchWord2_boolText (v : Fin 2) (hrest : Stops rest) :
    matchWord2 (boolText v ++ rest) = some (boolText v, rest) := by
  refine matchWord2_word ?_ ?_ hrest
  · unfold boolText
    split <;> simp [wordFalse, wordTrue, isAlpha]
  · revert v
    decide

/-- The first character of a boolean. -/
theorem boolText_head (v : Fin 2) :
    ∃ c cs, boolText v = c :: cs ∧ isAlpha c = true ∧ (isDigit c || c == minus) = false ∧
      c ≠ quote ∧ c ≠ openBrace := by
  unfold boolText
  split_ifs
  · exact ⟨102, _, rfl, by decide⟩
  · exact ⟨116, _, rfl, by decide⟩

theorem keyword_boolText (p : Parser) (v : Fin 2) (rest : Bytes) :
    p.keyword (boolText v) rest = some (p.withValue (.pod .bool v) rest) := by
  match v with
  | 0 => rfl
  | 1 => rfl

theorem entryReads_bool (hn : Shrinks nested) (v : Fin 2) :
    EntryReads strtod nested (boolText v) (.pod .bool v) := by
  intro sec name rest hname hlast hrest
  refine run_next hn ?_
  have hword := matchWord2_boolText v hrest
  obtain ⟨c, cs, hcs, halpha, hdigit, hquote, -⟩ := boolText_head v
  rw [hcs, cons_append] at hword
  rw [hcs, cons_append]
  simp [step, Parser.outside, afterSeparator, orThrow, halpha, hdigit, hquote,
    hword, ← hcs, keyword_boolText, withValue, setValue_last hname hlast]

/-- A text that a nested call reads as a section, up to its closing brace. -/
def SectionReads (nested : Section → Bytes → Option Handled) (text : Bytes) (s : Section) : Prop :=
  ∀ rest, ∃ cs, text ++ rest = openBrace :: cs ∧
    nested .nil (text ++ rest) = some (s, some rest)

theorem entryReads_object (hn : Shrinks nested) {text : Bytes} {s : Section}
    (h : SectionReads nested text s) : EntryReads strtod nested text (.object s) := by
  intro sec name rest hname hlast _
  refine run_next hn ?_
  obtain ⟨cs, hcs, hs⟩ := h rest
  rw [hcs] at hs ⊢
  have hopen : openSection name sec = some .nil := by
    rw [openSection, if_pos (.inl hname), Section.find_of_last hlast]
  have hne : openBrace ≠ quote ∧ (isDigit openBrace || openBrace == minus) = false ∧
      isAlpha openBrace = false := by decide
  simp [step, Parser.outside, afterSeparator, orThrow, hne, hopen,
    nestedSection, hs, Section.set_last hlast]

/-! ## Arrays -/

variable (strtod nested) in
/-- A text that is read as an element of an array of a mode. -/
def ElementReads (mode : ArrayMode) (text : Bytes) (x : Element) : Prop :=
  ∀ ⦃rest : Bytes⦄, Stops rest → ∃ c cs, text ++ rest = c :: cs ∧ modeOf c = mode ∧
    element strtod nested c cs mode = some (x, rest)

theorem elementReads_string (v : Bytes) :
    ElementReads strtod nested .string (dumpString v) (.string v) := by
  intro rest _
  refine ⟨quote, transformToEscapeSequence v ++ quote :: rest, by simp [dumpString], rfl, ?_⟩
  simp [element, matchString2_dump]

theorem elementReads_int (hrange : InRange n) :
    ElementReads strtod nested .numbers (dumpInt n) (.pod (wideInt n).1 (wideInt n).2) := by
  intro rest hrest
  have htok := matchNumber2_dump n hrest
  obtain ⟨c, cs, hcs, hc⟩ := dumpInt_head n
  rw [hcs, cons_append] at htok
  obtain ⟨hquote, hopen, -⟩ := number_chars c hc
  refine ⟨c, cs ++ rest, by rw [hcs, cons_append], ?_, ?_⟩
  · rw [modeOf, if_neg hopen, if_neg hquote, if_pos hc]
  · simp [element, htok, ← hcs, value_dump strtod hrange]

theorem elementReads_bool (v : Fin 2) :
    ElementReads strtod nested .booleans (boolText v) (.pod .bool v) := by
  intro rest hrest
  have hword := matchWord2_boolText v hrest
  have hbool : boolWord (boolText v) = some (.pod .bool v) := by
    match v with
    | 0 => rfl
    | 1 => rfl
  obtain ⟨c, cs, hcs, halpha, hdigit, hquote, hopen⟩ := boolText_head v
  rw [hcs, cons_append] at hword
  refine ⟨c, cs ++ rest, by rw [hcs, cons_append], ?_, ?_⟩
  · simp [modeOf, hopen, hquote, hdigit, halpha]
  · simp [element, hword, ← hcs, hbool]

theorem elementReads_object {text : Bytes} {s : Section} (h : SectionReads nested text s) :
    ElementReads strtod nested .sections text (.object s) := by
  intro rest _
  obtain ⟨cs, hcs, hs⟩ := h rest
  refine ⟨openBrace, cs, hcs, rfl, ?_⟩
  simp [element, nestedSection, ← hcs, hs]

/-- A way to make arrays that the parser follows, one element after another. -/
structure Fills {α : Type} (array : List α → ArrayEntry) (elem : α → Element) : Prop where
  single : ∀ v, (elem v).single = array [v]
  push : ∀ vs v, push (array vs) (elem v) = some (array (vs ++ [v]))

/-- A parser behind an element of an array. -/
def Parser.inside (mode : ArrayMode) (sec : Section) (name : Bytes) (a : ArrayEntry)
    (text : Bytes) : Parser :=
  ⟨text, sec.append (.cons name (.array a) .nil), name, .arrayAfterValue, mode, false⟩

theorem joinComma_cons (b : Bytes) (bs : List Bytes) :
    joinComma (b :: bs) = b ++ bs.flatMap (comma :: ·) := by
  induction bs generalizing b with
  | nil => exact (append_nil b).symm
  | cons c bs ih => rw [joinComma, ih, flatMap_cons, cons_append]; nofun

theorem stops_elements (bs : List Bytes) (rest : Bytes) :
    Stops (bs.flatMap (comma :: ·) ++ closeBracket :: rest) := by
  cases bs with
  | nil => exact ⟨closeBracket, rest, rfl, by decide⟩
  | cons b bs => exact ⟨comma, _, by simp; rfl, by decide⟩

variable {α : Type} {array : List α → ArrayEntry} {elem : α → Element} {text : α → Bytes}
  {mode : ArrayMode}

/-- The elements behind the first one. -/
theorem run_elements (hn : Shrinks nested) (hfills : Fills array elem) (hmode : mode ≠ .undefined)
    (hlast : ∀ n ∈ sec.names, n < name) (rest : Bytes) (us vs : List α)
    (hvs : ∀ v ∈ vs, ElementReads strtod nested mode (text v) (elem v)) :
    (Parser.inside mode sec name (array us)
      ((vs.map text).flatMap (comma :: ·) ++ closeBracket :: rest)).run strtod nested =
      (Parser.outside .wonderAfterValue (sec.append (.cons name (.array (array (us ++ vs))) .nil))
        name rest).run strtod nested := by
  induction vs generalizing us with
  | nil =>
    refine run_next hn ?_
    have hne : closeBracket ≠ comma := by decide
    simp [step, Parser.inside, Parser.outside, afterElement, hne]
  | cons v vs ih =>
    obtain ⟨c, cs, hcs, hc, helem⟩ := hvs v mem_cons_self (stops_elements (vs.map text) rest)
    have hcomma : (Parser.inside mode sec name (array us)
        (((v :: vs).map text).flatMap (comma :: ·) ++ closeBracket :: rest)).step strtod nested =
        .next { Parser.inside mode sec name (array us) (c :: cs) with
          state := .arrayWaitingValue } := by
      simp [step, Parser.inside, afterElement, ← hcs]
    have hnext : step strtod nested { Parser.inside mode sec name (array us) (c :: cs) with
        state := .arrayWaitingValue } = .next (Parser.inside mode sec name (array (us ++ [v]))
          ((vs.map text).flatMap (comma :: ·) ++ closeBracket :: rest)) := by
      simp [step, Parser.inside, nextElement, orThrow, hmode, hc, helem,
        insertNext, Section.find_append hlast, Section.find, hfills.push,
        Section.set_append hlast, Section.set, List.lt_irrefl]
    rw [run_next hn hcomma, run_next hn hnext,
      ih (us ++ [v]) fun w hw => hvs w (mem_cons_of_mem v hw), append_assoc]
    rfl

/-- **A non-empty array is read back** when each of its elements is. -/
theorem entryReads_array (hn : Shrinks nested) (hfills : Fills array elem)
    (hmode : mode ≠ .undefined) {vs : List α} (hne : vs ≠ [])
    (hvs : ∀ v ∈ vs, ElementReads strtod nested mode (text v) (elem v)) :
    EntryReads strtod nested (dumpElements (vs.map text)) (.array (array vs)) := by
  intro sec name rest hname hlast _
  obtain ⟨v, vs, rfl⟩ := exists_cons_of_ne_nil hne
  obtain ⟨c, cs, hcs, hc, helem⟩ := hvs v mem_cons_self (stops_elements (vs.map text) rest)
  have hopen : (Parser.outside .wonderAfterSeparator sec name
      (dumpElements ((v :: vs).map text) ++ rest)).step strtod nested =
      .next (Parser.outside .wonderArray sec name (c :: cs)) := by
    have hbracket : openBracket ≠ quote ∧ (isDigit openBracket || openBracket == minus) = false ∧
        isAlpha openBracket = false ∧ openBracket ≠ openBrace := by decide
    simp [step, Parser.outside, afterSeparator, hbracket, dumpElements,
      joinComma_cons, ← hcs]
  have hfirst : (Parser.outside .wonderArray sec name (c :: cs)).step strtod nested =
      .next (Parser.inside mode sec name (array [v])
        ((vs.map text).flatMap (comma :: ·) ++ closeBracket :: rest)) := by
    have hbracket : c ≠ openBracket := by
      rintro rfl
      exact hmode hc.symm
    simp [step, Parser.outside, Parser.inside, firstElement, orThrow, hc,
      hmode, hbracket, helem, insertFirst, canInsert, hname, hfills.single, Section.set_last hlast]
  rw [run_next hn hopen, run_next hn hfirst, run_elements hn hfills hmode hlast rest [v] vs
    fun w hw => hvs w (mem_cons_of_mem v hw)]
  rfl

end Rounds

/-! ## The tree -/

section Tree

variable {strtod : Bytes → Option (Fin (256 ^ 8))} {nested : Section → Bytes → Option Handled}
  {showDouble : Fin (256 ^ 8) → Bytes} {newlines : Bool}

theorem entryReads_pod (hn : Shrinks nested) {t : PodType} (ht : t ≠ .double) (v : t.Val) :
    EntryReads strtod nested (dumpPod showDouble t v)
      (.pod (widenPod t v).1 (widenPod t v).2) := by
  cases t
  case double => exact absurd rfl ht
  case bool => exact entryReads_bool hn v
  all_goals exact entryReads_int hn (inRange_toInt _ v)

/-- Integers whose 64-bit type is the same are read into an array of that type. -/
theorem entryReads_wide (hn : Shrinks nested) {ns : List ℤ} (hne : ns ≠ [])
    (hrange : ∀ n ∈ ns, InRange n) (t : PodType) (wide : ℤ → t.Val)
    (ht : ∀ n ∈ ns, wideInt n = ⟨t, wide n⟩) :
    EntryReads strtod nested (dumpElements (ns.map dumpInt)) (.array (.pods t (ns.map wide))) := by
  have hfills : Fills (fun ns => .pods t (ns.map wide)) (fun n => .pod t (wide n)) :=
    ⟨fun _ => rfl, fun ns n => by simp [push]⟩
  have hvs : ∀ n ∈ ns, ElementReads strtod nested .numbers (dumpInt n) (.pod t (wide n)) := by
    intro n hmem
    have h : ElementReads strtod nested .numbers (dumpInt n) _ := elementReads_int (hrange n hmem)
    rwa [ht n hmem] at h
  exact entryReads_array hn hfills (by decide) hne hvs

/-- Integers of one sign are read into an array of the type that the first one has. -/
theorem entryReads_ints (hn : Shrinks nested) {ns : List ℤ} (hne : ns ≠ [])
    (hrange : ∀ n ∈ ns, InRange n) (hsign : (∀ n ∈ ns, 0 ≤ n) ∨ ∀ n ∈ ns, n < 0) :
    EntryReads strtod nested (dumpElements (ns.map dumpInt)) (.array (wideInts ns)) := by
  rcases hsign with hsign | hsign
  · have hwide : wideInts ns = .pods .uint64 (ns.map wideVal) := if_neg (by simpa using hsign)
    rw [hwide]
    exact entryReads_wide hn hne hrange .uint64 wideVal fun n hmem =>
      if_neg (not_lt.mpr (hsign n hmem))
  · obtain ⟨n, hmem⟩ := exists_mem_of_ne_nil ns hne
    have hwide : wideInts ns = .pods .int64 (ns.map wideVal) :=
      if_pos (any_eq_true.mpr ⟨n, hmem, decide_eq_true (hsign n hmem)⟩)
    rw [hwide]
    exact entryReads_wide hn hne hrange .int64 wideVal fun n hmem => if_pos (hsign n hmem)

theorem entryReads_pods (hn : Shrinks nested) {t : PodType} (ht : t ≠ .double)
    {vs : List t.Val} (hne : vs ≠ []) (hsign : OneSign t vs) :
    EntryReads strtod nested (dumpElements (vs.map (dumpPod showDouble t)))
      (.array (widenPods t vs)) := by
  have hints : EntryReads strtod nested (dumpElements ((vs.map t.toInt).map dumpInt))
      (.array (wideInts (vs.map t.toInt))) := by
    refine entryReads_ints hn (by simpa using hne) ?_ ?_
    · exact forall_mem_map.mpr fun v _ => inRange_toInt t v
    · exact hsign.imp forall_mem_map.mpr forall_mem_map.mpr
  rw [map_map] at hints
  cases t
  case double => exact absurd rfl ht
  case bool =>
    have hfills : Fills (.pods .bool) (.pod .bool) :=
      ⟨fun _ => rfl, fun _ _ => by simp [push]⟩
    exact entryReads_array hn hfills (by decide) hne fun v _ => elementReads_bool v
  all_goals exact hints

variable (strtod showDouble newlines)

/-- The fields of a section are read one after another, behind those that are already there. -/
def FieldsRead (s : Section) : Prop :=
  ∀ (r indent : ℕ) (sec : Section) (name rest : Bytes), s.depth ≤ r → Printable s → Unmixed s →
    (∀ n ∈ sec.names, ∀ m ∈ s.names, n < m) → Stops rest →
    ∃ st name', (st = .lookupForName ∨ st = .wonderAfterValue) ∧
      (Parser.outside .lookupForName sec name
        (dumpFields showDouble newlines indent s ++ rest)).run strtod (runHandler strtod r) =
      (Parser.outside st (sec.append (widen s)) name' rest).run strtod (runHandler strtod r)

/-- What is written of an entry is read as the entry, with its integers widened. -/
def EntryRead (e : StorageEntry) : Prop :=
  ∀ r indent : ℕ, e.depth ≤ r → PrintableEntry e → UnmixedEntry e →
    EntryReads strtod (runHandler strtod r) (dumpEntry showDouble newlines indent e) (widenEntry e)

/-- What is written of an array is read as the array, with its integers widened. -/
def ArrayRead (a : ArrayEntry) : Prop :=
  ∀ r indent : ℕ, a.depth ≤ r → PrintableArray a → UnmixedArray a →
    EntryReads strtod (runHandler strtod r) (dumpArray showDouble newlines indent a)
      (.array (widenArray a))

variable {strtod showDouble newlines}

theorem stops_spaces (hw : ∀ c ∈ w, isSpace c = true) (hrest : Stops rest) : Stops (w ++ rest) := by
  have hspace : ∀ c : UInt8, isSpace c = true → isNumberChar c = false ∧ isAlpha c = false :=
    forall_byte (by decide +kernel)
  cases w with
  | nil => exact hrest
  | cons c w => exact ⟨c, w ++ rest, rfl, hspace c (hw c mem_cons_self)⟩

/-- The end of a section. -/
theorem run_closeBrace {nested : Section → Bytes → Option Handled} (hn : Shrinks nested)
    {st : MatchState} (hst : st = .lookupForName ∨ st = .wonderAfterValue) (sec : Section)
    (name : Bytes) (indent : ℕ) (rest : Bytes) :
    result ((Parser.outside st sec name (makeIndent indent ++ closeBrace :: rest)).run
      strtod nested) = some (sec, some rest) := by
  have hbetween : Between st := hst.imp_right .inr
  have hclose : closeBrace ≠ quote ∧ closeBrace ≠ comma := by decide
  rw [run_spaces hn hbetween _ (makeIndent_space indent), run_eq hn]
  rcases hst with rfl | rfl <;>
    simp [step, Parser.outside, lookForName, afterValue, close,
      hclose, Outcome.andThen, result]

/-- **A section is read back by a call**, once its fields are. -/
theorem FieldsRead.sectionReads {s : Section} (h : FieldsRead strtod showDouble newlines s)
    {r : ℕ} (hr : s.depth ≤ r) (hp : Printable s) (hu : Unmixed s) (indent : ℕ) :
    SectionReads (runHandler strtod (r + 1)) (dumpAsJson showDouble newlines indent s)
      (widen s) := by
  intro rest
  refine ⟨_, rfl, ?_⟩
  have hn : Shrinks (runHandler strtod r) := shrinks_runHandler strtod r
  have hopen : (start .nil (dumpAsJson showDouble newlines indent s ++ rest)).step strtod
      (runHandler strtod r) = .next (Parser.outside .lookupForName .nil []
        (newline newlines ++ (dumpFields showDouble newlines (indent + 1) s ++
          (makeIndent indent ++ closeBrace :: rest)))) := by
    simp [step, start, Parser.outside, dumpAsJson, wrapFields]
  obtain ⟨st, name, hst, hrun⟩ := h r (indent + 1) .nil [] (makeIndent indent ++ closeBrace :: rest)
    hr hp hu nofun (stops_spaces (makeIndent_space indent) ⟨closeBrace, rest, rfl, by decide⟩)
  rw [runHandler, run_next hn hopen, run_spaces hn (.inl rfl) _ (newline_space newlines), hrun]
  exact run_closeBrace hn hst _ name indent rest

theorem fieldsRead_cons {name : Bytes} {entry : StorageEntry} {rest : Section}
    (hentry : EntryRead strtod showDouble newlines entry)
    (hrest : FieldsRead strtod showDouble newlines rest) :
    FieldsRead strtod showDouble newlines (.cons name entry rest) := by
  intro r indent sec name0 text hr hp hu hnames hstops
  obtain ⟨horder, hname, hpe, hpr⟩ := hp
  obtain ⟨hue, hur⟩ := hu
  obtain ⟨hre, hrr⟩ := max_le_iff.mp hr
  have hn : Shrinks (runHandler strtod r) := shrinks_runHandler strtod r
  have hlast : ∀ n ∈ sec.names, n < name := fun n hmem => hnames n hmem name mem_cons_self
  have hread := hentry r indent hre hpe hue
  cases rest with
  | nil =>
    -- the last field has no comma behind it, so the section may end here
    refine ⟨.wonderAfterValue, name, .inr rfl, ?_⟩
    simp only [dumpFields, Section.length, if_true, nil_append, append_nil,
      append_assoc, cons_append]
    rw [run_name hn, hread hname hlast (stops_spaces (newline_space newlines) hstops),
      run_spaces hn (.inr (.inr rfl)) _ (newline_space newlines)]
    rfl
  | cons name' entry' rest' =>
    have hcomma : ∀ sec text, (Parser.outside .wonderAfterValue sec name (comma :: text)).step
        strtod (runHandler strtod r) = .next (Parser.outside .lookupForName sec name text) :=
      fun sec text => by simp [step, Parser.outside, afterValue]
    have hnames' : ∀ n ∈ (sec.append (.cons name (widenEntry entry) .nil)).names,
        ∀ m ∈ (Section.cons name' entry' rest').names, n < m := by
      intro n hmem m hm
      rw [Section.names_append, mem_append] at hmem
      rcases hmem with hmem | hmem
      · exact hnames n hmem m (mem_cons_of_mem name hm)
      rw [mem_singleton.mp hmem]
      exact horder m hm
    obtain ⟨st, name'', hst, hrun⟩ := hrest r indent
      (sec.append (.cons name (widenEntry entry) .nil)) name text hrr hpr hur hnames' hstops
    refine ⟨st, name'', hst, ?_⟩
    have hlength : (Section.cons name' entry' rest').length ≠ 0 := Nat.succ_ne_zero _
    rw [dumpFields, if_neg hlength]
    simp only [append_assoc, cons_append, nil_append]
    rw [run_name hn, hread hname hlast ⟨comma, _, rfl, by decide⟩, run_next hn (hcomma _ _),
      run_spaces hn (.inl rfl) _ (newline_space newlines), hrun, Section.append_assoc]
    rfl

/-- An array of sections is read back. -/
theorem arrayRead_objects {vs : List Section}
    (h : ∀ v ∈ vs, FieldsRead strtod showDouble newlines v) :
    ArrayRead strtod showDouble newlines (.objects vs) := by
  intro r indent hr hp hu
  obtain ⟨hne, hp⟩ := hp
  have hdump : ∀ vs, dumpObjects showDouble newlines indent vs =
      vs.map (dumpAsJson showDouble newlines indent) := by
    intro vs
    induction vs with
    | nil => rfl
    | cons s vs ih => rw [dumpObjects, ih]; rfl
  have hwiden : ∀ vs, widenObjects vs = vs.map widen := by
    intro vs
    induction vs with
    | nil => rfl
    | cons s vs ih => rw [widenObjects, ih]; rfl
  have hvs : ∀ v ∈ vs, ElementReads strtod (runHandler strtod r) .sections
      (dumpAsJson showDouble newlines indent v) (.object (widen v)) := by
    clear hne
    change depthObjects vs ≤ r at hr
    change UnmixedObjects vs at hu
    induction vs with
    | nil => nofun
    | cons s vs ih =>
      obtain ⟨hrs, hrvs⟩ := max_le_iff.mp hr
      obtain ⟨k, rfl⟩ : ∃ k, r = k + 1 := ⟨r - 1, by omega⟩
      refine forall_mem_cons.mpr ⟨elementReads_object ?_, ?_⟩
      · exact (h s mem_cons_self).sectionReads (Nat.le_of_succ_le_succ hrs) hp.1 hu.1 indent
      · exact ih (fun v hv => h v (mem_cons_of_mem s hv)) hp.2 hrvs hu.2
  have hfills : Fills (fun vs => .objects (vs.map widen)) (fun v => .object (widen v)) :=
    ⟨fun _ => rfl, fun vs v => by simp [push]⟩
  rw [dumpArray, widenArray, hdump, hwiden]
  exact entryReads_array (shrinks_runHandler strtod r) hfills (by decide) hne hvs

/-- **Every printable tree is read back**, by induction over it. -/
theorem treeCases_read : TreeCases (FieldsRead strtod showDouble newlines)
    (EntryRead strtod showDouble newlines) (ArrayRead strtod showDouble newlines) where
  nil := fun r indent sec name rest _ _ _ _ _ => ⟨.lookupForName, name, .inl rfl, by
    rw [widen, Section.append_nil]
    rfl⟩
  cons := fun _ _ _ hentry hrest => fieldsRead_cons hentry hrest
  pod := fun _ v r _ _ ht _ => entryReads_pod (shrinks_runHandler strtod r) ht v
  string := fun v r _ _ _ _ => entryReads_string (shrinks_runHandler strtod r) v
  object := by
    intro s hs r indent hr hp hu
    obtain ⟨k, rfl⟩ : ∃ k, r = k + 1 := ⟨r - 1, by change s.depth + 1 ≤ r at hr; omega⟩
    exact entryReads_object (shrinks_runHandler strtod (k + 1))
      (hs.sectionReads (Nat.le_of_succ_le_succ hr) hp hu indent)
  array := fun _ ha r indent hr hp hu => ha r indent hr hp hu
  pods := fun _ _ r _ _ hp hu => entryReads_pods (shrinks_runHandler strtod r) hp.1 hp.2 hu
  strings := by
    intro vs r indent _ hne _
    have hfills : Fills .strings .string := ⟨fun _ => rfl, fun _ _ => rfl⟩
    exact entryReads_array (shrinks_runHandler strtod r) hfills (by decide) hne
      fun v _ => elementReads_string v
  objects := fun _ h => arrayRead_objects h
  arrays := fun _ _ _ _ _ hp _ => hp.elim

end Tree

/-- **What was written as JSON is loaded again**, with every integer in 64 bits: from a tree of
strings, booleans, integers, sections nested fewer than 100 deep and non-empty arrays of these, with
names that are not empty and no integers of both signs in one array. -/
theorem load_dump (strtod : Bytes → Option (Fin (256 ^ 8))) (showDouble : Fin (256 ^ 8) → Bytes)
    (newlines : Bool) (indent : ℕ) {root : Section} (hp : Printable root) (hu : Unmixed root)
    (hd : root.depth < 100) :
    loadFromJson strtod .nil (dumpAsJson showDouble newlines indent root) = some (widen root) := by
  have hread : FieldsRead strtod showDouble newlines root := treeCases_read.all root
  obtain ⟨-, -, hrun⟩ := hread.sectionReads (Nat.le_of_lt_succ hd) hp hu indent []
  rw [append_nil] at hrun
  rw [loadFromJson, recursionLimit, hrun]
  rfl

/-- A tree with a negative number, an array of negative numbers, a boolean and a nested section. -/
def jsonSample : Section :=
  .cons [97] (.pod .int8 (255 : Fin 256)) (.cons [98] (.array (.pods .int8 [(254 : Fin 256)]))
    (.cons [99] (.object (.cons [47] (.pod .bool (Fin.last 1)) .nil)) .nil))

theorem load_dump_sample :
    loadFromJson (fun _ => none) .nil (dumpAsJson (fun _ => []) true 0 jsonSample) =
      some (widen jsonSample) := by
  have hp : Printable jsonSample := by
    simp [jsonSample, Printable, PrintableEntry, PrintableArray, Section.names]
    decide
  have hu : Unmixed jsonSample := by
    simp only [jsonSample, Unmixed, UnmixedEntry, UnmixedArray, and_true, true_and]
    decide +kernel
  exact load_dump (fun _ => none) (fun _ => []) true 0 hp hu (by decide)

/-- An array of a positive and a negative number. -/
def mixedArray : Section := .cons [97] (.array (.pods .int8 [(1 : Fin 256), (255 : Fin 256)])) .nil

/-- With numbers of both signs in one array the load fails: the first one makes it an array of
`uint64_t`, and the second one is an `int64_t`. -/
theorem load_dump_fails :
    ¬ ∀ (strtod : Bytes → Option (Fin (256 ^ 8))) (showDouble : Fin (256 ^ 8) → Bytes)
      (newlines : Bool) (indent : ℕ) (root : Section), Printable root → root.depth < 100 →
      loadFromJson strtod .nil (dumpAsJson showDouble newlines indent root) =
        some (widen root) := by
  intro h
  have hp : Printable mixedArray := by
    simp [mixedArray, Printable, PrintableEntry, PrintableArray, Section.names]
  have hload := h (fun _ => none) (fun _ => []) true 0 mixedArray hp (by decide)
  have hnone : (loadFromJson (fun _ => none) .nil
      (dumpAsJson (fun _ => []) true 0 mixedArray)).isNone = true := by decide
  rw [hload] at hnone
  cases hnone

end Hashmonkey.Epee.Json
