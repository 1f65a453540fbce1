import Hashmonkey.Basic.Address

/-!
# Hexadecimal strings (`epee/src/hex.cpp`, `epee/src/wipeable_string.cpp`)

There are three decoders, each with a search for digits of its own:

* `parseHexstrToBinbuff`, which is `from_hex::to_string`, finds digits in the table `isx`;
* `parseHexstr` of a `wipeable_string` finds them with `strchr` in the C string `hex`, whose zero at
  the end counts as a character;
* `toVector` of `from_hex_locale` skips spaces and colons; the locale is that of C.

`writeHex` is the encoder. Results: **`parseHexstr_iff`**, the strings on which the first two agree,
and **`toVector_iff`**, the strings that the third decodes as if they had no separators.
-/

namespace Hashmonkey.Epee

open Serialization Basic

/-- `hex`. -/
def hex : Bytes := [48, 49, 50, 51, 52, 53, 54, 55, 56, 57, 97, 98, 99, 100, 101, 102]

/-- `write_hex`. -/
def writeHex (src : Bytes) : Bytes :=
  src.flatMap fun byte : UInt8 => [hex.getD (byte >>> 4).toNat 0, hex.getD (byte &&& 0x0f).toNat 0]

/-- `atolower`, which is also `std::tolower` of the C locale. -/
def atolower (c : UInt8) : UInt8 := if 65 ≤ c ∧ c ≤ 90 then c ||| 32 else c

/-- `strchr(hex, c) - hex`. The zero that ends a C string counts as one of its characters. -/
def strchrHex (c : UInt8) : Option UInt8 := ((hex ++ [0]).idxOf? c).map .ofNat

/-- `wipeable_string::parse_hexstr`. -/
def parseHexstr : Bytes → Option Bytes
  | [] => some []
  | [_] => none
  | c₀ :: c₁ :: rest =>
    match strchrHex (atolower c₀), strchrHex (atolower c₁) with
    | some p₀, some p₁ => (parseHexstr rest).map (((p₀ <<< 4) ||| p₁) :: ·)
    | _, _ => none

theorem strchrHex_of_ne : ∀ c : UInt8, c ≠ 0 → strchrHex (atolower c) = hexDigit c :=
  forall_byte (by decide +kernel)

theorem strchrHex_eq_none (c : UInt8) :
    strchrHex (atolower c) = none ↔ hexDigit c = none ∧ c ≠ 0 := by
  by_cases hc : c = 0
  · subst hc
    decide
  · simp [strchrHex_of_ne c hc, hc]

theorem hex_of_hexDigit {c d : UInt8} (h : hexDigit c = some d) :
    d.toNat < 16 ∧ hex.getD d.toNat 0 = atolower c := by
  have hall : ∀ c, (hexDigit c).all fun d => d.toNat < 16 ∧ hex.getD d.toNat 0 = atolower c :=
    forall_byte (by decide +kernel)
  have hc := hall c
  rw [h] at hc
  exact of_decide_eq_true hc

theorem writeHex_digits : ∀ m n : Fin 16,
    writeHex [(UInt8.ofNat m <<< 4) ||| .ofNat n] = [hex.getD m 0, hex.getD n 0] := by
  decide +kernel

theorem parseHexstrToBinbuff_eq_none : ∀ s : Bytes,
    parseHexstrToBinbuff s = none ↔ s.length % 2 = 1 ∨ ∃ c ∈ s, hexDigit c = none
  | [] | [_] => by simp [parseHexstrToBinbuff]
  | hi :: lo :: rest => by
    have ih := parseHexstrToBinbuff_eq_none rest
    cases hh : hexDigit hi <;> cases hl : hexDigit lo <;>
      simp [parseHexstrToBinbuff, hh, hl, ih, Nat.add_assoc]

theorem parseHexstr_eq_none : ∀ s : Bytes,
    parseHexstr s = none ↔ s.length % 2 = 1 ∨ ∃ c ∈ s, hexDigit c = none ∧ c ≠ 0
  | [] | [_] => by simp [parseHexstr]
  | c0 :: c1 :: rest => by
    have ih := parseHexstr_eq_none rest
    simp only [← strchrHex_eq_none] at ih ⊢
    cases h0 : strchrHex (atolower c0) <;> cases h1 : strchrHex (atolower c1) <;>
      simp [parseHexstr, h0, h1, ih, Nat.add_assoc]

/-- Without a zero byte the two searches find the same digits. -/
theorem parseHexstr_eq : ∀ {s : Bytes}, 0 ∉ s → parseHexstr s = parseHexstrToBinbuff s
  | [], _ | [_], _ => rfl
  | hi :: lo :: rest, h => by
    simp only [List.mem_cons, not_or] at h
    cases hh : hexDigit hi <;> cases hl : hexDigit lo <;>
      simp only [parseHexstr, parseHexstrToBinbuff, strchrHex_of_ne hi (Ne.symm h.1),
        strchrHex_of_ne lo (Ne.symm h.2.1), parseHexstr_eq h.2.2, hh, hl]

/-- What is decoded has the input as its text, but for the case of the letters. -/
theorem writeHex_of_parse : ∀ {s l : Bytes}, parseHexstrToBinbuff s = some l →
    writeHex l = s.map atolower
  | [], l, h => by cases h; rfl
  | hi :: lo :: rest, l, h => by
    rw [parseHexstrToBinbuff] at h
    split at h
    · rename_i m n hm hn
      obtain ⟨l, hl, rfl⟩ := Option.map_eq_some_iff.mp h
      obtain ⟨hm16, hhi⟩ := hex_of_hexDigit hm
      obtain ⟨hn16, hlo⟩ := hex_of_hexDigit hn
      have hdigits := writeHex_digits ⟨m.toNat, hm16⟩ ⟨n.toNat, hn16⟩
      simp only [UInt8.ofNat_toNat, hhi, hlo] at hdigits
      calc writeHex ([(m <<< 4) ||| n] ++ l)
          = writeHex [(m <<< 4) ||| n] ++ writeHex l := List.flatMap_append
        _ = (hi :: lo :: rest).map atolower := by
          rw [hdigits, writeHex_of_parse hl]
          rfl
    · cases h

/-- **`parse_hexstr` decodes what `from_hex::to_string` decodes, to the bytes of that text, unless
the string has zero bytes and nothing else but digits.** A zero byte is found at the end of `hex`
and taken for a digit of value 16. -/
theorem parseHexstr_iff (s : Bytes) :
    (parseHexstr s = parseHexstrToBinbuff s ∧
      ∀ l, parseHexstr s = some l → writeHex l = s.map atolower) ↔
    s.length % 2 = 1 ∨ (∃ c ∈ s, hexDigit c = none ∧ c ≠ 0) ∨ 0 ∉ s := by
  constructor
  · rintro ⟨h, -⟩
    by_cases hzero : 0 ∈ s
    · have hnone := (parseHexstrToBinbuff_eq_none s).mpr (.inr ⟨0, hzero, by decide⟩)
      rw [← or_assoc, ← parseHexstr_eq_none]
      exact .inl (h.trans hnone)
    · exact .inr (.inr hzero)
  · intro h
    have heq : parseHexstr s = parseHexstrToBinbuff s := by
      rw [← or_assoc, ← parseHexstr_eq_none] at h
      obtain hnone | hzero := h
      · rw [hnone, eq_comm, parseHexstrToBinbuff_eq_none]
        exact ((parseHexstr_eq_none s).mp hnone).imp_right fun ⟨c, hc, hn⟩ => ⟨c, hc, hn.1⟩
      · exact parseHexstr_eq hzero
    exact ⟨heq, fun l hl => writeHex_of_parse (heq ▸ hl)⟩

/-- Two zero bytes are decoded by `parse_hexstr` only. -/
theorem parseHexstr_zero :
    parseHexstr [0, 0] = some [16] ∧ parseHexstrToBinbuff [0, 0] = none := by
  decide

/-! ## Separators -/

/-- `include`: neither a space of the C locale nor a colon. -/
def includes (c : UInt8) : Bool := !(c == 32 || 9 ≤ c && c ≤ 13) && c != 58

/-- `char_to_int`; the cases of its `switch` are the characters of `hex`. -/
def charToInt (c : UInt8) : Except String UInt8 :=
  match hex.idxOf? (atolower c) with
  | some n => .ok (.ofNat n)
  | none => .error "Invalid hexadecimal input"

/-- The loop of `to_vector`. After a last character without a second the zero that ends the string
is read. -/
def toVectorLoop : Bytes → Except String Bytes
  | [] => .ok []
  | [c] => if includes c then do
      let _ ← charToInt c
      let _ ← charToInt 0
      return []
    else .ok []
  | c :: d :: rest => if includes c then do
      let high ← charToInt c
      let low ← charToInt d
      return ((high <<< 4) ||| low) :: (← toVectorLoop rest)
    else toVectorLoop (d :: rest)

/-- `from_hex_locale::to_vector`. -/
def toVector (src : Bytes) : Except String Bytes :=
  if src.countP includes % 2 = 1 then .error "Invalid hexadecimal input length"
  else toVectorLoop src

/-- No separator stands after an odd number of other characters. -/
def betweenPairs : Bool → Bytes → Bool
  | _, [] => true
  | odd, c :: rest =>
    if includes c then betweenPairs (!odd) rest else !odd && betweenPairs odd rest

theorem charToInt_eq : ∀ c : UInt8, charToInt c = match hexDigit c with
    | some n => .ok n
    | none => .error "Invalid hexadecimal input" :=
  forall_byte (by decide +kernel)

theorem hexDigit_of_separator : ∀ c : UInt8, includes c = false → hexDigit c = none :=
  forall_byte (by decide +kernel)

theorem toVectorLoop_eq (s : Bytes) : (toVectorLoop s).toOption =
    if betweenPairs false s then parseHexstrToBinbuff (s.filter includes) else none := by
  induction s using toVectorLoop.induct with
  | case1 => rfl
  | case2 c hc =>
    rw [toVectorLoop, if_pos hc, charToInt_eq c, charToInt_eq 0, betweenPairs, if_pos hc,
      List.filter_cons_of_pos hc]
    cases hexDigit c <;> rfl
  | case3 c hc =>
    rw [toVectorLoop, if_neg hc, betweenPairs, if_neg hc, List.filter_cons_of_neg hc]
    rfl
  | case4 c d rest hc ih =>
    rw [toVectorLoop, if_pos hc, charToInt_eq c, charToInt_eq d, betweenPairs, if_pos hc,
      betweenPairs, List.filter_cons_of_pos hc]
    by_cases hd : includes d = true
    · rw [if_pos hd, List.filter_cons_of_pos hd, parseHexstrToBinbuff]
      cases hexDigit c with
      | none => exact (ite_self none).symm
      | some high =>
        cases hexDigit d with
        | none => exact (ite_self none).symm
        | some low =>
          have hmap := congrArg (Option.map (((high <<< 4) ||| low) :: ·)) ih
          rw [apply_ite (Option.map _)] at hmap
          refine Eq.trans ?_ hmap
          cases toVectorLoop rest <;> rfl
    · rw [if_neg hd, hexDigit_of_separator d (by simpa using hd)]
      cases hexDigit c <;> rfl
  | case5 c d rest hc ih =>
    rw [toVectorLoop, if_neg hc, ih, List.filter_cons_of_neg hc,
      show betweenPairs false (c :: d :: rest) = betweenPairs false (d :: rest) by
        simp [betweenPairs, hc]]

/-- **`to_vector` decodes a string as if its separators were not there, unless one of them stands
inside a pair of digits.** -/
theorem toVector_iff (s : Bytes) :
    ((toVector s).toOption = parseHexstrToBinbuff (s.filter includes) ∧
      ((toVector s).toOption = none ↔ (s.filter includes).length % 2 = 1 ∨
        ∃ c ∈ s.filter includes, hexDigit c = none)) ↔
    (s.filter includes).length % 2 = 1 ∨ (∃ c ∈ s.filter includes, hexDigit c = none) ∨
      betweenPairs false s = true := by
  rw [← or_assoc, ← parseHexstrToBinbuff_eq_none, toVector, List.countP_eq_length_filter]
  split
  · rename_i hodd
    have hnone := (parseHexstrToBinbuff_eq_none _).mpr (.inl hodd)
    simp [hnone, Except.toOption]
  · rw [toVectorLoop_eq]
    by_cases hb : betweenPairs false s = true
    · rw [if_pos hb]
      exact ⟨fun _ => .inr hb, fun _ => ⟨rfl, Iff.rfl⟩⟩
    · rw [if_neg hb]
      constructor
      · rintro ⟨h, -⟩
        exact .inl h.symm
      · intro h
        have hnone := h.resolve_right hb
        exact ⟨hnone.symm, fun _ => hnone, fun _ => rfl⟩

/-- A space inside a pair of digits is refused. -/
theorem toVector_space :
    toVector [97, 32, 98] = .error "Invalid hexadecimal input" ∧
      parseHexstrToBinbuff ([97, 32, 98].filter includes) = some [0xab] := by
  decide

end Hashmonkey.Epee
