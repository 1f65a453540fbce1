import Hashmonkey.Crypto.Hash

/-!
# Canonical UTF-8 (`src/common/utf8.h`)

A model of `utf8canonical`, which is applied to the words of a seed and to messages. The loop takes
a lead byte with the bytes that it announces, of which only the low six bits are read, maps the
value with the function it is given, and writes the result in its shortest form.

* `codePoint`, `encode`: the value of some bytes and the bytes of a value;
* `Reads` says what values a text stands for in this way, `WellFormed` that it is made of shortest
  forms of values up to `0x10ffff` (those of surrogates among them).

Result: `utf8canonical_spec`, for the default function, which changes no value. A text is returned
unchanged exactly if it is well formed. Overlong forms and wrong continuation bytes are not refused,
but rewritten (`utf8canonical_rewrites`).
-/

namespace Hashmonkey.Common.Utf8

open List

/-- The number of bytes behind a lead byte. -/
def following (b : UInt8) : Option ℕ :=
  if b &&& 0x80 = 0 then some 0
  else if b &&& 0xe0 = 0xc0 then some 1
  else if b &&& 0xf0 = 0xe0 then some 2
  else if b &&& 0xf8 = 0xf0 then some 3
  else none

/-- The bits of a lead byte that belong to the value. -/
def leadMask : ℕ → UInt8
  | 0 => 0xff
  | 1 => 0x1f
  | 2 => 0xf
  | _ => 0x7

/-- The value of a lead byte and the bytes behind it. -/
def codePoint (b : UInt8) (cs : Bytes) : ℕ :=
  cs.foldl (fun cp c => cp <<< 6 ||| (c &&& 0x3f).toNat) (b &&& leadMask cs.length).toNat

/-- The bytes that are written for a value. -/
def encode (cp : ℕ) : Bytes :=
  if cp ≤ 0x7f then [.ofNat cp]
  else if cp ≤ 0x7ff then [.ofNat (0xc0 ||| cp >>> 6), .ofNat (0x80 ||| cp &&& 0x3f)]
  else if cp ≤ 0xffff then
    [.ofNat (0xe0 ||| cp >>> 12), .ofNat (0x80 ||| cp >>> 6 &&& 0x3f),
      .ofNat (0x80 ||| cp &&& 0x3f)]
  else
    [.ofNat (0xf0 ||| cp >>> 18), .ofNat (0x80 ||| cp >>> 12 &&& 0x3f),
      .ofNat (0x80 ||| cp >>> 6 &&& 0x3f), .ofNat (0x80 ||| cp &&& 0x3f)]

/-- `utf8canonical`. -/
def utf8canonical (t : ℕ → ℕ) : Bytes → Except String Bytes
  | [] => .ok []
  | b :: s =>
    match following b with
    | none => .error "Invalid UTF-8"
    | some k =>
      if s.length < k then .error "Invalid UTF-8"
      else if 0x10ffff < t (codePoint b (s.take k)) then
        .error "Invalid code point UTF-8 transformation"
      else (utf8canonical t (s.drop k)).map (encode (t (codePoint b (s.take k))) ++ ·)
termination_by s => s.length
decreasing_by exact Nat.lt_succ_of_le (s.drop_sublist k).length_le

/-- The values that a text is read as. -/
inductive Reads : Bytes → List ℕ → Prop
  | nil : Reads [] []
  | cons {b : UInt8} {cs s : Bytes} {cps : List ℕ} (hb : following b = some cs.length)
      (hs : Reads s cps) : Reads (b :: (cs ++ s)) (codePoint b cs :: cps)

/-- Shortest forms of values up to `0x10ffff`. -/
def WellFormed (s : Bytes) : Prop :=
  ∃ cps : List ℕ, (∀ c ∈ cps, c ≤ 0x10ffff) ∧ s = cps.flatMap encode

variable {t : ℕ → ℕ} {s s' : Bytes} {cps : List ℕ}

/-- What is accepted, and what becomes of it. -/
theorem utf8canonical_ok_iff : utf8canonical t s = .ok s' ↔ ∃ cps, Reads s cps ∧
    (∀ c ∈ cps, t c ≤ 0x10ffff) ∧ s' = cps.flatMap fun c => encode (t c) := by
  constructor
  · intro h
    induction s using utf8canonical.induct t generalizing s' with
    | case1 =>
      rw [utf8canonical] at h
      cases h
      exact ⟨[], .nil, nofun, rfl⟩
    | case2 b s hb => simp [utf8canonical, hb] at h
    | case3 b s k hb hk => simp [utf8canonical, hb, hk] at h
    | case4 b s k hb hk hcp => simp [utf8canonical, hb, hk, hcp] at h
    | case5 b s k hb hk hcp ih =>
      rw [utf8canonical] at h
      simp only [hb, if_neg hk, if_neg hcp] at h
      cases hrest : utf8canonical t (s.drop k) with
      | error e => simp [hrest, Except.map] at h
      | ok out =>
        obtain ⟨cps, hs, hcps, rfl⟩ := ih hrest
        rw [hrest] at h
        cases h
        have hlen : (s.take k).length = k := length_take_of_le (Nat.not_lt.mp hk)
        have hcons := Reads.cons (hb.trans (congrArg some hlen.symm)) hs
        rw [take_append_drop] at hcons
        exact ⟨_, hcons, forall_mem_cons.mpr ⟨Nat.not_lt.mp hcp, hcps⟩, rfl⟩
  · rintro ⟨cps, hs, ht, rfl⟩
    induction hs with
    | nil => rw [utf8canonical]; rfl
    | cons hb _ ih =>
      obtain ⟨hc, hcps⟩ := forall_mem_cons.mp ht
      simp [utf8canonical, hb, Nat.not_lt.mpr hc, ih hcps, Except.map]

/-! ## Shortest forms -/

/-- The number of bytes that follow, the mark of the lead byte and the number of values of its other
bits. -/
def leads : List (ℕ × ℕ × ℕ) := [(0, 0, 128), (1, 0xc0, 32), (2, 0xe0, 16), (3, 0xf0, 8)]

theorem lead_spec : ∀ x ∈ leads, ∀ v < x.2.2, following (.ofNat (x.2.1 ||| v)) = some x.1 ∧
    (.ofNat (x.2.1 ||| v) &&& leadMask x.1 : UInt8).toNat = v := by
  decide +kernel

theorem tail_spec : ∀ v < 64, (.ofNat (0x80 ||| v) &&& 0x3f : UInt8).toNat = v := by
  decide

/-- The lead byte and six bits at a time are the digits of a value. -/
theorem reads_digits {k m n v cp : ℕ} {l : List ℕ} (hx : (k, m, n) ∈ leads) (hv : v < n)
    (hlen : l.length = k) (hcp : l.foldl (fun cp d => 64 * cp + d % 64) v = cp)
    (hs : Reads s cps) :
    Reads (.ofNat (m ||| v) :: l.map (fun d => .ofNat (0x80 ||| d % 64)) ++ s) (cp :: cps) := by
  obtain ⟨hb, hbits⟩ := lead_spec _ hx v hv
  have hpoint : codePoint (.ofNat (m ||| v)) (l.map fun d => .ofNat (0x80 ||| d % 64)) = cp := by
    rw [codePoint, length_map, hlen, hbits, foldl_map, ← hcp]
    congr 1
    funext a d
    have hd : d % 64 < 64 := Nat.mod_lt d (by decide)
    rw [tail_spec _ hd, ← Nat.shiftLeft_add_eq_or_of_lt hd, Nat.shiftLeft_eq, Nat.mul_comm]
  exact hpoint ▸ .cons (by rw [hb, length_map, hlen]) hs

/-- What is written for a value is read as it. -/
theorem reads_encode {cp : ℕ} (h : cp ≤ 0x10ffff) (hs : Reads s cps) :
    Reads (encode cp ++ s) (cp :: cps) := by
  have hmod : ∀ v : ℕ, v &&& 0x3f = v % 64 := fun v => Nat.and_two_pow_sub_one_eq_mod v 6
  unfold encode
  simp only [Nat.shiftRight_eq_div_pow, hmod]
  split_ifs
  · simpa using reads_digits (k := 0) (m := 0) (n := 128) (v := cp) (l := []) (by simp [leads])
      (by omega) rfl rfl hs
  · exact reads_digits (k := 1) (n := 32) (l := [cp]) (by simp [leads]) (by omega) rfl
      (by simp only [foldl]; omega) hs
  · exact reads_digits (k := 2) (n := 16) (l := [cp / 2 ^ 6, cp]) (by simp [leads]) (by omega) rfl
      (by simp only [foldl]; omega) hs
  · exact reads_digits (k := 3) (n := 8) (l := [cp / 2 ^ 12, cp / 2 ^ 6, cp]) (by simp [leads])
      (by omega) rfl (by simp only [foldl]; omega) hs

theorem utf8canonical_eq_self_iff : utf8canonical id s = .ok s ↔ WellFormed s := by
  rw [utf8canonical_ok_iff]
  constructor
  · rintro ⟨cps, -, hcps, hs⟩
    exact ⟨cps, hcps, hs⟩
  · rintro ⟨cps, hcps, hs⟩
    refine ⟨cps, ?_, hcps, hs⟩
    rw [hs]
    clear hs
    induction cps with
    | nil => exact .nil
    | cons c cps ih =>
      obtain ⟨hc, hcps⟩ := forall_mem_cons.mp hcps
      exact reads_encode hc (ih hcps)

/-- **What is returned**: the text itself exactly if it is well formed, and otherwise the shortest
forms of the values that it is read as, if they are at most `0x10ffff`. -/
theorem utf8canonical_spec (s : Bytes) :
    (utf8canonical id s = .ok s ↔ WellFormed s) ∧
      ∀ s', utf8canonical id s = .ok s' ↔
        ∃ cps, Reads s cps ∧ (∀ c ∈ cps, c ≤ 0x10ffff) ∧ s' = cps.flatMap encode :=
  ⟨utf8canonical_eq_self_iff, fun _ => utf8canonical_ok_iff⟩

/-- A parenthesis in the place of a continuation byte is rewritten. -/
theorem utf8canonical_rewrites :
    ¬ WellFormed [0xc3, 0x28] ∧ utf8canonical id [0xc3, 0x28] = .ok [0xc3, 0xa8] := by
  have h : utf8canonical id [0xc3, 0x28] = .ok [0xc3, 0xa8] :=
    utf8canonical_ok_iff.mpr ⟨[0xe8], @Reads.cons 0xc3 [0x28] [] [] rfl .nil, by simp, rfl⟩
  rw [← utf8canonical_eq_self_iff, h]
  decide

end Hashmonkey.Common.Utf8
