import Hashmonkey.Crypto.Hash
import Hashmonkey.Lib.LittleEndian

/-!
# The portable storage tree (`portable_storage_base.h`)

A model of the data of `portable_storage`: a section is a map from names to entries, an entry a
number, a string, a section or an array, and an array a vector of one of these types.

* `PodType` lists the ten plain types with their sizes and type codes; a value is the number its
  bytes spell, below `PodType.bound` (two for a `bool`). A `double` is its eight bytes.
* `Section` is the list of a `std::map`'s pairs. The map keeps them ordered by name, which is
  `Section.Ordered`; `Section.set` and `Section.find` are its operations, and `Section.set_last`
  says what it does when the pairs come in order.
-/

namespace Hashmonkey.Epee

/-! ## Plain types -/

/-- The plain types of an entry. -/
inductive PodType
  | int64
  | int32
  | int16
  | int8
  | uint64
  | uint32
  | uint16
  | uint8
  | double
  | bool
deriving DecidableEq, Repr

namespace PodType

/-- `sizeof`. -/
def size : PodType → ℕ
  | int64 | uint64 | double => 8
  | int32 | uint32 => 4
  | int16 | uint16 => 2
  | int8 | uint8 | bool => 1

/-- `SERIALIZE_TYPE_*`. -/
def code : PodType → ℕ
  | int64 => 1
  | int32 => 2
  | int16 => 3
  | int8 => 4
  | uint64 => 5
  | uint32 => 6
  | uint16 => 7
  | uint8 => 8
  | double => 9
  | bool => 11

/-- The values of a type are the numbers below this one. -/
def bound : PodType → ℕ
  | bool => 2
  | t => 256 ^ t.size

/-- A value, as the number its bytes spell. -/
abbrev Val (t : PodType) := Fin t.bound

theorem size_pos (t : PodType) : 0 < t.size := by cases t <;> decide

theorem bound_le (t : PodType) : t.bound ≤ 256 ^ t.size := by cases t <;> decide

end PodType

/-- `SERIALIZE_TYPE_STRING`. -/
def typeString : ℕ := 10

/-- `SERIALIZE_TYPE_OBJECT`. -/
def typeObject : ℕ := 12

/-- `SERIALIZE_TYPE_ARRAY`. -/
def typeArray : ℕ := 13

/-- `SERIALIZE_FLAG_ARRAY`. -/
def flagArray : ℕ := 0x80

/-! ## The tree -/

mutual

/-- `storage_entry`. -/
inductive StorageEntry
  | pod (t : PodType) (v : t.Val)
  | string (v : Bytes)
  | object (s : Section)
  | array (a : ArrayEntry)

/-- `array_entry`. -/
inductive ArrayEntry
  | pods (t : PodType) (vs : List t.Val)
  | strings (vs : List Bytes)
  | objects (vs : List Section)
  | arrays (vs : List ArrayEntry)

/-- `section`: the pairs of its map. -/
inductive Section
  | nil
  | cons (name : Bytes) (entry : StorageEntry) (rest : Section)

end

/-- Induction along the pairs of a section. -/
@[elab_as_elim, induction_eliminator]
theorem Section.induct {motive : Section → Prop} (nil : motive .nil)
    (cons : ∀ name entry rest, motive rest → motive (.cons name entry rest)) :
    ∀ s, motive s
  | .nil => nil
  | .cons name entry rest => cons name entry rest (Section.induct nil cons rest)

section Tree

/-- What a property of sections has to be shown for, with one of entries and one of arrays at its
side. -/
structure TreeCases (P : Section → Prop) (Q : StorageEntry → Prop) (R : ArrayEntry → Prop) :
    Prop where
  nil : P .nil
  cons : ∀ name entry rest, Q entry → P rest → P (.cons name entry rest)
  pod : ∀ t v, Q (.pod t v)
  string : ∀ v, Q (.string v)
  object : ∀ s, P s → Q (.object s)
  array : ∀ a, R a → Q (.array a)
  pods : ∀ t vs, R (.pods t vs)
  strings : ∀ vs, R (.strings vs)
  objects : ∀ vs, (∀ v ∈ vs, P v) → R (.objects vs)
  arrays : ∀ vs, (∀ v ∈ vs, R v) → R (.arrays vs)

variable {P : Section → Prop} {Q : StorageEntry → Prop} {R : ArrayEntry → Prop}

mutual

/-- Induction over the whole tree. -/
theorem TreeCases.all (h : TreeCases P Q R) : ∀ s, P s
  | .nil => h.nil
  | .cons name entry rest => h.cons name entry rest (h.allEntry entry) (h.all rest)

theorem TreeCases.allEntry (h : TreeCases P Q R) : ∀ e, Q e
  | .pod t v => h.pod t v
  | .string v => h.string v
  | .object s => h.object s (h.all s)
  | .array a => h.array a (h.allArray a)

theorem TreeCases.allArray (h : TreeCases P Q R) : ∀ a, R a
  | .pods t vs => h.pods t vs
  | .strings vs => h.strings vs
  | .objects vs => h.objects vs (h.allObjects vs)
  | .arrays vs => h.arrays vs (h.allArrays vs)

theorem TreeCases.allObjects (h : TreeCases P Q R) :
    ∀ vs : List Section, ∀ v ∈ vs, P v
  | [] => nofun
  | s :: vs => List.forall_mem_cons.mpr ⟨h.all s, h.allObjects vs⟩

theorem TreeCases.allArrays (h : TreeCases P Q R) :
    ∀ vs : List ArrayEntry, ∀ v ∈ vs, R v
  | [] => nofun
  | a :: vs => List.forall_mem_cons.mpr ⟨h.allArray a, h.allArrays vs⟩

end

end Tree

namespace Section

/-- The names of a section's entries. -/
def names : Section → List Bytes
  | nil => []
  | cons name _ rest => name :: rest.names

/-- `m_entries.size()`. -/
def length : Section → ℕ
  | nil => 0
  | cons _ _ rest => rest.length + 1

/-- `m_entries.find(name)`. -/
def find (name : Bytes) : Section → Option StorageEntry
  | nil => none
  | cons n e rest => if n = name then some e else rest.find name

/-- The entry of a name, new or replaced, at its place in the order. -/
def set (name : Bytes) (entry : StorageEntry) : Section → Section
  | nil => cons name entry nil
  | cons n e rest =>
    if name < n then cons name entry (cons n e rest)
    else if n = name then cons n entry rest
    else cons n e (rest.set name entry)

/-- One section behind another. -/
def append : Section → Section → Section
  | nil, t => t
  | cons n e rest, t => cons n e (rest.append t)

@[simp] theorem append_nil (s : Section) : s.append nil = s := by
  induction s with
  | nil => rfl
  | cons n e rest ih => rw [append, ih]

theorem append_assoc (s t u : Section) : (s.append t).append u = s.append (t.append u) := by
  induction s with
  | nil => rfl
  | cons n e rest ih => rw [append, append, append, ih]

@[simp] theorem names_append (s t : Section) : (s.append t).names = s.names ++ t.names := by
  induction s with
  | nil => rfl
  | cons n e rest ih => simp [append, names, ih]

variable {s : Section} {name : Bytes}

theorem ne_of_lt {a b : Bytes} (h : a < b) : a ≠ b := by
  rintro rfl
  exact List.lt_irrefl a h

/-- A name behind all those of a section is looked up in what follows it. -/
theorem find_append (hlast : ∀ n ∈ s.names, n < name) (t : Section) :
    (s.append t).find name = t.find name := by
  induction s with
  | nil => rfl
  | cons n e rest ih =>
    have hn : n < name := hlast n List.mem_cons_self
    rw [append, find, if_neg (ne_of_lt hn), ih fun m hm => hlast m (List.mem_cons_of_mem n hm)]

/-- It is set there, too. -/
theorem set_append (hlast : ∀ n ∈ s.names, n < name) (t : Section) (entry : StorageEntry) :
    (s.append t).set name entry = s.append (t.set name entry) := by
  induction s with
  | nil => rfl
  | cons n e rest ih =>
    have hn : n < name := hlast n List.mem_cons_self
    rw [append, append, set, if_neg (List.lt_asymm hn), if_neg (ne_of_lt hn),
      ih fun m hm => hlast m (List.mem_cons_of_mem n hm)]

/-- A name behind all others goes to the end. -/
theorem set_last (hlast : ∀ n ∈ s.names, n < name) (entry : StorageEntry) :
    s.set name entry = s.append (cons name entry nil) := by
  have hset := set_append hlast nil entry
  rwa [append_nil] at hset

theorem find_of_last (hlast : ∀ n ∈ s.names, n < name) : s.find name = none := by
  have hfind := find_append hlast nil
  rwa [append_nil] at hfind

end Section

/-! ## Depth -/

mutual

/-- How deep sections are nested below a section. -/
def Section.depth : Section → ℕ
  | .nil => 0
  | .cons _ entry rest => max entry.depth rest.depth

/-- How deep sections are nested in an entry. -/
def StorageEntry.depth : StorageEntry → ℕ
  | .pod _ _ => 0
  | .string _ => 0
  | .object s => s.depth + 1
  | .array a => a.depth

/-- How deep sections are nested in an array. -/
def ArrayEntry.depth : ArrayEntry → ℕ
  | .pods _ _ => 0
  | .strings _ => 0
  | .objects vs => depthObjects vs
  | .arrays vs => depthArrays vs

/-- The depth of an array's sections. -/
def depthObjects : List Section → ℕ
  | [] => 0
  | s :: vs => max (s.depth + 1) (depthObjects vs)

/-- The depth of an array's arrays. -/
def depthArrays : List ArrayEntry → ℕ
  | [] => 0
  | a :: vs => max a.depth (depthArrays vs)

end

end Hashmonkey.Epee
