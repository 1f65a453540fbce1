import Hashmonkey.Epee.StorageBinary

/-!
# What the binary writer wrote is read back (`portable_storage_from_bin.h`)

The reader adds checks to the format: how deep its calls nest, how many bytes an array's elements
take at least, how many objects, fields and strings there are, that no name comes twice. This
module says which trees pass them all after they were written.

* `Section.Storable` is what a tree has to be like for the writer: names and strings of the right
  lengths, in order, no arrays of arrays.
* `Section.calls` is the number of nested calls the reader makes for a section, at most five for
  every level of sections (`Section.calls_lt_of_depth`).
* `Section.Roomy` says that every array of strings has two bytes for each of its elements in what
  is written from there on, which the reader asks for although an empty string takes one byte.

Result: **`load_store`**, a storable tree that the reader needs fewer than 100 nested calls for and
that is roomy is loaded from what was stored; `load_store_fails` shows two that are not.
-/

namespace Hashmonkey.Epee

open Lib List StorageEntry

/-! ## Conditions on a tree -/

mutual

/-- A section as the writer and the reader's checks on single values want it: its names in order,
from one to 254 bytes long, and its entries storable. -/
def Section.Storable : Section → Prop
  | .nil => True
  | .cons name entry rest => (∀ n ∈ rest.names, name < n) ∧ 1 ≤ name.length ∧ name.length ≤ 254 ∧
      entry.Storable ∧ rest.Storable

/-- A storable entry. -/
def StorageEntry.Storable : StorageEntry → Prop
  | .pod _ _ => True
  | .string v => v.length < maxStringLen
  | .object s => s.Storable
  | .array a => a.Storable

/-- A storable array, which is none of arrays. -/
def ArrayEntry.Storable : ArrayEntry → Prop
  | .pods _ _ => True
  | .strings vs => ∀ v ∈ vs, v.length < maxStringLen
  | .objects vs => StorableObjects vs
  | .arrays _ => False

/-- Storable sections. -/
def StorableObjects : List Section → Prop
  | [] => True
  | s :: vs => s.Storable ∧ StorableObjects vs

end

mutual

/-- How many fields, sections, strings and array elements a section holds. -/
def Section.footprint : Section → ℕ
  | .nil => 0
  | .cons _ entry rest => 1 + entry.footprint + rest.footprint

/-- The parts of an entry. -/
def StorageEntry.footprint : StorageEntry → ℕ
  | .pod _ _ => 0
  | .string _ => 1
  | .object s => 1 + s.footprint
  | .array a => a.footprint

/-- The parts of an array. -/
def ArrayEntry.footprint : ArrayEntry → ℕ
  | .pods _ vs => vs.length
  | .strings vs => vs.length
  | .objects vs => footprintObjects vs
  | .arrays vs => footprintArrays vs

/-- The parts of an array's sections. -/
def footprintObjects : List Section → ℕ
  | [] => 0
  | s :: vs => 1 + s.footprint + footprintObjects vs

/-- The parts of an array's arrays. -/
def footprintArrays : List ArrayEntry → ℕ
  | [] => 0
  | a :: vs => 1 + a.footprint + footprintArrays vs

end

mutual

/-- The nested calls below `read(section&)`: four for its varint, or what an entry needs. -/
def Section.innerCalls : Section → ℕ
  | .nil => 4
  | .cons _ entry rest => max entry.calls rest.innerCalls

/-- The nested calls of `load_storage_entry`. -/
def StorageEntry.calls : StorageEntry → ℕ
  | .pod _ _ => 4
  | .string _ => 8
  | .object s => s.innerCalls + 3
  | .array a => a.calls + 1

/-- The nested calls of `load_storage_array_entry`. -/
def ArrayEntry.calls : ArrayEntry → ℕ
  | .pods _ _ => 6
  | .strings vs => if vs = [] then 6 else 8
  | .objects vs => callsObjects vs + 2
  | .arrays vs => callsArrays vs

/-- The nested calls below `read_ae<section>`. -/
def callsObjects : List Section → ℕ
  | [] => 4
  | s :: vs => max (s.innerCalls + 2) (callsObjects vs)

/-- Arrays of arrays are not read. -/
def callsArrays : List ArrayEntry → ℕ
  | [] => 6
  | a :: vs => max (a.calls + 3) (callsArrays vs)

end

/-- The nested calls of `read(section&)`. -/
def Section.calls (s : Section) : ℕ := s.innerCalls + 1

/-- The bytes of a varint. -/
def varintSize (n : ℕ) : ℕ :=
  if n ≤ 63 then 1 else if n ≤ 16383 then 2 else if n ≤ 1073741823 then 4 else 8

/-- The bytes of strings with their lengths. -/
def stringsSize : List Bytes → ℕ
  | [] => 0
  | v :: vs => varintSize v.length + v.length + stringsSize vs

mutual

/-- The bytes the fields of a section take. -/
def Section.fieldsSize : Section → ℕ
  | .nil => 0
  | .cons name entry rest => 1 + name.length + entry.size + rest.fieldsSize

/-- The bytes an entry takes. -/
def StorageEntry.size : StorageEntry → ℕ
  | .pod t _ => 1 + t.size
  | .string v => 1 + varintSize v.length + v.length
  | .object s => 1 + varintSize s.length + s.fieldsSize
  | .array a => a.size

/-- The bytes an array takes. -/
def ArrayEntry.size : ArrayEntry → ℕ
  | .pods t vs => 1 + varintSize vs.length + vs.length * t.size
  | .strings vs => 1 + varintSize vs.length + stringsSize vs
  | .objects vs => 1 + varintSize vs.length + sizeObjects vs
  | .arrays vs => 1 + varintSize vs.length + sizeArrays vs

/-- The bytes of an array's sections. -/
def sizeObjects : List Section → ℕ
  | [] => 0
  | s :: vs => varintSize s.length + s.fieldsSize + sizeObjects vs

/-- The bytes of an array's arrays. -/
def sizeArrays : List ArrayEntry → ℕ
  | [] => 0
  | a :: vs => a.size + sizeArrays vs

end

mutual

/-- Every array of strings in a section has two bytes for each of its elements, in the bytes of
its elements and of what is written behind them; `after` bytes follow the section. -/
def Section.Roomy (after : ℕ) : Section → Prop
  | .nil => True
  | .cons _ entry rest => entry.Roomy (rest.fieldsSize + after) ∧ rest.Roomy after

/-- A roomy entry. -/
def StorageEntry.Roomy (after : ℕ) : StorageEntry → Prop
  | .pod _ _ => True
  | .string _ => True
  | .object s => s.Roomy after
  | .array a => a.Roomy after

/-- A roomy array. -/
def ArrayEntry.Roomy (after : ℕ) : ArrayEntry → Prop
  | .pods _ _ => True
  | .strings vs => 2 * vs.length ≤ stringsSize vs + after
  | .objects vs => RoomyObjects after vs
  | .arrays vs => RoomyArrays after vs

/-- Roomy sections. -/
def RoomyObjects (after : ℕ) : List Section → Prop
  | [] => True
  | s :: vs => s.Roomy (sizeObjects vs + after) ∧ RoomyObjects after vs

/-- Roomy arrays. -/
def RoomyArrays (after : ℕ) : List ArrayEntry → Prop
  | [] => True
  | a :: vs => a.Roomy (sizeArrays vs + after) ∧ RoomyArrays after vs

end

/-! ## Sizes -/

variable {n : ℕ}

theorem packVarint_some (hn : n < 2 ^ 62) :
    ∃ bs, packVarint n = some bs ∧ bs.length = varintSize n := by
  unfold packVarint varintSize
  split_ifs <;> exact ⟨_, rfl, by simp⟩

theorem varintSize_pos (n : ℕ) : 1 ≤ varintSize n := by
  unfold varintSize
  split_ifs <;> decide

variable {body : Option Bytes} {bs : Bytes}

/-- A writer that writes so many bytes wrote as many. -/
theorem length_of_packed (h : ∃ bs, body = some bs ∧ bs.length = n) (hbs : body = some bs) :
    bs.length = n := by
  obtain ⟨bs', hbs', hlen⟩ := h
  obtain rfl := Option.some.inj (hbs'.symm.trans hbs)
  exact hlen

theorem packCounted_some (hn : n < 2 ^ 62) (hbody : body = some bs) :
    ∃ out, packCounted n body = some out ∧ out.length = varintSize n + bs.length := by
  obtain ⟨v, hv, hlen⟩ := packVarint_some hn
  exact ⟨v ++ bs, by simp [packCounted, hv, hbody], by simp [hlen]⟩

theorem withType_some {code : ℕ} (hbody : body = some bs) :
    withType code body = some (UInt8.ofNat code :: bs) := by
  rw [withType, hbody, Option.map_some]

theorem packTyped_some {code : ℕ} (hn : n < 2 ^ 62) (hbody : body = some bs) :
    ∃ out, withType code (packCounted n body) = some out ∧
      out.length = 1 + varintSize n + bs.length := by
  obtain ⟨out, hout, hlen⟩ := packCounted_some hn hbody
  refine ⟨_, withType_some hout, ?_⟩
  rw [length_cons, hlen]
  omega

theorem packStrings_some {vs : List Bytes} (hvs : ∀ v ∈ vs, v.length < maxStringLen) :
    ∃ bs, packStrings vs = some bs ∧ bs.length = stringsSize vs := by
  have hmax : maxStringLen < 2 ^ 62 := by decide
  induction vs with
  | nil => exact ⟨[], rfl, rfl⟩
  | cons v vs ih =>
    have hv := hvs v mem_cons_self
    obtain ⟨b, hb, hlen⟩ := packCounted_some (n := v.length) (by omega) (rfl : some v = some v)
    obtain ⟨bs, hbs, hlens⟩ := ih fun w hw => hvs w (mem_cons_of_mem v hw)
    exact ⟨b ++ bs, by simp [packStrings, putString, hb, hbs], by simp [stringsSize, hlen, hlens]⟩

theorem length_packPods (t : PodType) (vs : List t.Val) :
    (vs.flatMap (packPod t)).length = vs.length * t.size := by
  induction vs with
  | nil => simp
  | cons v vs ih =>
    rw [flatMap_cons, length_append, ih, length_cons, Nat.succ_mul, packPod,
      length_toLE, Nat.add_comm]

theorem Section.length_le_footprint (s : Section) : s.length ≤ s.footprint := by
  induction s with
  | nil => exact Nat.le_refl 0
  | cons name entry rest ih =>
    simp only [Section.length, Section.footprint]
    omega

theorem length_le_footprintObjects (vs : List Section) : vs.length ≤ footprintObjects vs := by
  induction vs with
  | nil => exact Nat.le_refl 0
  | cons s vs ih =>
    simp only [length_cons, footprintObjects]
    omega

variable {vs : List Section}

theorem packObjects_some (ih : ∀ v ∈ vs, v.Storable → v.footprint < 2 ^ 62 →
      ∃ bs, packFields v = some bs ∧ bs.length = v.fieldsSize)
    (hvs : StorableObjects vs) (hfit : footprintObjects vs < 2 ^ 62) :
    ∃ bs, packObjects vs = some bs ∧ bs.length = sizeObjects vs := by
  induction vs with
  | nil => exact ⟨[], rfl, rfl⟩
  | cons s vs ihvs =>
    simp only [footprintObjects] at hfit
    have hlen := s.length_le_footprint
    obtain ⟨fs, hfs, hfslen⟩ := ih s mem_cons_self hvs.1 (by omega)
    obtain ⟨b, hb, hblen⟩ := packCounted_some (n := s.length) (by omega) hfs
    obtain ⟨bs, hbs, hbslen⟩ := ihvs (fun v hv => ih v (mem_cons_of_mem s hv)) hvs.2 (by omega)
    exact ⟨b ++ bs, by simp [packObjects, hb, hbs], by simp [sizeObjects, hblen, hfslen, hbslen]⟩

/-- The writer writes every storable tree, in as many bytes as its size says. -/
theorem packs : TreeCases
    (fun s => s.Storable → s.footprint < 2 ^ 62 →
      ∃ bs, packFields s = some bs ∧ bs.length = s.fieldsSize)
    (fun e => e.Storable → e.footprint < 2 ^ 62 → ∃ bs, packEntry e = some bs ∧ bs.length = e.size)
    (fun a => a.Storable → a.footprint < 2 ^ 62 →
      ∃ bs, packArray a = some bs ∧ bs.length = a.size) where
  nil _ _ := ⟨[], rfl, rfl⟩
  cons name entry rest ihe ihs hs hfit := by
    obtain ⟨-, hpos, hle, he, hrest⟩ := hs
    simp only [Section.footprint] at hfit
    obtain ⟨e, hpack, helen⟩ := ihe he (by omega)
    obtain ⟨bs, hbs, hbslen⟩ := ihs hrest (by omega)
    have hne : name ≠ [] := ne_nil_of_length_pos hpos
    have hlt : name.length < 255 := by omega
    refine ⟨UInt8.ofNat name.length :: (name ++ (e ++ bs)),
      by simp [packFields, hlt, hne, hpack, hbs], ?_⟩
    simp only [length_cons, length_append, Section.fieldsSize, helen, hbslen]
    omega
  pod t v _ _ := ⟨_, withType_some rfl, by simp [packPod, size]; omega⟩
  string v hs _ := by
    have hmax : maxStringLen < 2 ^ 62 := by decide
    exact packTyped_some (lt_trans hs hmax) rfl
  object s ih hs hfit := by
    simp only [footprint] at hfit
    have hlen := s.length_le_footprint
    obtain ⟨fs, hfs, hfslen⟩ := ih hs (by omega)
    rw [size, ← hfslen]
    exact packTyped_some (by omega) hfs
  array a ih hs hfit := ih hs hfit
  pods t vs _ hfit := by
    rw [ArrayEntry.size, ← length_packPods]
    exact packTyped_some hfit rfl
  strings vs hs hfit := by
    obtain ⟨bs, hbs, hbslen⟩ := packStrings_some hs
    rw [ArrayEntry.size, ← hbslen]
    exact packTyped_some hfit hbs
  objects vs ih hs hfit := by
    have hcount := length_le_footprintObjects vs
    obtain ⟨bs, hbs, hbslen⟩ := packObjects_some ih hs hfit
    rw [ArrayEntry.size, ← hbslen]
    exact packTyped_some (hcount.trans_lt hfit) hbs
  arrays vs _ hs _ := hs.elim

/-! ## Reading what was written -/

/-- A read takes the state from one point to another. -/
def Yields {α : Type} (r : Read α) (s : ReadState) (v : α) (t : ReadState) : Prop :=
  r.run s = some (v, t)

section Yields

variable {α β : Type} {r : Read α} {f : α → Read β} {s t u : ReadState} {v : α} {w : β}

theorem Yields.bind (hr : Yields r s v t) (hf : Yields (f v) t w u) : Yields (r >>= f) s w u := by
  unfold Yields at *
  rw [StateT.run_bind, hr]
  exact hf

theorem yields_pure (v : α) (s : ReadState) : Yields (pure v) s v s := rfl

theorem yields_get (s : ReadState) : Yields get s s s := rfl

theorem yields_guard {p : Prop} [Decidable p] (hp : p) (s : ReadState) :
    Yields (guard p) s () s := by
  rw [guard, if_pos hp]
  rfl

end Yields

/-- A read of given bytes gives a value, whatever follows them, and counts nothing. -/
def Reads {α : Type} (r : Read α) (bs : Bytes) (v : α) : Prop :=
  ∀ (st : ReadState) (rest : Bytes),
    Yields r { st with bytes := bs ++ rest } v { st with bytes := rest }

variable {α β : Type} {r : Read α} {v : α}

theorem Reads.bind {f : α → Read β} {cs : Bytes} {w : β}
    (hr : Reads r bs v) (hf : Reads (f v) cs w) : Reads (r >>= f) (bs ++ cs) w := by
  intro st rest
  rw [append_assoc]
  exact (hr st (cs ++ rest)).bind (hf st rest)

theorem reads_pure (v : α) : Reads (pure v) [] v := fun _ _ => rfl

theorem Reads.map (hr : Reads r bs v) (g : α → β) : Reads (do let x ← r; return g x) bs (g v) := by
  have h := hr.bind (f := fun x => pure (g x)) (reads_pure (g v))
  rwa [append_nil] at h

theorem reads_takeBytes (bs : Bytes) : Reads (takeBytes bs.length) bs bs := by
  intro st rest
  have htake : (bs ++ rest).take bs.length = bs := take_left
  have hdrop : (bs ++ rest).drop bs.length = rest := drop_left
  refine (yields_get _).bind ((yields_guard (by simp) _).bind ?_)
  simp only [htake, hdrop]
  rfl

variable {k : ℕ}

theorem reads_raw (hk : 1 ≤ k) (bs : Bytes) : Reads (readRaw bs.length k) bs bs := by
  obtain ⟨k, rfl⟩ := Nat.exists_eq_add_of_le' hk
  exact reads_takeBytes bs

variable {t : PodType}

theorem reads_pod (hk : 2 ≤ k) (v : t.Val) : Reads (readPod t k) (packPod t v) v := by
  obtain ⟨k, rfl⟩ := Nat.exists_eq_add_of_le' hk
  have hraw := reads_raw (k := k + 1) (by omega) (packPod t v)
  have hlen : (packPod t v).length = t.size := length_toLE t.size v
  have hval : ofLE (packPod t v) = v := ofLE_toLE (v.isLt.trans_le t.bound_le)
  rw [hlen] at hraw
  intro st rest
  refine (hraw st rest).bind ?_
  simp only [hval, v.isLt, dif_pos]
  rfl

theorem reads_typed {r : ℕ → Read α} (hk : n + 1 ≤ k)
    (hr : ∀ m, n ≤ m → Reads (r m) bs v) : Reads (readTyped r k) bs v := by
  obtain ⟨k, rfl⟩ := Nat.exists_eq_add_of_le' (Nat.succ_pos n |>.trans_le hk)
  exact hr k (by omega)

variable {m : ℕ}

/-- A varint whose two lowest bits announce the type it was written in. -/
theorem reads_varint_of_type (hk : 4 ≤ k) (hm : m < 4)
    (htype : ∀ b : UInt8, b.toNat % 4 = m → varintType b = t) (hbound : n * 4 + m < t.bound) :
    Reads (readVarint k) (toLE t.size (n * 4 + m)) n := by
  obtain ⟨k, rfl⟩ := Nat.exists_eq_add_of_le' hk
  obtain ⟨w, hw⟩ := Nat.exists_eq_add_of_le' t.size_pos
  have hfirst : (UInt8.ofNat ((n * 4 + m) % 256)).toNat % 4 = m := by
    simp only [UInt8.toNat_ofNat']
    omega
  have hpod : Reads (readTyped (readPod t) (k + 3)) (toLE t.size (n * 4 + m))
      (⟨n * 4 + m, hbound⟩ : t.Val) :=
    reads_typed (n := 2) (by omega) fun j hj =>
      reads_pod hj (⟨n * 4 + m, hbound⟩ : t.Val)
  intro st rest
  refine (yields_get _).bind ?_
  have hcons : toLE t.size (n * 4 + m) ++ rest =
      UInt8.ofNat ((n * 4 + m) % 256) :: (toLE w ((n * 4 + m) / 256) ++ rest) := by
    rw [hw]
    rfl
  have hnext := hpod.map (fun v => v.val / 4) st rest
  have hdiv : (n * 4 + m) / 4 = n := by omega
  simp only [hdiv] at hnext
  simp only [hcons] at hnext ⊢
  rw [htype _ hfirst]
  exact hnext

theorem reads_varint (hk : 4 ≤ k) (hbs : packVarint n = some bs) : Reads (readVarint k) bs n := by
  unfold packVarint at hbs
  split_ifs at hbs with h1 h2 h3 h4 <;> cases hbs
  · exact reads_varint_of_type (t := .uint8) (m := 0) hk (by omega)
      (fun b hb => by simp [varintType, hb]) (by simp [PodType.bound, PodType.size]; omega)
  · exact reads_varint_of_type (t := .uint16) hk (by omega)
      (fun b hb => by simp [varintType, hb]) (by simp [PodType.bound, PodType.size]; omega)
  · exact reads_varint_of_type (t := .uint32) hk (by omega)
      (fun b hb => by simp [varintType, hb]) (by simp [PodType.bound, PodType.size]; omega)
  · exact reads_varint_of_type (t := .uint64) hk (by omega)
      (fun b hb => by simp [varintType, hb]) (by simp [PodType.bound, PodType.size]; omega)

theorem packCounted_inv {out : Bytes} (h : packCounted n body = some out) :
    ∃ v bs, packVarint n = some v ∧ body = some bs ∧ out = v ++ bs := by
  simp only [packCounted, Option.bind_eq_bind, Option.bind_eq_some_iff] at h
  obtain ⟨v, hv, bs, hbs, hout⟩ := h
  exact ⟨v, bs, hv, hbs, (Option.some.inj hout).symm⟩

/-- The type code in front of an entry, or the length in front of a name. -/
theorem reads_type {type : ℕ} (hk : 2 ≤ k) (htype : type < 256) :
    Reads (readPod .uint8 k) [UInt8.ofNat type] (⟨type, htype⟩ : PodType.uint8.Val) := by
  have hpod := reads_pod hk (⟨type, htype⟩ : PodType.uint8.Val)
  have hbyte : packPod .uint8 ⟨type, htype⟩ = [UInt8.ofNat type] := by
    change [UInt8.ofNat (type % 256)] = _
    rw [Nat.mod_eq_of_lt htype]
  rwa [hbyte] at hpod

variable {name : Bytes}

theorem reads_secName (hk : 3 ≤ k) (hpos : 1 ≤ name.length)
    (hle : name.length ≤ 254) : Reads (readSecName k) (UInt8.ofNat name.length :: name) name := by
  obtain ⟨k, rfl⟩ := Nat.exists_eq_add_of_le' hk
  have hlen := reads_type (k := k + 2) (by omega) (show name.length < 256 by omega)
  intro st rest
  have hne : name.length ≠ 0 := by omega
  refine (hlen st (name ++ rest)).bind ((yields_guard hne _).bind ?_)
  exact reads_raw (by omega) name st rest

theorem reads_string (hk : 5 ≤ k) {v : Bytes} (hv : v.length < maxStringLen)
    (hbs : putString v = some bs) : Reads (readString k) bs v := by
  obtain ⟨k, rfl⟩ := Nat.exists_eq_add_of_le' hk
  obtain ⟨n, w, hn, hw, rfl⟩ := packCounted_inv hbs
  cases hw
  intro st rest
  rw [append_assoc]
  refine (reads_varint (by omega) hn st (v ++ rest)).bind ((yields_guard hv _).bind ?_)
  exact reads_takeBytes v st rest

/-! ### Arrays of values and of strings -/

theorem reads_pods (hk : 3 ≤ k) (vs : List t.Val) :
    Reads (readMany (readTyped (readPod t) k) vs.length) (vs.flatMap (packPod t)) vs := by
  induction vs with
  | nil => exact reads_pure []
  | cons v vs ih =>
    have hv : Reads (readTyped (readPod t) k) (packPod t v) v :=
      reads_typed (n := 2) hk fun j hj => reads_pod hj v
    exact hv.bind (ih.map (v :: ·))

theorem reads_strings (hk : 6 ≤ k) {vs : List Bytes}
    (hvs : ∀ v ∈ vs, v.length < maxStringLen) (hbs : packStrings vs = some bs) :
    Reads (readMany (readTyped readString k) vs.length) bs vs := by
  induction vs generalizing bs with
  | nil =>
    cases hbs
    exact reads_pure []
  | cons v vs ih =>
    simp only [packStrings, Option.bind_eq_bind, Option.bind_eq_some_iff] at hbs
    obtain ⟨b, hb, cs, hcs, hout⟩ := hbs
    cases hout
    have hv : Reads (readTyped readString k) b v :=
      reads_typed (n := 5) hk fun j hj => reads_string hj (hvs v mem_cons_self) hb
    exact hv.bind ((ih (fun w hw => hvs w (mem_cons_of_mem v hw)) hcs).map (v :: ·))

/-! ### Counts -/

/-- There is room for `n` more objects, fields and strings under the limits. -/
structure Within (l : Limits) (st : ReadState) (n : ℕ) : Prop where
  objects : st.objects + n ≤ l.nObjects
  fields : st.fields + n ≤ l.nFields
  strings : st.strings + n ≤ l.nStrings

variable {l : Limits}

theorem Within.mono {st : ReadState} (hw : Within l st n) (hm : m ≤ n) : Within l st m := by
  obtain ⟨ho, hf, hs⟩ := hw
  constructor <;> omega

/-- With room for `n` and for `m` more, a read of given bytes before a rest gives a value and leaves
the room for `m`. -/
def Delivers {α : Type} (l : Limits) (r : Read α) (bs rest : Bytes) (v : α) (n : ℕ) : Prop :=
  ∀ (st : ReadState) (m : ℕ), Within l st (n + m) →
    ∃ st', Yields r { st with bytes := bs ++ rest } v { st' with bytes := rest } ∧ Within l st' m

variable {rest : Bytes}

theorem Reads.delivers (h : Reads r bs v) : Delivers l r bs rest v 0 :=
  fun st _ hw => ⟨st, h st rest, hw.mono (by omega)⟩

theorem Delivers.mono (h : Delivers l r bs rest v n) (hm : n ≤ m) : Delivers l r bs rest v m :=
  fun st _ hw => h st _ (hw.mono (by omega))

theorem Delivers.map (h : Delivers l r bs rest v n) (g : α → β) :
    Delivers l (do let x ← r; return g x) bs rest (g v) n := by
  intro st m hw
  obtain ⟨st', hy, hw'⟩ := h st m hw
  exact ⟨st', hy.bind rfl, hw'⟩

theorem Delivers.bind {f : α → Read β} {cs : Bytes} {w : β}
    (hr : Delivers l r bs (cs ++ rest) v n) (hf : Delivers l (f v) cs rest w m) :
    Delivers l (r >>= f) (bs ++ cs) rest w (n + m) := by
  intro st j hw
  rw [Nat.add_assoc] at hw
  obtain ⟨st1, hr, hw1⟩ := hr st _ hw
  obtain ⟨st2, hf, hw2⟩ := hf st1 j hw1
  rw [append_assoc]
  exact ⟨st2, hr.bind hf, hw2⟩

theorem Delivers.tallied {tally : Read Unit} (ht : Delivers l tally [] (bs ++ rest) () m)
    (hr : Delivers l r bs rest v n) : Delivers l (do tally; r) bs rest v (m + n) :=
  ht.bind (f := fun _ => r) hr

/-- A read without counts before one with counts. -/
theorem Delivers.after {f : α → Read β} {cs : Bytes} {w : β} (hf : Delivers l (f v) cs rest w n)
    (hr : Reads r bs v) : Delivers l (r >>= f) (bs ++ cs) rest w n :=
  (hr.delivers.bind hf).mono (by omega)

theorem delivers_countObjects (n : ℕ) : Delivers l (countObjects l n) [] rest () n := by
  rintro st m ⟨ho, hf, hs⟩
  have hroom : n ≤ l.nObjects - st.objects := by omega
  exact ⟨{ st with objects := st.objects + n },
    (yields_get _).bind ((yields_guard hroom _).bind rfl), by constructor <;> simp only <;> omega⟩

theorem delivers_countFields (n : ℕ) : Delivers l (countFields l n) [] rest () n := by
  rintro st m ⟨ho, hf, hs⟩
  have hroom : n ≤ l.nFields - st.fields := by omega
  exact ⟨{ st with fields := st.fields + n },
    (yields_get _).bind ((yields_guard hroom _).bind rfl), by constructor <;> simp only <;> omega⟩

theorem delivers_countStrings (n : ℕ) : Delivers l (countStrings l n) [] rest () n := by
  rintro st m ⟨ho, hf, hs⟩
  have hroom : n ≤ l.nStrings - st.strings := by omega
  exact ⟨{ st with strings := st.strings + n },
    (yields_get _).bind ((yields_guard hroom _).bind rfl), by constructor <;> simp only <;> omega⟩

/-! ### The tree -/

/-- The fields of a section are read behind those that came before. -/
def FieldsRead (s : Section) : Prop :=
  ∀ {l : Limits} {k : ℕ} {bs rest : Bytes} {acc : Section},
    packFields s = some bs → s.Storable → s.footprint < 2 ^ 62 →
    (∀ n ∈ acc.names, ∀ m ∈ s.names, n < m) → s.innerCalls ≤ k → s.Roomy rest.length →
    Delivers l (readFields (readSecName k) (loadStorageEntry l k) s.length acc) bs rest
      (acc.append s) (s.footprint - s.length)

/-- An entry is read. -/
def EntryReads (e : StorageEntry) : Prop :=
  ∀ {l : Limits} {k : ℕ} {bs rest : Bytes}, packEntry e = some bs → e.Storable →
    e.footprint < 2 ^ 62 → e.calls ≤ k → e.Roomy rest.length →
    Delivers l (loadStorageEntry l k) bs rest e e.footprint

/-- An array is read behind its type code. -/
def ArrayReads (a : ArrayEntry) : Prop :=
  ∀ {l : Limits} {k : ℕ} {bs rest : Bytes}, packArray a = some bs → a.Storable →
    a.footprint < 2 ^ 62 → a.calls ≤ k → a.Roomy rest.length →
    ∃ type body, bs = UInt8.ofNat type :: body ∧ flagArray ≤ type ∧ type < 256 ∧
      Delivers l (loadStorageArrayEntry l k type) body rest (.array a) a.footprint

theorem ofCode_code (t : PodType) : PodType.ofCode t.code = some t := by cases t <;> rfl

theorem code_lt (t : PodType) : t.code < flagArray := by cases t <;> decide

/-- `read_ae` with a size that is possible and elements that are there. -/
theorem delivers_elements {minBytes count : ℕ} {tally : ℕ → Read Unit}
    {v body : Bytes} {vs : List α} (hk : 4 ≤ k)
    (hv : packVarint count = some v) (hpos : 0 < minBytes)
    (hroom : count * minBytes ≤ body.length + rest.length)
    (htally : Delivers l (tally count) [] (body ++ rest) () count)
    (hmany : Delivers l (readMany r count) body rest vs n) :
    Delivers l (readElements minBytes tally k r) (v ++ body) rest vs (count + n) := by
  refine Delivers.after ?_ (reads_varint hk hv)
  intro st m hw
  obtain ⟨st', hread, hw'⟩ := htally.tallied hmany st m hw
  refine ⟨st', (yields_get _).bind ((yields_guard ?_ _).bind hread), hw'⟩
  rw [Nat.le_div_iff_mul_le hpos, length_append]
  exact hroom

theorem Section.four_le_innerCalls (s : Section) : 4 ≤ s.innerCalls := by
  induction s with
  | nil => exact Nat.le_refl 4
  | cons name entry rest ih => exact ih.trans (le_max_right _ _)

theorem packFields_cons_inv {entry : StorageEntry} {rest : Section}
    (h : packFields (.cons name entry rest) = some bs) :
    ∃ e fs, packEntry entry = some e ∧ packFields rest = some fs ∧
      bs = UInt8.ofNat name.length :: name ++ (e ++ fs) := by
  simp only [packFields, Option.bind_eq_bind, Option.bind_eq_some_iff] at h
  obtain ⟨-, -, -, -, e, he, fs, hfs, hout⟩ := h
  exact ⟨e, fs, he, hfs, (Option.some.inj hout).symm⟩

theorem fieldsRead_nil : FieldsRead .nil := by
  intro l k bs rest acc hpack _ _ _ _ _
  cases hpack
  rw [Section.append_nil]
  exact (reads_pure acc).delivers

theorem fieldsRead_cons {entry : StorageEntry} {rest : Section}
    (ihe : EntryReads entry) (ihs : FieldsRead rest) : FieldsRead (.cons name entry rest) := by
  intro l k bs tail acc hpack hs hfit hacc hcalls hroomy
  obtain ⟨e, fs, he, hfs, rfl⟩ := packFields_cons_inv hpack
  obtain ⟨hord, hpos, hle, hse, hsr⟩ := hs
  obtain ⟨hre, hrr⟩ := hroomy
  have hlen := rest.length_le_footprint
  have hlow := rest.four_le_innerCalls
  simp only [Section.footprint, Section.length, Section.innerCalls, max_le_iff] at *
  -- what the rest of the fields takes stands behind the entry
  have hfslen : (fs ++ tail).length = rest.fieldsSize + tail.length := by
    rw [length_append, length_of_packed (packs.all rest hsr (by omega)) hfs]
  have hentry := ihe (l := l) he hse (by omega) hcalls.1 (hfslen ▸ hre)
  have hlast : ∀ n ∈ acc.names, n < name := fun n hn => hacc n hn name mem_cons_self
  have hacc' : ∀ n ∈ (acc.append (.cons name entry .nil)).names, ∀ m ∈ rest.names, n < m := by
    intro n hn m hm
    rw [Section.names_append, mem_append] at hn
    rcases hn with hn | hn
    · exact hacc n hn m (mem_cons_of_mem name hm)
    rw [mem_singleton.mp hn]
    exact hord m hm
  have hfields := ihs (l := l) hfs hsr (by omega) hacc' hcalls.2 hrr
  refine Delivers.after ?_ (reads_secName (by omega) hpos hle)
  intro st m hw
  rw [Section.append_assoc, ← Section.set_last hlast] at hfields
  obtain ⟨st', hread, hw'⟩ := hentry.bind (f := fun e => readFields _ _ _ (acc.set name e)) hfields
    st m (hw.mono (by omega))
  refine ⟨st', (yields_guard ?_ _).bind hread, hw'⟩
  rw [Section.find_of_last hlast]
  rfl

variable {s : Section}

/-- A section is read from its count and its fields. -/
theorem section_reads (ih : FieldsRead s) (hpack : packCounted s.length (packFields s) = some bs)
    (hs : s.Storable) (hfit : s.footprint < 2 ^ 62) (hcalls : s.innerCalls + 1 ≤ k)
    (hroomy : s.Roomy rest.length) : Delivers l (readSection l k) bs rest s s.footprint := by
  obtain ⟨k, rfl⟩ := Nat.exists_eq_add_of_le' (Nat.succ_pos _ |>.trans_le hcalls)
  obtain ⟨v, fs, hv, hfs, rfl⟩ := packCounted_inv hpack
  have hlen := s.length_le_footprint
  have hlow := s.four_le_innerCalls
  have hfields := @ih l k fs rest .nil hfs hs hfit nofun (by omega) hroomy
  refine Delivers.after ?_ (reads_varint (by omega) hv)
  exact ((delivers_countFields s.length).tallied hfields).mono (by omega)

theorem withType_inv {code : ℕ} {out : Bytes} (h : withType code body = some out) :
    ∃ bs, body = some bs ∧ out = [UInt8.ofNat code] ++ bs := by
  obtain ⟨bs, hbs, hout⟩ := Option.map_eq_some_iff.mp h
  exact ⟨bs, hbs, hout.symm⟩

theorem entryReads_pod (t : PodType) (v : t.Val) : EntryReads (.pod t v) := by
  intro l k bs rest hpack _ _ hcalls _
  obtain ⟨k, rfl⟩ := Nat.exists_eq_add_of_le' hcalls
  obtain ⟨body, hbody, rfl⟩ := withType_inv hpack
  cases hbody
  have hcode : t.code < 128 := code_lt t
  refine Delivers.after ?_ (reads_type (k := k + 3) (by omega) (show t.code < 256 by omega))
  rw [if_neg (not_le.mpr (code_lt t))]
  simp only [ofCode_code]
  have hpod : Reads (readTyped (readPod t) (k + 3)) (packPod t v) v :=
    reads_typed (n := 2) (by omega) fun j hj => reads_pod hj v
  exact hpod.delivers.map (pod t)

theorem entryReads_string (v : Bytes) : EntryReads (.string v) := by
  intro l k bs rest hpack hs _ hcalls _
  obtain ⟨k, rfl⟩ := Nat.exists_eq_add_of_le' hcalls
  obtain ⟨body, hbody, rfl⟩ := withType_inv hpack
  refine Delivers.after ?_ (reads_type (k := k + 7) (by omega) (show typeString < 256 by decide))
  have hstring : Reads (readTyped readString (k + 6)) body v :=
    reads_typed (n := 5) (by omega) fun j hj => reads_string hj hs hbody
  refine Delivers.map (r := readSeString l (k + 7)) ?_ string
  exact (delivers_countStrings 1).tallied hstring.delivers

theorem entryReads_object (ih : FieldsRead s) : EntryReads (.object s) := by
  intro l k bs rest hpack hs hfit hcalls hroomy
  simp only [footprint, calls] at hfit hcalls
  obtain ⟨k, rfl⟩ := Nat.exists_eq_add_of_le' (show 2 ≤ k by omega)
  obtain ⟨body, hbody, rfl⟩ := withType_inv hpack
  refine Delivers.after ?_ (reads_type (k := k + 1) (by omega) (show typeObject < 256 by decide))
  have hsection := section_reads (l := l) ih (k := k) hbody hs (by omega) (by omega) hroomy
  exact (delivers_countObjects 1).tallied (hsection.map object)

theorem ArrayEntry.two_le_calls {a : ArrayEntry} (hs : a.Storable) : 2 ≤ a.calls := by
  cases a with
  | pods t vs => exact (by decide : 2 ≤ 6)
  | strings vs =>
    simp only [ArrayEntry.calls]
    split_ifs <;> decide
  | objects vs => exact Nat.le_add_left 2 _
  | arrays vs => exact hs.elim

theorem entryReads_array {a : ArrayEntry} (ih : ArrayReads a) : EntryReads (.array a) := by
  intro l k bs rest hpack hs hfit hcalls hroomy
  simp only [footprint, calls] at hfit hcalls
  obtain ⟨k, rfl⟩ := Nat.exists_eq_add_of_le' (show 1 ≤ k by omega)
  obtain ⟨type, body, rfl, hflag, htype, harray⟩ := ih (k := k) (l := l) hpack hs hfit (by omega)
    hroomy
  have htwo := ArrayEntry.two_le_calls hs
  have hread := reads_type (k := k) (by omega) htype
  refine Delivers.after ?_ hread
  rw [if_pos (show flagArray ≤ type from hflag)]
  exact harray

theorem arrayReads_pods (t : PodType) (vs : List t.Val) : ArrayReads (.pods t vs) := by
  intro l k bs rest hpack _ hfit hcalls _
  obtain ⟨k, rfl⟩ := Nat.exists_eq_add_of_le' hcalls
  obtain ⟨body, hbody, rfl⟩ := withType_inv hpack
  obtain ⟨v, elems, hv, helems, rfl⟩ := packCounted_inv hbody
  cases helems
  have hcode : t.code < 128 := code_lt t
  have hmod : (t.code + flagArray) % flagArray = t.code := by
    rw [Nat.add_mod_right]
    exact Nat.mod_eq_of_lt hcode
  refine ⟨t.code + flagArray, _, rfl, Nat.le_add_left _ _, by simp only [flagArray]; omega, ?_⟩
  have hmany := reads_pods (k := k + 4) (by omega) vs
  have helements : Delivers l (readElements t.size (fun _ => pure ()) (k + 4)
      (readTyped (readPod t) (k + 4))) (v ++ vs.flatMap (packPod t)) rest vs vs.length :=
    delivers_elements (by omega) hv t.size_pos (by rw [length_packPods]; omega)
      ((reads_pure ()).delivers.mono (by omega)) hmany.delivers
  change Delivers l (loadStorageArrayEntry l (k + 5 + 1) _) _ _ _ _
  simp only [loadStorageArrayEntry, hmod, ofCode_code]
  exact helements.map fun vs => array (.pods t vs)

theorem arrayReads_strings (vs : List Bytes) : ArrayReads (.strings vs) := by
  intro l k bs rest hpack hs hfit hcalls hroomy
  obtain ⟨body, hbody, rfl⟩ := withType_inv hpack
  obtain ⟨v, elems, hv, helems, rfl⟩ := packCounted_inv hbody
  have hsize := length_of_packed (packStrings_some hs) helems
  simp only [ArrayEntry.calls, ArrayEntry.Roomy] at hcalls hroomy
  have hsix : 6 ≤ k := by split_ifs at hcalls <;> omega
  obtain ⟨k, rfl⟩ := Nat.exists_eq_add_of_le' hsix
  refine ⟨typeString + flagArray, _, rfl, by decide, by decide, ?_⟩
  have hmany : Reads (readMany (readTyped readString (k + 4)) vs.length) elems vs := by
    by_cases hnil : vs = []
    · subst hnil
      cases helems
      exact reads_pure []
    · rw [if_neg hnil] at hcalls
      exact reads_strings (by omega) hs helems
  have helements : Delivers l (readElements 2 (countStrings l) (k + 4)
      (readTyped readString (k + 4))) (v ++ elems) rest vs vs.length :=
    delivers_elements (by omega) hv (by decide) (by omega) (delivers_countStrings _) hmany.delivers
  exact helements.map fun vs => array (.strings vs)

/-- The sections of an array are read one after another. -/
theorem objects_read (ih : ∀ v ∈ vs, FieldsRead v) (hpack : packObjects vs = some bs)
    (hs : StorableObjects vs) (hfit : footprintObjects vs < 2 ^ 62) (hcalls : callsObjects vs ≤ k)
    (hroomy : RoomyObjects rest.length vs) :
    Delivers l (readMany (readTypedSection l k) vs.length) bs rest vs
      (footprintObjects vs - vs.length) := by
  induction vs generalizing bs with
  | nil =>
    cases hpack
    exact (reads_pure []).delivers
  | cons s vs ihvs =>
    simp only [packObjects, Option.bind_eq_bind, Option.bind_eq_some_iff] at hpack
    obtain ⟨b, hb, cs, hcs, hout⟩ := hpack
    cases hout
    have hlen := length_le_footprintObjects vs
    simp only [footprintObjects, length_cons, callsObjects, max_le_iff] at *
    obtain ⟨k, rfl⟩ := Nat.exists_eq_add_of_le' (show 1 ≤ k by omega)
    have hcslen : (cs ++ rest).length = sizeObjects vs + rest.length := by
      rw [length_append,
        length_of_packed (packObjects_some (fun v _ => packs.all v) hs.2 (by omega)) hcs]
    have hsection := section_reads (l := l) (k := k) (ih s mem_cons_self) hb hs.1
      (by omega) (by omega) (hcslen ▸ hroomy.1)
    have hmany := ihvs (fun v hv => ih v (mem_cons_of_mem s hv)) hcs hs.2 (by omega) hcalls.2
      hroomy.2
    exact (hsection.bind (hmany.map (s :: ·))).mono (by omega)

theorem four_le_callsObjects (vs : List Section) : 4 ≤ callsObjects vs := by
  induction vs with
  | nil => exact Nat.le_refl 4
  | cons s vs ih => exact ih.trans (le_max_right _ _)

theorem length_le_sizeObjects (vs : List Section) : vs.length ≤ sizeObjects vs := by
  induction vs with
  | nil => exact Nat.le_refl 0
  | cons s vs ih =>
    have hvar := varintSize_pos s.length
    simp only [length_cons, sizeObjects]
    omega

theorem arrayReads_objects (ih : ∀ v ∈ vs, FieldsRead v) : ArrayReads (.objects vs) := by
  intro l k bs rest hpack hs hfit hcalls hroomy
  obtain ⟨body, hbody, rfl⟩ := withType_inv hpack
  obtain ⟨v, elems, hv, helems, rfl⟩ := packCounted_inv hbody
  simp only [ArrayEntry.calls, ArrayEntry.footprint] at hcalls hfit
  have hlow := four_le_callsObjects vs
  have hlen := length_le_footprintObjects vs
  have hsize := length_of_packed (packObjects_some (fun v _ => packs.all v) hs hfit) helems
  have hcount := length_le_sizeObjects vs
  obtain ⟨k, rfl⟩ := Nat.exists_eq_add_of_le' (show 2 ≤ k by omega)
  refine ⟨typeObject + flagArray, _, rfl, by decide, by decide, ?_⟩
  have hmany := objects_read (l := l) ih (k := k) helems hs hfit (by omega) hroomy
  have helements : Delivers l (readElements 1 (countObjects l) k _) _ rest vs _ :=
    delivers_elements (by omega) hv (by decide) (by omega) (delivers_countObjects _) hmany
  rw [Nat.add_sub_cancel' hlen] at helements
  exact helements.map fun vs => array (.objects vs)

/-- Every part of a tree is read from what was written for it. -/
theorem tree_reads : TreeCases FieldsRead EntryReads ArrayReads where
  nil := fieldsRead_nil
  cons _ _ _ := fieldsRead_cons
  pod := entryReads_pod
  string := entryReads_string
  object _ := entryReads_object
  array _ := entryReads_array
  pods := arrayReads_pods
  strings := arrayReads_strings
  objects _ := arrayReads_objects
  arrays _ _ := fun _ hs => hs.elim

/-- **A stored tree is loaded again**, if it is storable and fits in memory, the reader needs fewer
than 100 nested calls for it, and its arrays of strings have two bytes for each element. -/
theorem load_store {s : Section} (hs : s.Storable) (hfit : s.footprint < 2 ^ 62)
    (hcalls : s.calls < recursionLimit) (hroomy : s.Roomy 0) :
    ∃ bytes, storeToBinary s = some bytes ∧ loadFromBinary .unlimited bytes = some s := by
  have hlen := s.length_le_footprint
  obtain ⟨fs, hfs, -⟩ := packs.all s hs hfit
  obtain ⟨body, hbody, hblen⟩ := packCounted_some (n := s.length) (by omega) hfs
  have hwithin : Within .unlimited ⟨body, 0, 0, 0⟩ (s.footprint + 0) := by
    constructor <;> simp only [Limits.unlimited] <;> omega
  obtain ⟨st, hread, -⟩ := section_reads (k := recursionLimit - 1) (tree_reads.all s) hbody hs hfit
    (Nat.le_sub_one_of_lt hcalls) (show s.Roomy ([] : Bytes).length from hroomy) ⟨body, 0, 0, 0⟩ 0
    hwithin
  have hne : body ≠ [] := by
    have hvar := varintSize_pos s.length
    exact ne_nil_of_length_pos (by omega)
  refine ⟨storageHeader ++ body, by simp [storeToBinary, packSection, hbody], ?_⟩
  have hrun : (readSection .unlimited (recursionLimit - 1)).run ⟨body, 0, 0, 0⟩ =
      some (s, { st with bytes := [] }) := by
    rw [← hread, append_nil]
  simp [loadFromBinary, hne, hrun]

/-- A section with a number, a string, a section and an array of strings. -/
def sampleTree : Section :=
  .cons [97] (.pod .uint16 (500 : Fin (256 ^ 2)))
    (.cons [98] (.string [1, 2, 3])
      (.cons [99] (.object (.cons [97] (.pod .bool (Fin.last 1)) .nil))
        (.cons [100] (.array (.strings [[7], [8, 9]])) .nil)))

theorem load_store_sample : ∃ bytes, storeToBinary sampleTree = some bytes ∧
    loadFromBinary .unlimited bytes = some sampleTree :=
  load_store (by simp [sampleTree, Section.Storable, StorageEntry.Storable, ArrayEntry.Storable,
      Section.names, maxStringLen]; decide)
    (by decide) (by decide)
    (by simp [sampleTree, Section.Roomy, StorageEntry.Roomy, ArrayEntry.Roomy, stringsSize,
      varintSize, Section.fieldsSize])

/-- Arrays of one section in each other. -/
def nestedArrays : ℕ → Section
  | 0 => .nil
  | n + 1 => .cons [97] (.array (.objects [nestedArrays n])) .nil

theorem storable_nestedArrays (n : ℕ) : (nestedArrays n).Storable := by
  induction n with
  | zero => trivial
  | succ n ih =>
    simp [nestedArrays, Section.Storable, StorageEntry.Storable, ArrayEntry.Storable,
      StorableObjects, Section.names, ih]

/-- Two trees that are stored and not loaded again: one of depth 19, which takes 100 nested calls,
and one that ends with an array of one empty string. -/
theorem load_store_fails :
    ((nestedArrays 19).Storable ∧ (nestedArrays 19).depth ≤ 20 ∧
      ∃ bytes, storeToBinary (nestedArrays 19) = some bytes ∧
        loadFromBinary .unlimited bytes = none) ∧
    (Section.Storable (.cons [97] (.array (.strings [[]])) .nil) ∧
      Section.depth (.cons [97] (.array (.strings [[]])) .nil) ≤ 20 ∧
      ∃ bytes, storeToBinary (.cons [97] (.array (.strings [[]])) .nil) = some bytes ∧
        loadFromBinary .unlimited bytes = none) := by
  have hnone {s : Section} (h : ((storeToBinary s).map fun bytes =>
      (loadFromBinary .unlimited bytes).isNone) = some true) :
      ∃ bytes, storeToBinary s = some bytes ∧ loadFromBinary .unlimited bytes = none := by
    obtain ⟨bytes, hbytes, hload⟩ := Option.map_eq_some_iff.mp h
    exact ⟨bytes, hbytes, Option.isNone_iff_eq_none.mp hload⟩
  refine ⟨⟨storable_nestedArrays 19, by decide +kernel, hnone (by decide +kernel)⟩, ?_, by decide,
    hnone (by decide)⟩
  simp [Section.Storable, StorageEntry.Storable, ArrayEntry.Storable, Section.names, maxStringLen]

/-! ## Calls and depth -/

theorem callsObjects_le (ih : ∀ v ∈ vs, v.Storable → v.innerCalls ≤ 5 * v.depth + 9)
    (hs : StorableObjects vs) : callsObjects vs ≤ 5 * depthObjects vs + 6 := by
  induction vs with
  | nil => exact (by decide : 4 ≤ 6)
  | cons s vs ihvs =>
    have hhead := ih s mem_cons_self hs.1
    have htail := ihvs (fun v hv => ih v (mem_cons_of_mem s hv)) hs.2
    simp only [callsObjects, depthObjects]
    omega

theorem calls_le_depth : TreeCases
    (fun s => s.Storable → s.innerCalls ≤ 5 * s.depth + 9)
    (fun e => e.Storable → e.calls ≤ 5 * e.depth + 9)
    (fun a => a.Storable → a.calls ≤ 5 * a.depth + 8) where
  nil _ := (by decide : 4 ≤ 9)
  cons name entry rest ihe ihs hs := by
    obtain ⟨-, -, -, he, hrest⟩ := hs
    have h1 := ihe he
    have h2 := ihs hrest
    simp only [Section.innerCalls, Section.depth]
    omega
  pod _ _ _ := (by decide : 4 ≤ 9)
  string _ _ := (by decide : 8 ≤ 9)
  object s ih hs := by
    have := ih hs
    simp only [calls, depth]
    omega
  array a ih hs := by
    have := ih hs
    simp only [calls, depth]
    omega
  pods _ _ _ := (by decide : 6 ≤ 8)
  strings vs _ := by
    simp only [ArrayEntry.calls]
    split_ifs <;> omega
  objects vs ih hs := by
    have := callsObjects_le ih hs
    simp only [ArrayEntry.calls, ArrayEntry.depth]
    omega
  arrays _ _ hs := hs.elim

/-- **Sections down to depth 17 stay under the recursion limit**, however they are nested. -/
theorem Section.calls_lt_of_depth (hs : s.Storable) (hdepth : s.depth ≤ 17) :
    s.calls < recursionLimit := by
  have h := calls_le_depth.all s hs
  have hlimit : recursionLimit = 100 := rfl
  rw [Section.calls, hlimit]
  omega

end Hashmonkey.Epee
