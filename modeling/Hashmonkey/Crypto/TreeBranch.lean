import Hashmonkey.Crypto.TreeHash

/-!
# Branches of the transaction tree (`src/crypto/tree-hash.c`)

`tree_path`, `tree_branch`, `tree_branch_hash` and `is_branch_in_tree`. The loops of `tree_branch`
are those of `tree_hash` with `record` in front of each hash; the loops of `tree_path` are `turn`
alone. `record` writes `branch[*depth]`, so the branch is the list of the entries written so far.

* `climbed`: one level records exactly one step when the index lies in the merged part of the level,
  and nothing otherwise (`record_climbed`);
* `treeOpening`: the opening of a leaf in the unbalanced tree. Climbing it from the leaf ends at the
  root (`recompute_treeOpening`), and it is what `tree_branch` returns (`treeBranch_eq`).

Result: **`tree_branch_correct`**. The branch found for a member of a list of up to `2 ^ 28` hashes
recomputes the root, with the path that `tree_path` gives, and `is_branch_in_tree` accepts it. The
path is a word of 32 bits.
-/

namespace Hashmonkey.Crypto

open Lib PairTree List

/-! ## The functions -/

/-- `(*path << 1) | bit`. -/
def pushBit (path : UInt32) (bit : Bool) : UInt32 := (path <<< 1) ||| (if bit then 1 else 0)

/-- The loop variables of `tree_path`. -/
structure PathState where
  idx : Nat
  path : UInt32

/-- The body of `tree_path`'s loops. -/
def turn (i j : Nat) (s : PathState) : PathState :=
  if s.idx = i ∨ s.idx = i + 1 then
    { idx := j, path := pushBit s.path (if s.idx = i then false else true) }
  else s

/-- `n` iterations of the loop from `(off, off)`. -/
def pathLoop (off : Nat) : Nat → PathState → PathState
  | 0, s => s
  | n + 1, s => turn (off + 2 * n) (off + n) (pathLoop off n s)

/-- `while (cnt > 2)` of `tree_path`. -/
def pathReduceLoop : Nat → Nat → PathState → PathState
  | 0, _, s => s
  | fuel + 1, cnt, s =>
    if 2 < cnt then pathReduceLoop fuel (cnt / 2) (pathLoop 0 (cnt / 2) s) else s

/-- `tree_path`: `none` is `return false`. -/
def treePath (count idx : Nat) : Option UInt32 :=
  if count = 0 then none
  else if count = 1 then some 0
  else if count = 2 then some (if idx = 0 then 0 else 1)
  else
    let cnt := treeHashCnt count
    let off := 2 * cnt - count
    some (turn 0 0 (pathReduceLoop cnt cnt (pathLoop off (cnt - off) ⟨idx, 0⟩))).path

/-- The loop variables and results of `tree_branch`. -/
structure BranchState where
  idx : Nat
  branch : List Hash
  depth : Nat
  path : UInt32

/-- The bookkeeping in the body of `tree_branch`'s loops, over the row being merged. -/
def record (row : List Hash) (i j : Nat) (b : BranchState) : BranchState :=
  if b.idx = i ∨ b.idx = i + 1 then
    { idx := j
      branch := b.branch ++ [row.getD (if b.idx = i then i + 1 else i) nullHash]
      depth := b.depth + 1
      path := pushBit b.path (if b.idx = i then false else true) }
  else b

section TreeBranch

variable (cnFastHash : Bytes → Hash)

/-- The first loop of `tree_branch`. -/
def branchFirstLoop (hashes : List Hash) (off : Nat) :
    Nat → BranchState × TreeBuf → BranchState × TreeBuf
  | 0, s => s
  | n + 1, s =>
    let s := branchFirstLoop hashes off n s
    (record hashes (off + 2 * n) (off + n) s.1,
      hashInto cnFastHash hashes (off + 2 * n) (off + n) s.2)

/-- The inner loop of `tree_branch`'s `while (cnt > 2)`. -/
def branchLevelLoop : Nat → BranchState × TreeBuf → BranchState × TreeBuf
  | 0, s => s
  | n + 1, s =>
    let s := branchLevelLoop n s
    (record s.2.ints (2 * n) n s.1, hashInto cnFastHash s.2.ints (2 * n) n s.2)

/-- `while (cnt > 2)` of `tree_branch`. -/
def branchReduceLoop : Nat → Nat → BranchState × TreeBuf → BranchState × TreeBuf
  | 0, _, s => s
  | fuel + 1, cnt, s =>
    if 2 < cnt then branchReduceLoop fuel (cnt / 2) (branchLevelLoop cnFastHash (cnt / 2) s) else s

/-- `tree_branch`: the branch, its depth and its path, or `none` for `return false`. The index is
that of the first entry equal to `hash`. -/
def treeBranch (hashes : List Hash) (hash : Hash) : Option (List Hash × Nat × UInt32) :=
  let count := hashes.length
  let idx := hashes.idxOf hash
  if count = 0 then none
  else if idx = count then none
  else if count = 1 then some ([], 0, 0)
  else if count = 2 then
    some ([hashes.getD (idx ^^^ 1) nullHash], 1, if idx = 0 then 0 else 1)
  else
    let cnt := treeHashCnt count
    let off := 2 * cnt - count
    let s := branchReduceLoop cnFastHash cnt cnt
      (branchFirstLoop cnFastHash hashes off (cnt - off) (⟨idx, [], 0, 0⟩, initBuf hashes cnt))
    let b := record s.2.ints 0 0 s.1
    some (b.branch, b.depth, b.path)

/-- `n` iterations of `tree_branch_hash`. -/
def branchHashLoop (branch : List Hash) (depth : Nat) (path : UInt32) : Nat → Hash → Hash
  | 0, part => part
  | d + 1, part =>
    let part := branchHashLoop branch depth path d part
    if (path >>> UInt32.ofNat (depth - d - 1)) &&& 1 ≠ 0 then
      cnFastHash ((branch.getD d nullHash).1 ++ part.1)
    else cnFastHash (part.1 ++ (branch.getD d nullHash).1)

/-- `tree_branch_hash` (it always returns `true`). -/
def treeBranchHash (hash : Hash) (branch : List Hash) (depth : Nat) (path : UInt32) : Hash :=
  branchHashLoop cnFastHash branch depth path depth hash

/-- `is_branch_in_tree`. -/
def isBranchInTree (hash root : Hash) (branch : List Hash) (depth : Nat) (path : UInt32) : Bool :=
  treeBranchHash cnFastHash hash branch depth path == root

/-! ## One level of the branch -/

theorem branchFirstLoop_snd (hashes : List Hash) (off : Nat) (s : BranchState × TreeBuf) : ∀ n,
    (branchFirstLoop cnFastHash hashes off n s).2 = firstLoop cnFastHash hashes off n s.2
  | 0 => rfl
  | n + 1 => by rw [branchFirstLoop, firstLoop, ← branchFirstLoop_snd hashes off s n]

theorem branchLevelLoop_snd (s : BranchState × TreeBuf) : ∀ n,
    (branchLevelLoop cnFastHash n s).2 = levelLoop cnFastHash n s.2
  | 0 => rfl
  | n + 1 => by rw [branchLevelLoop, levelLoop, ← branchLevelLoop_snd s n]

/-- Recorded steps: path bits and siblings. -/
def BranchState.push (b : BranchState) (idx : Nat) (o : List (Bool × Hash)) : BranchState :=
  { idx := idx
    branch := b.branch ++ o.map Prod.snd
    depth := b.depth + o.length
    path := (o.map Prod.fst).foldl pushBit b.path }

theorem push_push (b : BranchState) (i j : Nat) (o o' : List (Bool × Hash)) :
    (b.push i o).push j o' = b.push j (o ++ o') := by
  simp only [BranchState.push, map_append, foldl_append, length_append, append_assoc,
    Nat.add_assoc]

theorem sib_lt {i n : Nat} (h : i < 2 * n) : sib i < 2 * n := by
  unfold sib
  split <;> omega

theorem getD_take_of_lt {row : List Hash} {i n : Nat} (h : i < n) :
    (row.take n).getD i nullHash = row.getD i nullHash := by
  rw [getD_eq_getElem?_getD, getElem?_take_of_lt h, ← getD_eq_getElem?_getD]

/-- The index, and the step that is recorded, one level above an index behind `off` entries. -/
def climb (row : List Hash) (off : Nat) (b : BranchState) : BranchState :=
  b.push (off + (b.idx - off) / 2)
    [(decide ((b.idx - off) % 2 = 1), row.getD (off + sib (b.idx - off)) nullHash)]

/-- `n` merges behind `off` entries record one step for an index that they merge, and nothing for
any other. -/
def climbed (row : List Hash) (off n : Nat) (b : BranchState) : BranchState :=
  if off ≤ b.idx ∧ b.idx < off + 2 * n then climb row off b else b

/-- One more merge, over a row that is still the same from there on. -/
theorem record_climbed {row row' : List Hash} (b : BranchState) {off n : Nat}
    (hrow : ∀ i, off + n ≤ i → row'.getD i nullHash = row.getD i nullHash) :
    record row' (off + 2 * n) (off + n) (climbed row off n b) = climbed row off (n + 1) b := by
  unfold climbed
  by_cases hdone : off ≤ b.idx ∧ b.idx < off + 2 * n
  · -- already recorded: the new index is too small to be passed again
    have hidx : (climb row off b).idx = off + (b.idx - off) / 2 := rfl
    rw [if_pos hdone, if_pos (by omega), record, if_neg (by omega)]
  rw [if_neg hdone, record]
  have hnext : b.idx = off + 2 * n ∨ b.idx = off + 2 * n + 1 ↔
      off ≤ b.idx ∧ b.idx < off + 2 * (n + 1) := by omega
  by_cases hhit : b.idx = off + 2 * n ∨ b.idx = off + 2 * n + 1
  · rw [if_pos hhit, if_pos (hnext.mp hhit), climb, BranchState.push, hrow _ (by split <;> omega)]
    rcases hhit with h | h
    · simp [h, sib, Nat.add_assoc]
    · have hmod : (2 * n + 1) % 2 = 1 := by omega
      have hdiv : (2 * n + 1) / 2 = n := by omega
      simp [h, sib, Nat.add_assoc, hmod, hdiv]
  · rw [if_neg hhit, if_neg (hnext.not.mp hhit)]

theorem branchLevelLoop_spec (b : BranchState) (t : TreeBuf) : ∀ n, 2 * n ≤ t.ints.length →
    (branchLevelLoop cnFastHash n (b, t)).1 = climbed t.ints 0 n b
  | 0, _ => by simp [branchLevelLoop, climbed]
  | n + 1, hn => by
    have hstep := @record_climbed t.ints (merged cnFastHash t t.ints 0 n).ints b 0 n fun i hi =>
      merged_getD cnFastHash (by omega) (by omega)
    rw [branchLevelLoop, branchLevelLoop_spec b t n (by omega), branchLevelLoop_snd,
      levelLoop_spec cnFastHash (t := t) (by omega), ← hstep, Nat.zero_add, Nat.zero_add]

theorem branchFirstLoop_spec (hashes : List Hash) (off : Nat) (b : BranchState) (t : TreeBuf) :
    ∀ n, (branchFirstLoop cnFastHash hashes off n (b, t)).1 = climbed hashes off n b
  | 0 => by
    rw [branchFirstLoop, climbed, if_neg (by omega)]
  | n + 1 => by
    rw [branchFirstLoop, branchFirstLoop_spec hashes off b t n, record_climbed b fun _ _ => rfl]

/-- Without entries in front, an index that is merged climbs one level. -/
theorem climbed_zero {row : List Hash} {b : BranchState} {n : Nat} (h : b.idx < 2 * n) :
    climbed row 0 n b =
      b.push (b.idx / 2) [(decide (b.idx % 2 = 1), row.getD (sib b.idx) nullHash)] := by
  rw [climbed, if_pos (by omega), climb, Nat.zero_add, Nat.sub_zero, Nat.zero_add]

/-! ## All levels -/

theorem branchReduceLoop_snd : ∀ (fuel cnt : Nat) (s : BranchState × TreeBuf),
    (branchReduceLoop cnFastHash fuel cnt s).2 = reduceLoop cnFastHash fuel cnt s.2
  | 0, _, _ => rfl
  | fuel + 1, cnt, s => by
    rw [branchReduceLoop, reduceLoop]
    split
    · rw [branchReduceLoop_snd fuel, branchLevelLoop_snd]
    · rfl

/-- The balanced levels record the opening of the index in the first row. -/
theorem branchReduceLoop_spec : ∀ (k fuel : Nat) (b : BranchState) (t : TreeBuf), k ≤ fuel →
    2 ^ (k + 1) ≤ t.ints.length → b.idx < 2 ^ (k + 1) →
    (branchReduceLoop cnFastHash fuel (2 ^ (k + 1)) (b, t)).1 = b.push (b.idx / 2 ^ k)
      (opening (merge cnFastHash) nullHash k (t.ints.take (2 ^ (k + 1))) b.idx)
  | 0, fuel, b, t, _, _, _ => by
    have hstop : branchReduceLoop cnFastHash fuel (2 ^ (0 + 1)) (b, t) = (b, t) := by
      cases fuel <;> simp [branchReduceLoop]
    rw [hstop]
    simp [BranchState.push, opening]
  | k + 1, fuel + 1, b, t, hf, hlen, hidx => by
    obtain ⟨hpow, hgt, hhalf⟩ := two_pow_halved k
    obtain ⟨hlen', htake⟩ := levelLoop_take cnFastHash (t := t) (n := 2 ^ (k + 1)) (by omega)
    have hs : branchLevelLoop cnFastHash (2 ^ (k + 1)) (b, t) =
        (climbed t.ints 0 (2 ^ (k + 1)) b, levelLoop cnFastHash (2 ^ (k + 1)) t) :=
      Prod.ext (branchLevelLoop_spec cnFastHash b t _ (by omega))
        (branchLevelLoop_snd cnFastHash (b, t) _)
    have hsib : (t.ints.take (2 ^ (k + 1 + 1))).getD (sib b.idx) nullHash =
        t.ints.getD (sib b.idx) nullHash := getD_take_of_lt (hpow ▸ sib_lt (hpow ▸ hidx))
    have hdiv : b.idx / 2 / 2 ^ k = b.idx / 2 ^ (k + 1) := by
      rw [Nat.div_div_eq_div_mul, Nat.pow_succ, Nat.mul_comm]
    rw [branchReduceLoop, if_pos hgt, hhalf, hs, climbed_zero (by omega),
      branchReduceLoop_spec k fuel _ _ (by omega) hlen' (by simp only [BranchState.push]; omega),
      htake, push_push, opening, hsib, ← hpow]
    simp only [BranchState.push, hdiv]
    rfl

/-! ## The path -/

/-- What `tree_path` sees of a branch state. -/
def BranchState.toPath (b : BranchState) : PathState := ⟨b.idx, b.path⟩

theorem record_toPath (row : List Hash) (i j : Nat) (b : BranchState) :
    (record row i j b).toPath = turn i j b.toPath := by
  unfold record turn BranchState.toPath
  split <;> rfl

theorem branchFirstLoop_toPath (hashes : List Hash) (off : Nat) (s : BranchState × TreeBuf) :
    ∀ n, (branchFirstLoop cnFastHash hashes off n s).1.toPath = pathLoop off n s.1.toPath
  | 0 => rfl
  | n + 1 => by
    rw [branchFirstLoop, record_toPath, branchFirstLoop_toPath hashes off s n, pathLoop]

theorem branchLevelLoop_toPath (s : BranchState × TreeBuf) :
    ∀ n, (branchLevelLoop cnFastHash n s).1.toPath = pathLoop 0 n s.1.toPath
  | 0 => rfl
  | n + 1 => by
    rw [branchLevelLoop, record_toPath, branchLevelLoop_toPath s n, pathLoop, Nat.zero_add,
      Nat.zero_add]

theorem branchReduceLoop_toPath : ∀ (fuel cnt : Nat) (s : BranchState × TreeBuf),
    (branchReduceLoop cnFastHash fuel cnt s).1.toPath = pathReduceLoop fuel cnt s.1.toPath
  | 0, _, _ => rfl
  | fuel + 1, cnt, s => by
    rw [branchReduceLoop, pathReduceLoop]
    split
    · rw [branchReduceLoop_toPath fuel, branchLevelLoop_toPath]
    · rfl

theorem pushBit_toNat {p : UInt32} {b : Bool} (hp : p.toNat < 2 ^ 31) :
    (pushBit p b).toNat = 2 * p.toNat + b.toNat := by
  have hs : (p <<< 1).toNat = 2 ^ 1 * p.toNat := by
    simp [Nat.shiftLeft_eq]
    omega
  have hb : (if b then (1 : UInt32) else 0).toNat = b.toNat := by cases b <;> rfl
  rw [pushBit, UInt32.toNat_or, hs, hb, ← Nat.two_pow_add_eq_or_of_lt (by cases b <;> decide)]

/-- The value of a list of bits, most significant first, behind `a`. -/
def bitsVal (a : Nat) (bits : List Bool) : Nat := bits.foldl (fun a b => 2 * a + b.toNat) a

theorem foldl_pushBit_toNat : ∀ (bits : List Bool) (p : UInt32) (m : Nat), p.toNat < 2 ^ m →
    m + bits.length ≤ 32 → (bits.foldl pushBit p).toNat = bitsVal p.toNat bits
  | [], _, _, _, _ => rfl
  | b :: bits, p, m, hp, hm => by
    simp only [length_cons] at hm
    have h31 : p.toNat < 2 ^ 31 :=
      Nat.lt_of_lt_of_le hp (Nat.pow_le_pow_right (by decide) (by omega))
    have hpush := pushBit_toNat (b := b) h31
    have hb := b.toNat_le
    rw [foldl_cons, foldl_pushBit_toNat bits (pushBit p b) (m + 1)
      (by rw [hpush, Nat.pow_succ]; omega) (by omega), hpush]
    rfl

theorem bitsVal_div : ∀ (bits : List Bool) (a : Nat), bitsVal a bits / 2 ^ bits.length = a
  | [], a => by simp [bitsVal]
  | b :: bits, a => by
    have ih := bitsVal_div bits (2 * a + b.toNat)
    have hb := b.toNat_le
    have e : bitsVal a (b :: bits) = bitsVal (2 * a + b.toNat) bits := rfl
    rw [e, length_cons, Nat.pow_succ, ← Nat.div_div_eq_div_mul, ih]
    omega

/-- Bit `d` of a path, counted from the first one pushed. -/
theorem bitsVal_bit : ∀ (bits : List Bool) (a d : Nat) (hd : d < bits.length),
    bitsVal a bits / 2 ^ (bits.length - d - 1) % 2 = bits[d].toNat
  | b :: bits, a, 0, _ => by
    have hb := b.toNat_le
    have e : bitsVal a (b :: bits) = bitsVal (2 * a + b.toNat) bits := rfl
    have e' : (b :: bits).length - 0 - 1 = bits.length := by simp
    rw [e, e', bitsVal_div]
    simp only [getElem_cons_zero]
    omega
  | b :: bits, a, d + 1, hd => by
    simp only [length_cons] at hd
    have ih := bitsVal_bit bits (2 * a + b.toNat) d (by omega)
    have e : (b :: bits).length - (d + 1) - 1 = bits.length - d - 1 := by simp
    rw [e]
    exact ih

theorem path_bit {bits : List Bool} (hlen : bits.length ≤ 32) {d : Nat} (hd : d < bits.length) :
    (bits.foldl pushBit 0 >>> UInt32.ofNat (bits.length - d - 1)) &&& 1 ≠ 0 ↔ bits[d] = true := by
  have hv : (bits.foldl pushBit 0).toNat = bitsVal 0 bits :=
    foldl_pushBit_toNat bits 0 0 (by decide) (by omega)
  have hs : (UInt32.ofNat (bits.length - d - 1)).toNat % 32 = bits.length - d - 1 := by
    rw [UInt32.toNat_ofNat']
    omega
  have hbit : ((bits.foldl pushBit 0 >>> UInt32.ofNat (bits.length - d - 1)) &&& 1).toNat =
      bits[d].toNat := by
    rw [UInt32.toNat_and, UInt32.toNat_shiftRight, hs, hv, Nat.shiftRight_eq_div_pow]
    show _ &&& 1 = _
    rw [Nat.and_one_is_mod, bitsVal_bit bits 0 d hd]
  rw [Ne, ← UInt32.toNat_inj, hbit]
  cases bits[d] <;> simp

/-! ## The branch recomputes the root -/

theorem branchHashLoop_spec (o : List (Bool × Hash)) (hlen : o.length ≤ 32) (x : Hash) :
    ∀ d, d ≤ o.length →
      branchHashLoop cnFastHash (o.map Prod.snd) o.length ((o.map Prod.fst).foldl pushBit 0) d x =
        recompute (merge cnFastHash) x (o.take d)
  | 0, _ => rfl
  | d + 1, hd => by
    have hlt : d < o.length := by omega
    have hlt' : d < (o.map Prod.fst).length := by rwa [length_map]
    have hbit := path_bit (by rwa [length_map]) hlt'
    simp only [length_map, getElem_map] at hbit
    have hsnd : (o.map Prod.snd).getD d nullHash = o[d].2 := by
      rw [getD_eq_getElem _ _ (by rw [length_map]; exact hlt), getElem_map]
    rw [branchHashLoop, branchHashLoop_spec o hlen x d (by omega), take_add_one,
      getElem?_eq_getElem hlt, recompute_append, hsnd]
    by_cases hb : o[d].1 = true
    · rw [if_pos (hbit.mpr hb)]
      simp only [Option.toList_some, recompute, hb, if_true]
      rfl
    · rw [if_neg (fun h => hb (hbit.mp h))]
      simp only [Option.toList_some, recompute, if_neg hb]
      rfl

/-- The index in the first row of a leaf, which is behind the kept ones or one of them. -/
def firstIdx (off idx : Nat) : Nat := if off ≤ idx then off + (idx - off) / 2 else idx

/-- The step to the first row, when there is one. -/
def firstStep (hashes : List Hash) (off idx : Nat) : List (Bool × Hash) :=
  if off ≤ idx then
    [(decide ((idx - off) % 2 = 1), hashes.getD (off + sib (idx - off)) nullHash)]
  else []

/-- The opening of leaf `idx` in the unbalanced tree: the first-level step when there is one, then
the balanced levels. -/
def treeOpening (hashes : List Hash) (k idx : Nat) : List (Bool × Hash) :=
  let off := 2 * 2 ^ k - hashes.length
  firstStep hashes off idx ++
    opening (merge cnFastHash) nullHash k (firstRow cnFastHash hashes) (firstIdx off idx)

theorem length_treeOpening (hashes : List Hash) (k idx : Nat) :
    (treeOpening cnFastHash hashes k idx).length ≤ k + 1 := by
  rw [treeOpening, length_append, length_opening, firstStep]
  split <;> simp [Nat.add_comm]

theorem climbed_eq_push {row : List Hash} {b : BranchState} {off n : Nat}
    (h : b.idx < off + 2 * n) :
    climbed row off n b = b.push (firstIdx off b.idx) (firstStep row off b.idx) := by
  unfold climbed firstIdx firstStep
  by_cases hoff : off ≤ b.idx
  · rw [if_pos ⟨hoff, h⟩, if_pos hoff, if_pos hoff, climb]
  · rw [if_neg fun hc => hoff hc.1, if_neg hoff, if_neg hoff]
    simp [BranchState.push]

variable {hashes : List Hash}

/-- **Climbing the opening of a leaf from that leaf ends at the root.** -/
theorem recompute_treeOpening {k idx : Nat}
    (hk : TreeShape hashes.length k) (hidx : idx < hashes.length) :
    recompute (merge cnFastHash) (hashes.getD idx nullHash)
      (treeOpening cnFastHash hashes (k + 1) idx) = treeHash cnFastHash hashes := by
  have hroot := (treeHash_eq_reduce cnFastHash hk).1
  have hlen := length_firstRow cnFastHash hk
  obtain ⟨hk, hlo, hhi⟩ := hk
  unfold treeOpening
  set off := 2 * 2 ^ (k + 1) - hashes.length with hoff
  have hidx1 : firstIdx off idx < 2 ^ (k + 1) := by
    unfold firstIdx
    split <;> omega
  have htl : (hashes.take off).length = off := by rw [length_take]; omega
  have hfirst : recompute (merge cnFastHash) (hashes.getD idx nullHash)
      (firstStep hashes off idx) =
      (firstRow cnFastHash hashes).getD (firstIdx off idx) nullHash := by
    simp only [firstRow, hk, ← hoff]
    unfold firstStep firstIdx
    by_cases hge : off ≤ idx
    · have hleaf : hashes.getD idx nullHash = (hashes.drop off).getD (idx - off) nullHash := by
        rw [getD_drop, Nat.add_sub_cancel' hge]
      have hsub : off + (idx - off) / 2 - off = (idx - off) / 2 := by omega
      rw [if_pos hge, if_pos hge, recompute, hleaf, ← getD_drop, merge_sib (merge cnFastHash)
        nullHash (by rw [length_drop]; omega) (by rw [length_drop]; omega),
        getD_append_right _ _ _ _ (by omega), htl, hsub]
      rfl
    · rw [if_neg hge, if_neg hge, getD_append _ _ _ _ (by omega), getD_take_of_lt (by omega)]
      rfl
  rw [recompute_append, hfirst, recompute_opening (merge cnFastHash) nullHash (k + 1) _ _ hlen
    (by omega), hroot]
  rfl

/-- From three leaves on, `tree_branch` returns the opening of the first occurrence. -/
theorem treeBranch_eq {hash : Hash} {k : Nat} (hmem : hash ∈ hashes)
    (hk : TreeShape hashes.length k) :
    let o := treeOpening cnFastHash hashes (k + 1) (hashes.idxOf hash)
    treeBranch cnFastHash hashes hash =
        some (o.map Prod.snd, o.length, (o.map Prod.fst).foldl pushBit 0) ∧
      treePath hashes.length (hashes.idxOf hash) = some ((o.map Prod.fst).foldl pushBit 0) := by
  intro o
  have hlen := length_firstRow cnFastHash hk
  have hshape := hk
  obtain ⟨hk, hlo, hhi⟩ := hk
  have hidx : hashes.idxOf hash < hashes.length := idxOf_lt_length_of_mem hmem
  set idx := hashes.idxOf hash with hidxdef
  set off := 2 * 2 ^ (k + 1) - hashes.length with hoff
  set b0 : BranchState := ⟨idx, [], 0, 0⟩ with hb0
  set s1 := branchFirstLoop cnFastHash hashes off (2 ^ (k + 1) - off)
    (b0, initBuf hashes (2 ^ (k + 1))) with hs1
  have hfirst : s1.1 = b0.push (firstIdx off idx) (firstStep hashes off idx) :=
    (branchFirstLoop_spec cnFastHash hashes off b0 _ _).trans
      (climbed_eq_push (by show idx < _; omega))
  have hi1 : s1.1.idx < 2 ^ (k + 1) := by
    rw [hfirst]
    show firstIdx off idx < _
    unfold firstIdx
    split <;> omega
  have hrow : s1.2.ints = firstRow cnFastHash hashes := by
    rw [hs1, branchFirstLoop_snd]
    exact congrArg TreeBuf.ints (firstLoop_initBuf cnFastHash hshape rfl hoff)
  have hfull : s1.2.ints.take (2 ^ (k + 1)) = firstRow cnFastHash hashes := by
    rw [hrow]
    exact take_of_length_le (Nat.le_of_eq hlen)
  have hsize : 2 ^ (k + 1) ≤ s1.2.ints.length := Nat.le_of_eq (hrow ▸ hlen.symm)
  have hfuel : k ≤ 2 ^ (k + 1) := Nat.le_of_lt (Nat.lt_of_succ_lt Nat.lt_two_pow_self)
  set s2 := branchReduceLoop cnFastHash (2 ^ (k + 1)) (2 ^ (k + 1)) s1 with hs2
  have hred : s2.1 = s1.1.push (s1.1.idx / 2 ^ k)
      (opening (merge cnFastHash) nullHash k (firstRow cnFastHash hashes) s1.1.idx) := by
    have := branchReduceLoop_spec cnFastHash k (2 ^ (k + 1)) s1.1 s1.2 hfuel hsize hi1
    rwa [hfull] at this
  have htop : s2.2.ints.take 2 =
      reduce (merge cnFastHash) k (firstRow cnFastHash hashes) := by
    rw [hs2, branchReduceLoop_snd, ← hfull]
    exact (reduceLoop_spec cnFastHash k (2 ^ (k + 1)) s1.2 hfuel hsize).1
  have hlt2 : s1.1.idx / 2 ^ k < 2 := by
    rw [Nat.div_lt_iff_lt_mul (Nat.two_pow_pos k), Nat.mul_comm, ← Nat.pow_succ]
    exact hi1
  -- the last step, outside the loop
  have hlast : record s2.2.ints 0 0 s2.1 = b0.push 0 o := by
    have hidx2 : s2.1.idx = s1.1.idx / 2 ^ k := by rw [hred]; rfl
    have hhit : record s2.2.ints 0 0 s2.1 = climbed s2.2.ints 0 1 s2.1 := by
      have hstep := @record_climbed s2.2.ints s2.2.ints s2.1 0 0 fun _ _ => rfl
      rwa [climbed, if_neg (by omega)] at hstep
    have hget : s2.2.ints.getD (sib (s1.1.idx / 2 ^ k)) nullHash =
        (reduce (merge cnFastHash) k (firstRow cnFastHash hashes)).getD
          (sib (s1.1.idx / 2 ^ k)) nullHash := by
      rw [← htop, getD_take_of_lt (sib_lt (n := 1) hlt2)]
    rw [hhit, climbed_zero (by omega), hidx2, hget, Nat.div_eq_of_lt hlt2, hred, push_push,
      ← opening_succ, hfirst, push_push]
    rfl
  refine ⟨?_, ?_⟩
  · unfold treeBranch
    simp only [hk, ← hidxdef, ← hoff, ← hb0, ← hs1, ← hs2, hlast]
    rw [if_neg (by omega), if_neg (by omega), if_neg (by omega), if_neg (by omega)]
    simp only [BranchState.push, hb0, nil_append, Nat.zero_add]
  · have hpath : turn 0 0 (pathReduceLoop (2 ^ (k + 1)) (2 ^ (k + 1))
        (pathLoop off (2 ^ (k + 1) - off) ⟨idx, 0⟩)) = (b0.push 0 o).toPath := by
      rw [← hlast, record_toPath, hs2, branchReduceLoop_toPath, hs1, branchFirstLoop_toPath]
      rfl
    unfold treePath
    simp only [hk, ← hoff, hpath]
    rw [if_neg (by omega), if_neg (by omega), if_neg (by omega)]
    rfl

theorem getD_idxOf {hash : Hash} (hmem : hash ∈ hashes) :
    hashes.getD (hashes.idxOf hash) nullHash = hash := by
  rw [getD_eq_getElem _ _ (idxOf_lt_length_of_mem hmem), getElem_idxOf]

/-- **Branches of the transaction tree are correct**: for every hash of a list of at most `2^28`
hashes, `tree_branch` succeeds, its branch recomputes `tree_hash`, `is_branch_in_tree` accepts it,
and its path is `tree_path` of the index of the first occurrence. -/
theorem tree_branch_correct {hashes : List Hash} {hash : Hash} (hmem : hash ∈ hashes)
    (hcount : hashes.length ≤ 2 ^ 28) :
    ∃ branch depth path,
      treeBranch cnFastHash hashes hash = some (branch, depth, path) ∧
      treeBranchHash cnFastHash hash branch depth path = treeHash cnFastHash hashes ∧
      isBranchInTree cnFastHash hash (treeHash cnFastHash hashes) branch depth path = true ∧
      treePath hashes.length (hashes.idxOf hash) = some path := by
  suffices h : ∃ branch depth path,
      treeBranch cnFastHash hashes hash = some (branch, depth, path) ∧
      treeBranchHash cnFastHash hash branch depth path = treeHash cnFastHash hashes ∧
      treePath hashes.length (hashes.idxOf hash) = some path by
    obtain ⟨branch, depth, path, h1, h2, h3⟩ := h
    exact ⟨branch, depth, path, h1, h2, beq_iff_eq.mpr h2, h3⟩
  match hl : hashes with
  | [a] =>
    obtain rfl : hash = a := mem_singleton.mp hmem
    exact ⟨[], 0, 0, by simp [treeBranch], rfl, rfl⟩
  | [a, b] =>
    by_cases ha : a = hash
    · subst ha
      have hidx : [a, b].idxOf a = 0 := idxOf_cons_self
      refine ⟨[b], 1, 0, ?_, rfl, ?_⟩
      · simp [treeBranch]
      · rw [hidx]
        rfl
    · obtain rfl : hash = b := by
        rcases mem_cons.mp hmem with h | h
        · exact absurd h.symm ha
        · exact mem_singleton.mp h
      have hidx : [a, hash].idxOf hash = 1 := by
        rw [idxOf_cons_ne _ ha, idxOf_cons_self]
      refine ⟨[a], 1, 1, ?_, rfl, ?_⟩
      · simp [treeBranch, hidx]
      · rw [hidx]
        rfl
  | a :: b :: c :: m =>
    have hge : 3 ≤ (a :: b :: c :: m).length := by simp
    generalize a :: b :: c :: m = l at *
    obtain ⟨k, hk⟩ := exists_treeShape hge
    have hk28 : k + 1 < 28 :=
      (Nat.pow_lt_pow_iff_right (by decide)).mp (Nat.lt_of_lt_of_le hk.lo hcount)
    obtain ⟨hb, hp⟩ := treeBranch_eq cnFastHash hmem hk
    refine ⟨_, _, _, hb, ?_, hp⟩
    have hlen := length_treeOpening cnFastHash l (k + 1) (l.idxOf hash)
    rw [treeBranchHash, branchHashLoop_spec cnFastHash _ (by omega) hash _ (Nat.le_refl _),
      take_length]
    have hrec := recompute_treeOpening cnFastHash hk (idxOf_lt_length_of_mem hmem)
    rwa [getD_idxOf hmem] at hrec

end TreeBranch

/-- The middle leaf of a three-leaf tree has a branch. -/
theorem tree_branch_correct_three :
    ∃ branch depth path,
      treeBranch sumHash [Blob.fill 1, Blob.fill 2, Blob.fill 3] (Blob.fill 2) =
        some (branch, depth, path) ∧
      treeBranchHash sumHash (Blob.fill 2) branch depth path =
        treeHash sumHash [Blob.fill 1, Blob.fill 2, Blob.fill 3] ∧
      isBranchInTree sumHash (Blob.fill 2)
        (treeHash sumHash [Blob.fill 1, Blob.fill 2, Blob.fill 3]) branch depth path = true ∧
      treePath [Blob.fill (n := 32) 1, Blob.fill 2, Blob.fill 3].length
        ([Blob.fill 1, Blob.fill 2, Blob.fill 3].idxOf (Blob.fill (n := 32) 2)) = some path :=
  tree_branch_correct sumHash (by simp) (by decide)

end Hashmonkey.Crypto
