import Hashmonkey.Crypto.Hash
import Hashmonkey.Lib.PairTree

/-!
# The transaction tree (`src/crypto/tree-hash.c`)

`tree_hash`, `tree_path`, `tree_branch`, `tree_branch_hash` and `is_branch_in_tree`.

* The tree is unbalanced. `tree_hash_cnt` gives the largest power of two `cnt` below the number of
  leaves; the first level keeps the first `2 * cnt - count` leaves and merges the others in pairs,
  which leaves `cnt` entries. The levels above are balanced.
* The buffer `ints` is updated in place: iteration `j` overwrites entry `j` and reads the entries
  `2 * j` and `2 * j + 1` as the iterations before left them. `levelLoop` does exactly that.
  `TreeBuf.calls` logs the inputs given to `cn_fast_hash`, in order.
* `tree_branch` runs the same loops and records, when the loop passes the current index, the
  sibling, one bit of the path and the index on the next level. `path` is a `uint32_t`.
* The asserts (`count > 0`, `count <= 2^28`) are no part of the functions; `count` is at most
  `2^63`, so `pow <<= 1` does not wrap before it passes `count`.

Results:
* `treeHash_eq_reduce`: the in-place loops compute the reduction of `Lib.PairTree`.
* `tree_hash_inj`: two lists of one length with one root are equal, unless the two runs hand
  `cn_fast_hash` two different inputs with one image.
* `tree_branch_correct`: the branch of a member of the list recomputes the root, is accepted, and
  its path is the one `tree_path` computes from the index of the first occurrence.
-/

namespace Hashmonkey.Crypto

open Lib PairTree List

/-! ## `tree_hash_cnt` -/

/-- `while (pow < count) pow <<= 1;` -/
def powLoop (count : Nat) : Nat → Nat → Nat
  | 0, pow => pow
  | fuel + 1, pow => if pow < count then powLoop count fuel (2 * pow) else pow

/-- `tree_hash_cnt`. The loop doubles `pow` at most `count` times. -/
def treeHashCnt (count : Nat) : Nat := powLoop count count 2 / 2

theorem powLoop_spec {count : Nat} : ∀ (fuel k : Nat), count ≤ 2 ^ (k + 1) * 2 ^ fuel →
    2 ^ k < count →
      ∃ m, powLoop count fuel (2 ^ (k + 1)) = 2 ^ (m + 1) ∧ 2 ^ m < count ∧ count ≤ 2 ^ (m + 1)
  | 0, k, hf, hk => ⟨k, rfl, hk, by simpa using hf⟩
  | fuel + 1, k, hf, hk => by
    rw [powLoop]
    split
    · rename_i hlt
      have e : 2 * 2 ^ (k + 1) = 2 ^ (k + 1 + 1) := by rw [Nat.pow_succ 2 (k + 1)]; omega
      rw [e]
      refine powLoop_spec fuel (k + 1) ?_ hlt
      calc count ≤ 2 ^ (k + 1) * 2 ^ (fuel + 1) := hf
        _ = 2 ^ (k + 1 + 1) * 2 ^ fuel := by rw [← Nat.pow_add, ← Nat.pow_add]; congr 1; omega
    · rename_i hge
      exact ⟨k, rfl, hk, Nat.le_of_not_lt hge⟩

/-- `tree_hash_cnt(count)` is the largest power of two below `count`. -/
theorem treeHashCnt_spec {count : Nat} (hc : 3 ≤ count) :
    ∃ k, 1 ≤ k ∧ treeHashCnt count = 2 ^ k ∧ 2 ^ k < count ∧ count ≤ 2 ^ (k + 1) := by
  have hf : count ≤ 2 ^ (0 + 1) * 2 ^ count :=
    Nat.le_trans (Nat.le_of_lt Nat.lt_two_pow_self) (Nat.le_mul_of_pos_left _ (by decide))
  obtain ⟨m, hm, hlo, hhi⟩ := powLoop_spec count 0 hf (by omega)
  refine ⟨m, ?_, ?_, hlo, hhi⟩
  · by_contra h0
    have : m = 0 := by omega
    rw [this] at hhi
    omega
  · change powLoop count count (2 ^ (0 + 1)) / 2 = 2 ^ m
    rw [hm, Nat.pow_succ]
    omega

/-- From three leaves on, `tree_hash_cnt` is a power of two below the number of leaves, and at least
half of it. -/
structure TreeShape (count k : Nat) : Prop where
  cnt : treeHashCnt count = 2 ^ (k + 1)
  lo : 2 ^ (k + 1) < count
  hi : count ≤ 2 * 2 ^ (k + 1)

theorem exists_treeShape {count : Nat} (hc : 3 ≤ count) : ∃ k, TreeShape count k := by
  obtain ⟨k, hk, hcnt, hlo, hhi⟩ := treeHashCnt_spec hc
  obtain ⟨k, rfl⟩ : ∃ k', k = k' + 1 := ⟨k - 1, by omega⟩
  rw [Nat.pow_succ 2 (k + 1), Nat.mul_comm] at hhi
  exact ⟨k, hcnt, hlo, hhi⟩

theorem TreeShape.three_le {count k : Nat} (h : TreeShape count k) : 3 ≤ count := by
  have hlo := h.lo
  have hpos : 0 < 2 ^ k := Nat.two_pow_pos k
  omega

/-- What the loop `while (cnt > 2)` does to a power of two. -/
theorem two_pow_halved (k : Nat) : 2 ^ (k + 1 + 1) = 2 * 2 ^ (k + 1) ∧ 2 < 2 ^ (k + 1 + 1) ∧
    2 ^ (k + 1 + 1) / 2 = 2 ^ (k + 1) := by
  have hpos : 0 < 2 ^ k := Nat.two_pow_pos k
  omega

/-! ## `tree_hash` -/

/-- The buffer `ints`, with the inputs given to `cn_fast_hash` so far. -/
structure TreeBuf where
  ints : List Hash
  calls : List Bytes

section TreeHash

variable (cnFastHash : Bytes → Hash)

/-- The 64 bytes at `src[i]`: two adjacent hashes. -/
def pairBytes (src : List Hash) (i : Nat) : Bytes :=
  (src.getD i nullHash).1 ++ (src.getD (i + 1) nullHash).1

/-- `cn_fast_hash(src[i], 64, ints + j * HASH_SIZE)`. -/
def hashInto (src : List Hash) (i j : Nat) (t : TreeBuf) : TreeBuf :=
  { ints := t.ints.set j (cnFastHash (pairBytes src i))
    calls := t.calls ++ [pairBytes src i] }

/-- `n` iterations of `for (i = off, j = off; ...; i += 2, ++j)`, which reads the leaves. -/
def firstLoop (hashes : List Hash) (off : Nat) : Nat → TreeBuf → TreeBuf
  | 0, t => t
  | n + 1, t => hashInto cnFastHash hashes (off + 2 * n) (off + n) (firstLoop hashes off n t)

/-- `n` iterations of `for (i = 0, j = 0; ...; i += 2, ++j)`, which reads `ints` itself. -/
def levelLoop : Nat → TreeBuf → TreeBuf
  | 0, t => t
  | n + 1, t => hashInto cnFastHash (levelLoop n t).ints (2 * n) n (levelLoop n t)

/-- `while (cnt > 2) { cnt >>= 1; ... }`. -/
def reduceLoop : Nat → Nat → TreeBuf → TreeBuf
  | 0, _, t => t
  | fuel + 1, cnt, t =>
    if 2 < cnt then reduceLoop fuel (cnt / 2) (levelLoop cnFastHash (cnt / 2) t) else t

/-- `calloc(cnt, HASH_SIZE)` and the `memcpy` of the leaves the first level keeps. -/
def initBuf (hashes : List Hash) (cnt : Nat) : TreeBuf :=
  { ints := hashes.take (2 * cnt - hashes.length) ++
      List.replicate (cnt - (2 * cnt - hashes.length)) nullHash
    calls := [] }

/-- The buffer when the loop `while (cnt > 2)` ends. -/
def treeBuf (hashes : List Hash) : TreeBuf :=
  let cnt := treeHashCnt hashes.length
  let off := 2 * cnt - hashes.length
  reduceLoop cnFastHash cnt cnt (firstLoop cnFastHash hashes off (cnt - off) (initBuf hashes cnt))

/-- `tree_hash`, with the inputs it gives to `cn_fast_hash`. -/
def treeHashRun (hashes : List Hash) : Hash × List Bytes :=
  if hashes.length = 1 then (hashes.getD 0 nullHash, [])
  else if hashes.length = 2 then (cnFastHash (pairBytes hashes 0), [pairBytes hashes 0])
  else
    let t := treeBuf cnFastHash hashes
    (cnFastHash (pairBytes t.ints 0), t.calls ++ [pairBytes t.ints 0])

/-- `tree_hash`. -/
def treeHash (hashes : List Hash) : Hash := (treeHashRun cnFastHash hashes).1

/-- The inputs `tree_hash` gives to `cn_fast_hash`. -/
def treeHashCalls (hashes : List Hash) : List Bytes := (treeHashRun cnFastHash hashes).2

/-! ## The loops compute the balanced reduction -/

/-- The merge of two entries. -/
def merge (a b : Hash) : Hash := cnFastHash (a.1 ++ b.1)

/-- The bytes of a merge. -/
def mergeInput (p : Hash × Hash) : Bytes := p.1.1 ++ p.2.1

theorem mergeInput_inj {p q : Hash × Hash} (h : mergeInput p = mergeInput q) : p = q := by
  obtain ⟨h1, h2⟩ := Blob.append_inj h
  exact Prod.ext h1 h2

theorem length_pairUp_take {f : Hash → Hash → Hash} {row : List Hash} {n : Nat}
    (hn : 2 * n ≤ row.length) : (pairUp f (row.take (2 * n))).length = n := by
  rw [length_pairUp, length_take]
  omega

theorem getD_drop (row : List Hash) (off i : Nat) :
    (row.drop off).getD i nullHash = row.getD (off + i) nullHash := by
  rw [getD_eq_getElem?_getD, getElem?_drop, ← getD_eq_getElem?_getD]

/-- What `n` merges of a row behind `off` kept entries make of a buffer. -/
def merged (t : TreeBuf) (row : List Hash) (off n : Nat) : TreeBuf :=
  { ints := t.ints.take off ++ pairUp (merge cnFastHash) (row.take (2 * n)) ++ t.ints.drop (off + n)
    calls := t.calls ++ (pairs (row.take (2 * n))).map mergeInput }

theorem hashInto_merged {t : TreeBuf} {src row : List Hash} {off i n : Nat}
    (hn : 2 * n + 1 < row.length) (ht : off + n < t.ints.length)
    (hpair : pairBytes src i =
      mergeInput (row.getD (2 * n) nullHash, row.getD (2 * n + 1) nullHash)) :
    hashInto cnFastHash src i (off + n) (merged cnFastHash t row off n) =
      merged cnFastHash t row off (n + 1) := by
  have hlen : (t.ints.take off ++ pairUp (merge cnFastHash) (row.take (2 * n))).length =
      off + n := by
    rw [length_append, length_pairUp, length_take, length_take]
    omega
  have hdrop : t.ints.drop (off + n) =
      t.ints.getD (off + n) nullHash :: t.ints.drop (off + (n + 1)) := by
    rw [getD_eq_getElem _ _ ht, drop_eq_getElem_cons ht]
    rfl
  rw [hashInto, hpair, merged, merged]
  congr 1
  · rw [pairUp_take_succ (merge cnFastHash) nullHash hn, hdrop, set_append_right _ _ (by omega),
      hlen, Nat.sub_self, set_cons_zero]
    simp only [append_assoc]
    rfl
  · rw [pairs_take_succ nullHash _ _ hn, map_append, append_assoc]
    rfl

theorem firstLoop_spec (hashes : List Hash) (off : Nat) (t : TreeBuf) : ∀ n,
    off + 2 * n ≤ hashes.length → off + n ≤ t.ints.length →
    firstLoop cnFastHash hashes off n t = merged cnFastHash t (hashes.drop off) off n
  | 0, _, _ => by simp [firstLoop, merged, pairUp, pairs]
  | n + 1, hn, ht => by
    rw [firstLoop, firstLoop_spec hashes off t n (by omega) (by omega)]
    refine hashInto_merged cnFastHash (by rw [length_drop]; omega) ht ?_
    rw [getD_drop, getD_drop]
    rfl

variable {t : TreeBuf} {n : Nat}

/-- Entries at or behind the current iteration are still the old ones. -/
theorem merged_getD {i : Nat} (hn : 2 * n ≤ t.ints.length) (hi : n ≤ i) :
    (merged cnFastHash t t.ints 0 n).ints.getD i nullHash = t.ints.getD i nullHash := by
  rw [merged, Nat.zero_add]
  exact getD_append_drop nullHash (length_pairUp_take hn) hi

theorem levelLoop_spec : ∀ {n}, 2 * n ≤ t.ints.length →
    levelLoop cnFastHash n t = merged cnFastHash t t.ints 0 n
  | 0, _ => by simp [levelLoop, merged, pairUp, pairs]
  | n + 1, hn => by
    have hstep := @hashInto_merged cnFastHash t (merged cnFastHash t t.ints 0 n).ints t.ints 0
      (2 * n) n hn (by omega)
    rw [levelLoop, levelLoop_spec (by omega), ← hstep, Nat.zero_add]
    rw [pairBytes, merged_getD cnFastHash (by omega) (by omega),
      merged_getD cnFastHash (by omega) (by omega)]
    rfl

theorem levelLoop_take (hn : 2 * n ≤ t.ints.length) :
    n ≤ (levelLoop cnFastHash n t).ints.length ∧ (levelLoop cnFastHash n t).ints.take n =
      pairUp (merge cnFastHash) (t.ints.take (2 * n)) := by
  have hlen := length_pairUp_take (f := merge cnFastHash) hn
  rw [levelLoop_spec cnFastHash hn, merged, Nat.zero_add, take_zero, nil_append, length_append]
  exact ⟨by omega, take_left' hlen⟩

theorem reduceLoop_spec : ∀ (k fuel : Nat) (t : TreeBuf), k ≤ fuel → 2 ^ (k + 1) ≤ t.ints.length →
    (reduceLoop cnFastHash fuel (2 ^ (k + 1)) t).ints.take 2 =
      reduce (merge cnFastHash) k (t.ints.take (2 ^ (k + 1))) ∧
    (reduceLoop cnFastHash fuel (2 ^ (k + 1)) t).calls =
      t.calls ++
        (merges (merge cnFastHash) k (t.ints.take (2 ^ (k + 1)))).map mergeInput
  | 0, fuel, t, _, _ => by
    have hstop : reduceLoop cnFastHash fuel (2 ^ (0 + 1)) t = t := by
      cases fuel <;> simp [reduceLoop]
    rw [hstop]
    simp [reduce, merges]
  | k + 1, fuel + 1, t, hf, hlen => by
    obtain ⟨hpow, hgt, hhalf⟩ := two_pow_halved k
    obtain ⟨hlen', htake⟩ := levelLoop_take cnFastHash (t := t) (n := 2 ^ (k + 1)) (by omega)
    obtain ⟨h1, h2⟩ := reduceLoop_spec k fuel _ (by omega) hlen'
    rw [reduceLoop, if_pos hgt, hhalf]
    refine ⟨?_, ?_⟩
    · rw [h1, htake, hpow]
      rfl
    · rw [h2, htake, levelLoop_spec cnFastHash (by omega), hpow, merges, map_append, merged,
        append_assoc]

/-- The row the first level leaves: kept leaves, then merged pairs. -/
def firstRow (hashes : List Hash) : List Hash :=
  let off := 2 * treeHashCnt hashes.length - hashes.length
  hashes.take off ++ pairUp (merge cnFastHash) (hashes.drop off)

variable {hashes : List Hash} {k : Nat}

theorem length_firstRow (hk : TreeShape hashes.length k) :
    (firstRow cnFastHash hashes).length = 2 ^ (k + 1) := by
  have hlo := hk.lo
  have hhi := hk.hi
  simp only [firstRow, hk.cnt, length_append, length_pairUp, length_take, length_drop]
  omega

/-- The first loop turns the initial buffer into the first row. -/
theorem firstLoop_initBuf (hk : TreeShape hashes.length k) {cnt off : Nat}
    (hcnt : cnt = 2 ^ (k + 1))
    (hoff : off = 2 * cnt - hashes.length) :
    firstLoop cnFastHash hashes off (cnt - off) (initBuf hashes cnt) =
      { ints := firstRow cnFastHash hashes
        calls := (pairs (hashes.drop off)).map mergeInput } := by
  obtain ⟨hk, hlo, hhi⟩ := hk
  rw [← hcnt] at hk hlo hhi
  have hinit : (initBuf hashes cnt).ints.length = cnt := by
    simp only [initBuf, length_append, length_take, length_replicate]
    omega
  have hfirst := firstLoop_spec cnFastHash hashes off (initBuf hashes cnt) (cnt - off) (by omega)
    (by omega)
  have hall : (hashes.drop off).take (2 * (cnt - off)) = hashes.drop off :=
    take_of_length_le (by rw [length_drop]; omega)
  have hkeep : (initBuf hashes cnt).ints.take off = hashes.take off := by
    simp only [initBuf, ← hoff]
    exact take_left' (by rw [length_take]; omega)
  have hrest : (initBuf hashes cnt).ints.drop (off + (cnt - off)) = [] :=
    drop_of_length_le (by omega)
  rw [hfirst, merged, hall, hkeep, hrest, append_nil]
  simp only [firstRow, hk, ← hoff]
  rfl

/-- **The in-place loops compute the balanced reduction** of the first row, up to its last two
entries, and hand `cn_fast_hash` exactly its merges. -/
theorem treeBuf_spec (hk : TreeShape hashes.length k) :
    (treeBuf cnFastHash hashes).ints.take 2 =
      reduce (merge cnFastHash) k (firstRow cnFastHash hashes) ∧
    (treeBuf cnFastHash hashes).calls =
      (pairs (hashes.drop (2 * 2 ^ (k + 1) - hashes.length)) ++
        merges (merge cnFastHash) k (firstRow cnFastHash hashes)).map mergeInput := by
  have hfirst := firstLoop_initBuf cnFastHash hk rfl rfl
  have hlen := length_firstRow cnFastHash hk
  have hfull : (firstRow cnFastHash hashes).take (2 ^ (k + 1)) = firstRow cnFastHash hashes :=
    take_of_length_le (Nat.le_of_eq hlen)
  obtain ⟨h1, h2⟩ := reduceLoop_spec cnFastHash k (2 ^ (k + 1))
    { ints := firstRow cnFastHash hashes
      calls := (pairs (hashes.drop (2 * 2 ^ (k + 1) - hashes.length))).map mergeInput }
    (Nat.le_of_lt (Nat.lt_of_succ_lt Nat.lt_two_pow_self)) (Nat.le_of_eq hlen.symm)
  simp only [hfull] at h1 h2
  unfold treeBuf
  simp only [hk.cnt, hfirst]
  refine ⟨h1, ?_⟩
  rw [h2, map_append]

/-- **`tree_hash` is the root of the reduced first row**, from three leaves on. -/
theorem treeHash_eq_reduce (hk : TreeShape hashes.length k) :
    reduce (merge cnFastHash) (k + 1) (firstRow cnFastHash hashes) =
      [treeHash cnFastHash hashes] ∧
    treeHashCalls cnFastHash hashes =
      (pairs (hashes.drop (2 * 2 ^ (k + 1) - hashes.length)) ++
        merges (merge cnFastHash) (k + 1) (firstRow cnFastHash hashes)).map
          mergeInput := by
  obtain ⟨h1, h2⟩ := treeBuf_spec cnFastHash hk
  have hge := hk.three_le
  set t := treeBuf cnFastHash hashes with ht
  have hlen2 : (t.ints.take 2).length = 2 := by
    rw [h1]
    exact length_reduce (merge cnFastHash) 1 k _ (length_firstRow cnFastHash hk)
  have hpair : pairs (reduce (merge cnFastHash) k (firstRow cnFastHash hashes)) =
      [(t.ints.getD 0 nullHash, t.ints.getD 1 nullHash)] := by
    rw [← h1]
    match hl : t.ints with
    | [] => rw [hl] at hlen2; simp at hlen2
    | [_] => rw [hl] at hlen2; simp at hlen2
    | _ :: _ :: _ => simp [pairs]
  have hrun : treeHashRun cnFastHash hashes =
      (cnFastHash (pairBytes t.ints 0), t.calls ++ [pairBytes t.ints 0]) := by
    unfold treeHashRun
    rw [if_neg (by omega), if_neg (by omega)]
  refine ⟨?_, ?_⟩
  · rw [reduce_succ, pairUp, hpair, treeHash, hrun]
    rfl
  · rw [treeHashCalls, hrun, merges_succ, hpair, h2]
    simp only [map_append, append_assoc]
    rfl

/-! ## A root determines its leaves -/

/-- A collision of `cn_fast_hash` exhibited by two runs of `tree_hash`. -/
def TreeCollision (l l' : List Hash) : Prop :=
  ∃ x ∈ treeHashCalls cnFastHash l, ∃ y ∈ treeHashCalls cnFastHash l',
    x ≠ y ∧ cnFastHash x = cnFastHash y

/-- Different merges with one image among the calls are a collision. -/
theorem TreeCollision.of_merges {l l' : List Hash} {P Q : List (Hash × Hash)}
    (hP : treeHashCalls cnFastHash l = P.map mergeInput)
    (hQ : treeHashCalls cnFastHash l' = Q.map mergeInput)
    (h : ∃ x ∈ P, ∃ y ∈ Q, x ≠ y ∧ merge cnFastHash x.1 x.2 = merge cnFastHash y.1 y.2) :
    TreeCollision cnFastHash l l' := by
  obtain ⟨x, hx, y, hy, hne, he⟩ := h
  exact ⟨mergeInput x, hP ▸ mem_map_of_mem hx, mergeInput y, hQ ▸ mem_map_of_mem hy,
    fun e => hne (mergeInput_inj e), he⟩

/-- **A transaction tree root determines its leaves**: two non-empty lists of one length with one
`tree_hash` are equal, unless the two computations exhibit a collision of `cn_fast_hash`. -/
theorem tree_hash_inj {l l' : List Hash} (hne : l ≠ []) (hlen : l.length = l'.length)
    (hroot : treeHash cnFastHash l = treeHash cnFastHash l') :
    l = l' ∨ TreeCollision cnFastHash l l' := by
  match l, l', hlen with
  | [a], [b], _ => exact Or.inl (by rw [show a = b from hroot])
  | [a, b], [a', b'], _ =>
    by_cases hp : (a, b) = (a', b')
    · simp only [Prod.mk.injEq] at hp
      exact Or.inl (by rw [hp.1, hp.2])
    exact Or.inr ⟨mergeInput (a, b), mem_cons_self, mergeInput (a', b'), mem_cons_self,
      fun e => hp (mergeInput_inj e), hroot⟩
  | a :: b :: c :: m, m', hlen =>
    have hge : 3 ≤ (a :: b :: c :: m).length := by simp
    generalize a :: b :: c :: m = l at *
    obtain ⟨k, hk⟩ := exists_treeShape hge
    have hk' : TreeShape m'.length k := hlen ▸ hk
    have hhi := hk.hi
    obtain ⟨hr, hc⟩ := treeHash_eq_reduce cnFastHash hk
    obtain ⟨hr', hc'⟩ := treeHash_eq_reduce cnFastHash hk'
    rw [← hlen] at hc'
    set off := 2 * 2 ^ (k + 1) - l.length with hoff
    rcases reduce_inj (merge cnFastHash) (k + 1) (length_firstRow cnFastHash hk)
      (length_firstRow cnFastHash hk') (by rw [hr, hr', hroot]) with hrow | ⟨x, hx, y, hy, hcol⟩
    · -- equal first rows: the kept leaves agree, and so do the merged ones up to a collision
      simp only [firstRow, hk.cnt, ← hlen, ← hoff] at hrow
      obtain ⟨htake, hup⟩ := append_inj hrow (by simp only [length_take]; omega)
      have hdl : (l.drop off).length = (m'.drop off).length := by
        simp only [length_drop]; omega
      have hev : 2 ∣ (l.drop off).length := by
        simp only [length_drop]
        omega
      rcases pairUp_inj (merge cnFastHash) hdl hev hup with hdrop | ⟨x, hx, y, hy, hcol⟩
      · left
        rw [← take_append_drop off l, ← take_append_drop off m', htake, hdrop]
      exact Or.inr (.of_merges cnFastHash hc hc' ⟨x, mem_append_left _ hx, y, mem_append_left _ hy,
        hcol⟩)
    · exact Or.inr (.of_merges cnFastHash hc hc' ⟨x, mem_append_right _ hx, y,
        mem_append_right _ hy, hcol⟩)

end TreeHash

end Hashmonkey.Crypto
