import Hashmonkey.Core.LongTermMedian
import Hashmonkey.Core.Steps
import Hashmonkey.Db.PopAdd

/-!
# The running count of amount-zero outputs (`bi_cum_rct` in `lmdb/db_lmdb.cpp`)

`get_block_cumulative_rct_outputs` reads the count that `add_block` stored, and
`get_output_distribution` counts the entries of `output_amounts`.

* `BlockchainDB::add_block` counts the outputs of a version 2 coinbase and the amount-zero outputs
  of the other transactions; the table gets the outputs that `storedAmount` puts under zero.
* `BlockchainLMDB::add_block` starts the count again at every block below version 4.
* `prevalidate_miner_transaction` allows version 2 coinbases at every version.

`Holds` says that a database was built with the blocks of a chain, and `Counts` what its tables then
say about them: outputs in the order of their heights, and counts that follow `cumRct`. One block
keeps this (`Counts.addBlock`), so every such database has it (`Holds.counts`).

Results: `output_distribution_counts`, the distribution of any amount counts the outputs up to each
height. `cumulative_rct_outputs_iff` says for which chains the two functions agree at every height,
and `cumulative_rct_outputs_restart` is a chain for which they do not.
-/

open Hashmonkey.Core

namespace Hashmonkey.Db

open Std Basic Ringct Lib List Table

namespace Lmdb

/-! ## Reading the counts -/

/-- The record of the range at hand that starts at `rangeBegin`. -/
def readCumRct (db : Lmdb) (height rangeBegin : Nat) : Except DbException Nat := do
  let bi ← orThrow db.blockInfo[rangeBegin + (height - rangeBegin)]? (.dbError (lmdbError
    "Error attempting to retrieve rct distribution from the db: " .notFound))
  .ok bi.cumRct

/-- The loop of `get_block_cumulative_rct_outputs`. After the record of `prevHeight` the cursor
stands before that of the height above, and `pages` gives the page that one is on. -/
def cumRctLoop (pages : Nat → Nat × Nat) (db : Lmdb) :
    List Nat → (prevHeight rangeBegin rangeEnd : Nat) → Except DbException (List Nat)
  | [], _, _, _ => .ok []
  | height :: heights, prevHeight, rangeBegin, rangeEnd =>
    if rangeBegin ≤ height ∧ height < rangeEnd then do
      let cumRct ← db.readCumRct height rangeBegin
      let res ← cumRctLoop pages db heights height rangeBegin rangeEnd
      .ok (cumRct :: res)
    else if height = prevHeight + 1 then
      let (rangeBegin, rangeEnd) := pages height
      if height < rangeBegin ∨ rangeEnd ≤ height then
        .error (.dbError ("Height " ++ toString height ++ " not included in multuple record range: "
          ++ toString rangeBegin ++ "-" ++ toString rangeEnd))
      else do
        let cumRct ← db.readCumRct height rangeBegin
        let res ← cumRctLoop pages db heights height rangeBegin rangeEnd
        .ok (cumRct :: res)
    else do
      let cumRct ← db.readCumRct height height
      let res ← cumRctLoop pages db heights height height (height + 1)
      .ok (cumRct :: res)

/-- `get_block_cumulative_rct_outputs`. -/
def getBlockCumulativeRctOutputs (pages : Nat → Nat × Nat) (db : Lmdb) (heights : List Nat) :
    Except DbException (List Nat) :=
  match heights with
  | [] => .ok []
  | height :: _ =>
    match heights.find? (db.height ≤ ·) with
    | some h =>
      .error (.blockDne ("Attempt to get rct distribution from height " ++ toString h ++
        " failed -- block size not in db"))
    | none => cumRctLoop pages db heights height 0 0

/-- The heights that the loop of `get_output_distribution` counts. -/
def visited (toHeight : Nat) : List Nat → List Nat
  | [] => []
  | height :: heights =>
    if toHeight > 0 ∧ height > toHeight then [height] else height :: visited toHeight heights

/-- Running sums. -/
def accumulate (base : Nat) : List Nat → List Nat
  | [] => []
  | n :: ns => (base + n) :: accumulate (base + n) ns

/-- `get_output_distribution`: the distribution, which takes in the base. -/
def getOutputDistribution (db : Lmdb) (amount : UInt64) (fromHeight toHeight : Nat) :
    Option (List Nat) :=
  if db.height ≤ fromHeight then none
  else
    let heights := visited toHeight ((dups db.outputAmounts amount).map OutKey.height)
    let base := heights.countP (· < fromHeight)
    some (accumulate base ((List.range (db.height - fromHeight)).map fun n =>
      heights.countP (· = fromHeight + n)))

/-- How many amount-zero outputs are stored with at most the given height. -/
def zeroOutputs (db : Lmdb) (height : Nat) : Nat :=
  count (fun k ok => k.1 = 0 && ok.height ≤ height) db.outputAmounts

variable {db : Lmdb}

theorem cumRctLoop_eq {pages : Nat → Nat × Nat} (hpages : PagesCover pages db.height)
    {f : Nat → Nat} (hf : ∀ h < db.height, ∃ bi, db.blockInfo[h]? = some bi ∧ bi.cumRct = f h)
    {heights : List Nat} (hlt : ∀ h ∈ heights, h < db.height)
    (prevHeight rangeBegin rangeEnd : Nat) :
    cumRctLoop pages db heights prevHeight rangeBegin rangeEnd = .ok (heights.map f) := by
  have hread : ∀ h < db.height, ∀ b ≤ h, db.readCumRct h b = .ok (f h) := by
    intro h hh b hb
    obtain ⟨bi, hbi, hcum⟩ := hf h hh
    rw [readCumRct, Nat.add_sub_cancel' hb, hbi, ← hcum]
    rfl
  induction heights generalizing prevHeight rangeBegin rangeEnd with
  | nil => rfl
  | cons height heights ih =>
    rw [forall_mem_cons] at hlt
    obtain ⟨hheight, hlt⟩ := hlt
    obtain ⟨hbegin, hend⟩ := hpages height hheight
    unfold cumRctLoop
    split
    · rename_i hrange
      rw [hread height hheight _ hrange.1, ih hlt]
      rfl
    split
    · dsimp only
      rw [if_neg (by omega), hread height hheight _ hbegin, ih hlt]
      rfl
    · rw [hread height hheight _ (Nat.le_refl _), ih hlt]
      rfl

/-- What is read for heights on the chain are the stored counts. -/
theorem getBlockCumulativeRctOutputs_eq {pages : Nat → Nat × Nat}
    (hpages : PagesCover pages db.height) {f : Nat → Nat}
    (hf : ∀ h < db.height, ∃ bi, db.blockInfo[h]? = some bi ∧ bi.cumRct = f h)
    {heights : List Nat} (hlt : ∀ h ∈ heights, h < db.height) :
    getBlockCumulativeRctOutputs pages db heights = .ok (heights.map f) := by
  have hnone : heights.find? (db.height ≤ ·) = none := by
    rw [find?_eq_none]
    intro h hh
    have := hlt h hh
    simpa using this
  unfold getBlockCumulativeRctOutputs
  split
  · rfl
  rw [hnone]
  exact cumRctLoop_eq hpages hf hlt _ _ _

/-! ## The distribution -/

theorem getElem?_accumulate (ns : List Nat) (base : Nat) {i : Nat} (hi : i < ns.length) :
    (accumulate base ns)[i]? = some (base + (ns.take (i + 1)).sum) := by
  induction ns generalizing base i with
  | nil => simp at hi
  | cons n ns ih =>
    cases i with
    | zero => simp [accumulate]
    | succ i =>
      rw [accumulate, getElem?_cons_succ, ih _ (by simpa using hi), take_succ_cons, sum_cons,
        Nat.add_assoc]

theorem countP_le_succ (l : List Nat) (m : Nat) :
    l.countP (· ≤ m + 1) = l.countP (· ≤ m) + l.countP (· = m + 1) := by
  induction l with
  | nil => rfl
  | cons h l ih =>
    simp only [countP_cons, ih, decide_eq_true_eq]
    split_ifs <;> omega

theorem countP_le_eq_sum (l : List Nat) (start n : Nat) :
    l.countP (· ≤ start + n) = l.countP (· < start) +
      ((List.range (n + 1)).map fun i => l.countP (· = start + i)).sum := by
  induction n with
  | zero =>
    induction l with
    | nil => rfl
    | cons h l ih =>
      simp only [Nat.add_zero, Nat.zero_add, range_one, map_cons, map_nil,
        sum_cons, sum_nil] at ih ⊢
      simp only [countP_cons, ih, decide_eq_true_eq]
      split_ifs <;> omega
  | succ n ih =>
    rw [range_succ, map_append, sum_append, ← Nat.add_assoc, countP_le_succ, ih]
    simp [Nat.add_assoc]

/-- Stopping after the first height above the limit does not change the counts up to the limit. -/
theorem countP_visited {toHeight height : Nat} (hto : toHeight = 0 ∨ height ≤ toHeight)
    {l : List Nat} (hl : l.Pairwise (· ≤ ·)) :
    (visited toHeight l).countP (· ≤ height) = l.countP (· ≤ height) := by
  induction hl with
  | nil => rfl
  | @cons h l hle _ ih =>
    unfold visited
    split
    · have hrest : l.countP (· ≤ height) = 0 := by
        rw [countP_eq_zero]
        intro k hk
        have := hle k hk
        simp only [decide_eq_true_eq]
        omega
      rw [countP_cons, countP_cons, hrest]
      rfl
    · rw [countP_cons, countP_cons, ih]

/-- Outputs of one amount are stored in the order of their heights. -/
structure HeightsOrdered (db : Lmdb) : Prop where
  le_height : ∀ (k : UInt64 × Nat) ok, db.outputAmounts[k]? = some ok → ok.height ≤ db.height
  ordered : ∀ (a : UInt64) (i j : Nat) v w, db.outputAmounts[(a, i)]? = some v →
    db.outputAmounts[(a, j)]? = some w → i < j → v.height ≤ w.height

theorem HeightsOrdered.mono {db' : Lmdb} (h : HeightsOrdered db)
    (ha : db'.outputAmounts = db.outputAmounts) (hle : db.height ≤ db'.height) :
    HeightsOrdered db' where
  le_height k ok hk := (h.le_height k ok (ha ▸ hk)).trans hle
  ordered := ha ▸ h.ordered

/-- The entries of the distribution count the stored outputs up to their heights. -/
theorem getOutputDistribution_entries {amount : UInt64}
    (hord : ∀ (i j : Nat) v w, db.outputAmounts[(amount, i)]? = some v →
      db.outputAmounts[(amount, j)]? = some w → i < j → v.height ≤ w.height)
    {fromHeight : Nat} (hfrom : fromHeight < db.height) (toHeight : Nat) :
    ∃ distribution, db.getOutputDistribution amount fromHeight toHeight = some distribution ∧
      ∀ h < db.height, fromHeight ≤ h → (toHeight = 0 ∨ h ≤ toHeight) →
        distribution[h - fromHeight]? =
          some (count (fun k ok => k.1 = amount && ok.height ≤ h) db.outputAmounts) := by
  have hsorted : ((dups db.outputAmounts amount).map OutKey.height).Pairwise (· ≤ ·) := by
    rw [pairwise_map]
    exact pairwise_dups fun i j v w hv hw hij => hord i j v w hv hw (Nat.compare_eq_lt.mp hij)
  refine ⟨_, if_neg (Nat.not_le.mpr hfrom), fun h hlt hle hto => ?_⟩
  rw [getElem?_accumulate _ _ (by rw [length_map, length_range]; omega), ← map_take, take_range,
    Nat.min_eq_left (by omega), ← countP_le_eq_sum, Nat.add_sub_cancel' hle,
    countP_visited hto hsorted, countP_map, countP_dups]
  rfl

/-- **`get_output_distribution` counts the outputs of an amount up to each height**, when they are
stored in the order of their heights. -/
theorem output_distribution_counts (amount : UInt64)
    (hord : ∀ (i j : Nat) v w, db.outputAmounts[(amount, i)]? = some v →
      db.outputAmounts[(amount, j)]? = some w → i < j → v.height ≤ w.height)
    {fromHeight toHeight : Nat} (hfrom : fromHeight ≤ toHeight) (hto : toHeight < db.height) :
    ∃ distribution, db.getOutputDistribution amount fromHeight toHeight = some distribution ∧
      ∀ h, fromHeight ≤ h → h ≤ toHeight → distribution[h - fromHeight]? =
        some (count (fun k ok => k.1 = amount && ok.height ≤ h) db.outputAmounts) := by
  obtain ⟨distribution, hdist, hget⟩ :=
    getOutputDistribution_entries hord (hfrom.trans_lt hto) toHeight
  exact ⟨distribution, hdist, fun h hf ht => hget h (ht.trans_lt hto) hf (.inr ht)⟩

/-- Five blocks, with outputs of amount 7 at the heights 0, 1, 2, 2, 3, 4 and one of amount 8. -/
def sampleOutputs : Lmdb where
  blocks := ExtTreeMap.ofList ((range 5).map fun h => (h, []))
  outputAmounts := ExtTreeMap.ofList (((8, 0), ⟨0, Blob.fill 1, 0, 2, none⟩) ::
    [0, 1, 2, 2, 3, 4].mapIdx fun i h => ((7, i), ⟨i + 1, Blob.fill 1, 0, h, none⟩)) dupCmp

/-- One output is below the first height, and the scan stops at the first of two above the last. -/
theorem output_distribution_counts_sample :
    sampleOutputs.getOutputDistribution 7 1 2 = some [2, 4, 5, 5] ∧
      ∃ distribution, sampleOutputs.getOutputDistribution 7 1 2 = some distribution ∧
        ∀ h, 1 ≤ h → h ≤ 2 → distribution[h - 1]? = some (count
          (fun k ok => k.1 = 7 && ok.height ≤ h) sampleOutputs.outputAmounts) := by
  have hlist : ∀ x ∈ sampleOutputs.outputAmounts.toList, ∀ y ∈ sampleOutputs.outputAmounts.toList,
      x.1.1 = y.1.1 → x.1.2 < y.1.2 → x.2.height ≤ y.2.height := by decide +kernel
  refine ⟨by decide +kernel, output_distribution_counts 7 (fun i j v w hv hw hij => ?_)
    (by decide) (by decide)⟩
  exact hlist _ (ExtTreeMap.mem_toList_iff_getElem?_eq_some.mpr hv) _
    (ExtTreeMap.mem_toList_iff_getElem?_eq_some.mpr hw) rfl hij

end Lmdb

namespace BlockchainDb

open Lmdb

/-! ## What a block adds -/

/-- How many outputs of a transaction are stored under amount zero. -/
def zeroOuts (tx : Transaction) : Nat :=
  tx.vout.countP fun o => storedAmount tx (tx.vin.any isGen) o = 0

/-- From one database to the next, `n` amount-zero outputs were stored at the height. -/
structure Stored (db db' : Lmdb) (n : Nat) : Prop where
  height : db'.height = db.height
  blockInfo : db'.blockInfo = db.blockInfo
  zeroOutputs : ∀ h, db'.zeroOutputs h = db.zeroOutputs h + if db.height ≤ h then n else 0
  ordered : HeightsOrdered db → HeightsOrdered db'

variable {db db' : Lmdb}

/-- Nothing changes if the tables are the same. -/
theorem Stored.of_eq (hb : db'.blocks = db.blocks) (hi : db'.blockInfo = db.blockInfo)
    (ha : db'.outputAmounts = db.outputAmounts) : Stored db db' 0 := by
  have hheight : db'.height = db.height := by rw [Lmdb.height, hb, Lmdb.height]
  refine ⟨hheight, hi, fun h => ?_, fun h => h.mono ha hheight.ge⟩
  rw [Lmdb.zeroOutputs, ha, ite_self, Lmdb.zeroOutputs, Nat.add_zero]

theorem Stored.trans {d1 d2 d3 : Lmdb} {n m : Nat} (h : Stored d1 d2 n) (h' : Stored d2 d3 m) :
    Stored d1 d3 (n + m) where
  height := h'.height.trans h.height
  blockInfo := h'.blockInfo.trans h.blockInfo
  zeroOutputs i := by
    rw [h'.zeroOutputs, h.zeroOutputs, h.height]
    split <;> omega
  ordered i := h'.ordered (h.ordered i)

variable {txHash : Hash}

/-- One output: a new entry at the end of those of its amount, with the height of the chain. -/
theorem Stored.addOutput {o : TxOut} {i index : Nat}
    {unlock : UInt64} {c : Option Key} (h : db.addOutput txHash o i unlock c = .ok (index, db')) :
    Stored db db' (if o.amount = 0 then 1 else 0) := by
  obtain ⟨ok, -, hok, -, -, hdup, hdb'⟩ := addOutput_ok h
  obtain ⟨hnew, hins⟩ := appendDup_eq_some hdup
  have hheight : db'.height = db.height := by rw [hdb']; rfl
  have hget : ∀ k : UInt64 × Nat, db'.outputAmounts[k]? =
      if (o.amount, index) = k then some ok else db.outputAmounts[k]? := by
    simp [hins, ExtTreeMap.getElem?_insert]
  refine ⟨hheight, by rw [hdb'], fun h => ?_, fun hord => ⟨fun k v hv => ?_, ?_⟩⟩
  · rw [Lmdb.zeroOutputs, hins, count_insert _ hnew, hok, ← Lmdb.zeroOutputs]
    by_cases ha : o.amount = 0 <;> simp [ha]
  · rw [hget] at hv
    rw [hheight]
    split at hv
    · cases hv
      exact Nat.le_of_eq hok
    · exact hord.le_height k v hv
  · intro a j k v w hv hw hjk
    rw [hget] at hv hw
    split at hv <;> split at hw
    · rename_i hj hk
      cases hj.symm.trans hk
      exact absurd hjk (Nat.lt_irrefl _)
    · -- the new entry is not below another one of its amount
      rename_i ha _
      cases ha
      have hmem : (o.amount, k) ∈ db.outputAmounts :=
        ExtTreeMap.mem_iff_isSome_getElem?.mpr (by rw [hw]; rfl)
      have hlt := lt_of_appendDup hdup hmem
      have := Nat.compare_eq_lt.mp hlt
      omega
    · cases hw
      rw [hok]
      exact hord.le_height _ v hv
    · exact hord.ordered a j k v w hv hw hjk

variable {p : Primitives} {tx : Transaction}

theorem Stored.addOutputs {minerTx : Bool} {outs : List (TxOut × Nat)} {indices : List Nat}
    (h : BlockchainDb.addOutputs p tx minerTx txHash db outs = .ok (indices, db')) :
    Stored db db' (outs.countP fun x => storedAmount tx minerTx x.1 = 0) := by
  induction outs generalizing db indices with
  | nil =>
    cases h
    exact .of_eq rfl rfl rfl
  | cons x outs ih =>
    obtain ⟨⟨out, c⟩, h1, h⟩ := bind_eq_ok.mp h
    obtain ⟨⟨index, d⟩, h2, h⟩ := bind_eq_ok.mp h
    obtain ⟨⟨rest, d'⟩, h3, h⟩ := bind_eq_ok.mp h
    cases h
    have hone := Stored.addOutput h2
    rw [storedOutput_amount h1] at hone
    have := hone.trans (ih h3)
    rw [countP_cons, Nat.add_comm]
    simpa only [decide_eq_true_eq] using this

theorem Stored.addTransaction {blob : Bytes}
    (h : BlockchainDb.addTransaction p db tx blob txHash = .ok db') :
    Stored db db' (zeroOuts tx) := by
  obtain ⟨_, _, _, _, _, _, d, _, outputTxs, outputAmounts, _, -, -, hd, hout, -, hdb'⟩ :=
    addTransaction_ok h
  have hdat : Stored db d 0 := hd ▸ .of_eq rfl rfl rfl
  have hlast : Stored { d with outputTxs, outputAmounts } db' 0 := hdb' ▸ .of_eq rfl rfl rfl
  have hcount : (tx.vout.zipIdx.countP fun x => storedAmount tx (tx.vin.any isGen) x.1 = 0) =
      zeroOuts tx := by
    rw [zeroOuts]
    conv_rhs => rw [← zipIdx_map_fst 0 tx.vout, countP_map]
    rfl
  have hall := (hdat.trans (Stored.addOutputs hout)).trans hlast
  rw [hcount] at hall
  simpa using hall

theorem Stored.addTransactions {l : List (Hash × Transaction × Bytes)}
    (h : BlockchainDb.addTransactions p db l = .ok db') :
    Stored db db' (l.map fun x => zeroOuts x.2.1).sum := by
  induction l generalizing db with
  | nil =>
    cases h
    exact .of_eq rfl rfl rfl
  | cons x l ih =>
    obtain ⟨d, h1, h2⟩ := bind_eq_ok.mp h
    exact (Stored.addTransaction h1).trans (ih h2)

/-- An output of a version 1 transaction has no commitment, so its amount is not zero. -/
theorem zeroOuts_of_version_le_one (hv : tx.version ≤ 1)
    {outs : List (TxOut × Nat)} {minerTx : Bool} {indices : List Nat}
    (h : BlockchainDb.addOutputs p tx minerTx txHash db outs = .ok (indices, db')) :
    ∀ x ∈ outs, storedAmount tx minerTx x.1 ≠ 0 := by
  induction outs generalizing db db' indices with
  | nil => exact forall_mem_nil _
  | cons x outs ih =>
    obtain ⟨⟨out, c⟩, h1, h⟩ := bind_eq_ok.mp h
    obtain ⟨⟨index, d⟩, h₂, h⟩ := bind_eq_ok.mp h
    obtain ⟨⟨rest, d'⟩, h3, h⟩ := bind_eq_ok.mp h
    refine forall_mem_cons.mpr ⟨fun hzero => ?_, ih h3⟩
    obtain ⟨-, -, -, hc, -⟩ := addOutput_ok h₂
    refine hc ((storedOutput_amount h1).trans hzero) ?_
    have h2 : ¬ (minerTx ∧ tx.version = 2) := by
      rintro ⟨-, h2⟩
      rw [h2] at hv
      exact absurd hv (by decide)
    unfold storedOutput at h1
    rw [if_neg h2, if_neg (not_lt.mpr hv)] at h1
    cases h1
    rfl

/-- **What is counted for a coinbase is what is stored for it.** -/
theorem zeroOuts_coinbase {blob : Bytes}
    (h : BlockchainDb.addTransaction p db tx blob txHash = .ok db') (hgen : tx.vin.any isGen)
    (hv : tx.version ≤ 2) : zeroOuts tx = if tx.version = 2 then tx.vout.length else 0 := by
  unfold zeroOuts
  split
  · rename_i h2
    rw [countP_eq_length]
    simp [storedAmount, hgen, h2]
  rename_i h2
  obtain ⟨_, _, _, _, _, _, _, _, _, _, _, -, -, -, hout, -⟩ := addTransaction_ok h
  rw [countP_eq_zero]
  intro o ho
  obtain ⟨i, hi⟩ := getElem?_of_mem ho
  have hmem : (o, i) ∈ tx.vout.zipIdx := mem_zipIdx_iff_getElem?.mpr hi
  have hv' : tx.version ≤ 1 := by
    have h2' : tx.version.toNat ≠ 2 := fun e => h2 (UInt64.toNat_inj.mp e)
    rw [UInt64.le_iff_toNat_le] at hv ⊢
    simp only [UInt64.reduceToNat] at hv ⊢
    omega
  simpa using zeroOuts_of_version_le_one hv' hout _ hmem

/-! ## Along a chain -/

/-- The database holds a chain, newest block first: it was built with `add_block`. -/
inductive Holds (p : Primitives) : Lmdb → List StoredBlock → Prop
  | empty (pruningSeed : Option UInt32) : Holds p { pruningSeed } []
  | add {db db' : Lmdb} {chain : List StoredBlock} {e : StoredBlock}
      {txs : List (Transaction × Bytes)} {height : Nat} : Holds p db chain →
      txs.map Prod.fst = e.txs →
      addBlock p db e.bl
        ⟨e.weight, e.longTermWeight, e.cumulativeDifficulty, e.alreadyGeneratedCoins⟩ txs =
          .ok (height, db') →
      Holds p db' (e :: chain)

/-- `num_rct_outs` of a stored block. -/
def numRct (e : StoredBlock) : Nat :=
  (if e.bl.minerTx.version = 2 then e.bl.minerTx.vout.length else 0) +
    (e.txs.map fun tx => tx.vout.countP fun o => o.amount = 0).sum

/-- How many amount-zero outputs are stored for a block. -/
def storedRct (e : StoredBlock) : Nat := zeroOuts e.bl.minerTx + (e.txs.map zeroOuts).sum

/-- The count that is stored for the top of a chain. -/
def cumRct : List StoredBlock → Nat
  | [] => 0
  | e :: chain => numRct e + if e.bl.majorVersion < 4 then 0 else cumRct chain

/-- The amount-zero outputs of a chain. -/
def totalRct (chain : List StoredBlock) : Nat := (chain.map storedRct).sum

theorem endingAt_cons (e : StoredBlock) (chain : List StoredBlock) (h : Nat) :
    endingAt (e :: chain) h = if chain.length ≤ h then e :: chain else endingAt chain h := by
  unfold endingAt
  rw [length_cons, Nat.add_sub_cancel]
  split
  · rw [Nat.sub_eq_zero_of_le ‹_›, drop_zero]
  · rw [show chain.length - h = chain.length - 1 - h + 1 by omega, drop_succ_cons]

variable {chain : List StoredBlock}

theorem endingAt_of_length_le {h : Nat} (hh : chain.length ≤ h + 1) : endingAt chain h = chain := by
  rw [endingAt, show chain.length - 1 - h = 0 by omega, drop_zero]

/-- What the tables of a database say about the chain it holds. -/
structure Counts (db : Lmdb) (chain : List StoredBlock) : Prop where
  height : db.height = chain.length
  ordered : HeightsOrdered db
  cum : ∀ h < chain.length, ∃ bi, db.blockInfo[h]? = some bi ∧
    bi.cumRct = cumRct (endingAt chain h)
  total : ∀ h, db.zeroOutputs h = totalRct (endingAt chain h)

theorem Counts.prevCumRct (h : Counts db chain)
    {majorVersion : UInt8} {prev : Nat} (hprev : db.prevCumRct majorVersion = .ok prev) :
    prev = if majorVersion < 4 then 0 else cumRct chain := by
  unfold Lmdb.prevCumRct at hprev
  split at hprev
  · cases hprev
    rw [if_pos ‹_›]
  rw [if_neg ‹_›]
  split at hprev
  · cases hprev
  rename_i bi hbi
  cases hprev
  split at hbi
  · cases hbi
  rename_i hpos
  rw [h.height] at hpos hbi
  obtain ⟨bi', hbi', hcum⟩ := h.cum (chain.length - 1) (by omega)
  cases hbi.symm.trans hbi'
  rw [hcum, endingAt_of_length_le (by omega)]

/-- **Step: a block that is added.** -/
theorem Counts.addBlock (h : Counts db chain) {e : StoredBlock} {m : BlockMeta}
    {txs : List (Transaction × Bytes)} {height : Nat} (htxs : txs.map Prod.fst = e.txs)
    (hadd : BlockchainDb.addBlock p db e.bl m txs = .ok (height, db')) :
    Counts db' (e :: chain) := by
  obtain ⟨hlen, minerHash, d1, d2, -, h1, h2, h3⟩ := addBlock_ok hadd
  have hzip : ((e.bl.txHashes.zip txs).map fun x => zeroOuts x.2.1).sum =
      (e.txs.map zeroOuts).sum := by
    rw [← htxs, map_map]
    conv_rhs => rw [← map_snd_zip (Nat.le_of_eq hlen.symm), map_map]
    rfl
  have hstored : Stored db d2 (storedRct e) := by
    have := (Stored.addTransaction h1).trans (Stored.addTransactions h2)
    rwa [hzip] at this
  have hheight := (removeBlock_addBlock h3).1
  obtain ⟨-, prev, bi, _, _, hprev, hbi, -, -, happ, rfl⟩ := lmdbAddBlock_ok h3
  have hd2 : d2.height = chain.length := hstored.height.trans h.height
  have hnum : numRctOuts e.bl txs = numRct e := by
    rw [numRctOuts, numRct, ← htxs, map_map]
    rfl
  have hinfo : d2.blockInfo = db.blockInfo := hstored.blockInfo
  have hcum : bi.cumRct = cumRct (e :: chain) := by
    have hprev' : db.prevCumRct e.bl.majorVersion = .ok prev := by
      rw [← hprev, Lmdb.prevCumRct, Lmdb.prevCumRct, hstored.height, hinfo]
    rw [hbi, hnum, h.prevCumRct hprev', cumRct]
  refine ⟨by rw [hheight, hd2, length_cons],
    (hstored.ordered h.ordered).mono rfl (by omega), ?_, ?_⟩
  · intro i hi
    rw [length_cons] at hi
    rw [(Table.append_eq_some.mp happ).2, hd2, hinfo, ExtTreeMap.getElem?_insert, endingAt_cons]
    by_cases hi' : chain.length ≤ i
    · have hieq : chain.length = i := by omega
      rw [if_pos hi', if_pos (by rw [hieq]; exact ReflCmp.compare_self)]
      exact ⟨bi, rfl, hcum⟩
    · rw [if_neg hi', if_neg fun hc => hi' (Nat.le_of_eq (LawfulEqCmp.eq_of_compare hc))]
      exact h.cum i (by omega)
  · intro i
    show d2.zeroOutputs i = _
    rw [hstored.zeroOutputs, h.total, h.height, endingAt_cons]
    split
    · rw [endingAt_of_length_le (by omega), totalRct, totalRct, map_cons, sum_cons]
      omega
    · rfl

/-- **Run: a database that holds a chain.** -/
theorem Holds.counts (h : Holds p db chain) : Counts db chain := by
  induction h with
  | empty seed =>
    refine ⟨rfl, ⟨fun k ok hk => ?_, fun a i j v w hv => ?_⟩, fun h hh => ?_, fun h => ?_⟩
    · simp at hk
    · simp at hv
    · simp at hh
    · simp [Lmdb.zeroOutputs, Table.count_eq_countP, endingAt, totalRct]
  | add _ htxs hadd ih => exact ih.addBlock htxs hadd

/-! ## When the counts agree -/

/-- Amounts that `storedAmount` hides are zero already. -/
def GenAmountsZero (tx : Transaction) : Prop :=
  tx.version = 2 → tx.vin.any isGen → ∀ o ∈ tx.vout, o.amount = 0

theorem countP_le_zeroOuts (tx : Transaction) :
    (tx.vout.countP fun o => o.amount = 0) ≤ zeroOuts tx := by
  apply countP_mono_left
  intro o _ ho
  have ho' : o.amount = 0 := of_decide_eq_true ho
  simp [storedAmount, ho']

theorem zeroOuts_eq_iff (tx : Transaction) :
    (tx.vout.countP fun o => o.amount = 0) = zeroOuts tx ↔ GenAmountsZero tx := by
  unfold zeroOuts
  constructor
  · intro h h2 hgen
    have hall : (tx.vout.countP fun o => storedAmount tx (tx.vin.any isGen) o = 0) =
        tx.vout.length := by
      rw [countP_eq_length]
      simp [storedAmount, h2, hgen]
    rw [hall, countP_eq_length] at h
    exact fun o ho => of_decide_eq_true (h o ho)
  · intro h
    apply countP_congr
    intro o ho
    unfold storedAmount
    split
    · rename_i hc
      simp [h hc.2 hc.1 o ho]
    · rfl

/-- Sums of numbers with a bound for each agree if and only if all of them do. -/
theorem sum_eq_iff {α : Type} {f g : α → Nat} (hle : ∀ a, f a ≤ g a) (l : List α) :
    (l.map f).sum ≤ (l.map g).sum ∧ ((l.map f).sum = (l.map g).sum ↔ ∀ a ∈ l, f a = g a) := by
  induction l with
  | nil => simp
  | cons a l ih =>
    have ha := hle a
    obtain ⟨hsum, hiff⟩ := ih
    simp only [map_cons, sum_cons, forall_mem_cons, ← hiff]
    omega

/-- The coinbase of a block: one `txin_gen`, and a version that can be parsed. -/
structure CoinbaseOk (e : StoredBlock) : Prop where
  gen : e.bl.minerTx.vin.any isGen
  version : e.bl.minerTx.version ≤ 2

theorem numRct_le_storedRct {e : StoredBlock}
    (h : zeroOuts e.bl.minerTx = if e.bl.minerTx.version = 2 then e.bl.minerTx.vout.length else 0) :
    numRct e ≤ storedRct e ∧ (numRct e = storedRct e ↔ ∀ tx ∈ e.txs, GenAmountsZero tx) := by
  obtain ⟨hle, hiff⟩ := sum_eq_iff countP_le_zeroOuts e.txs
  simp only [zeroOuts_eq_iff] at hiff
  rw [numRct, storedRct, h, ← hiff]
  omega

theorem Holds.coinbase (h : Holds p db chain) (hok : ∀ e ∈ chain, CoinbaseOk e) : ∀ e ∈ chain,
      zeroOuts e.bl.minerTx = if e.bl.minerTx.version = 2 then e.bl.minerTx.vout.length else 0 := by
  induction h with
  | empty seed => exact forall_mem_nil _
  | @add _ _ _ e _ _ _ _ hadd ih =>
    rw [forall_mem_cons] at hok ⊢
    obtain ⟨-, minerHash, d1, -, -, h1, -, -⟩ := addBlock_ok hadd
    refine ⟨?_, ih hok.2⟩
    have hv : e.bl.minerTx.recordSizes.version = e.bl.minerTx.version := rfl
    have hcount := zeroOuts_coinbase h1 hok.1.gen (hv ▸ hok.1.version)
    rwa [hv] at hcount

/-- **The law of the counts.** -/
theorem cumRct_eq_iff (hle : ∀ e ∈ chain, numRct e ≤ storedRct e) :
    (∀ e lower, e :: lower <:+ chain → cumRct (e :: lower) = totalRct (e :: lower)) ↔
      ∀ e lower, e :: lower <:+ chain →
        numRct e = storedRct e ∧ (e.bl.majorVersion < 4 → totalRct lower = 0) := by
  constructor
  · intro h e lower hsuf
    have hlower : cumRct lower = totalRct lower := by
      cases lower with
      | nil => rfl
      | cons e' lower' => exact h e' lower' ((suffix_cons e _).trans hsuf)
    have htop := h e lower hsuf
    have := hle e (hsuf.subset mem_cons_self)
    rw [cumRct, totalRct, map_cons, sum_cons, ← totalRct, hlower] at htop
    split at htop
    · exact ⟨by omega, fun _ => by omega⟩
    rename_i hv
    exact ⟨by omega, fun hv' => absurd hv' hv⟩
  · intro h e lower
    induction lower generalizing e with
    | nil =>
      intro hsuf
      obtain ⟨hnum, -⟩ := h e [] hsuf
      simp [cumRct, totalRct, hnum]
    | cons e' lower ih =>
      intro hsuf
      have hlower := ih e' ((suffix_cons e _).trans hsuf)
      obtain ⟨hnum, hrestart⟩ := h e _ hsuf
      rw [cumRct, totalRct, map_cons, sum_cons, ← totalRct, hnum, hlower]
      split
      · rw [hrestart ‹_›]
      · rfl

theorem forall_endingAt {Q : List StoredBlock → Prop} :
    (∀ h < chain.length, Q (endingAt chain h)) ↔
      ∀ e lower, e :: lower <:+ chain → Q (e :: lower) := by
  constructor
  · intro hq e lower hsuf
    obtain ⟨upper, rfl⟩ := hsuf
    have := hq lower.length (by rw [length_append, length_cons]; omega)
    rwa [endingAt, length_append, length_cons,
      show upper.length + (lower.length + 1) - 1 - lower.length = upper.length by omega,
      drop_left] at this
  · intro hq h hh
    have hlen := endingAt_length hh
    cases hend : endingAt chain h with
    | nil =>
      rw [hend] at hlen
      cases hlen
    | cons e lower =>
      apply hq e lower
      rw [← hend]
      exact drop_suffix _ _

/-! ## Chains of a node -/

theorem vin_of_prevalidated {b : Block} {height : Nat} {hfVersion : UInt8}
    (h : prevalidateMinerTransaction b height hfVersion = true) : b.minerTx.vin.any isGen := by
  unfold prevalidateMinerTransaction at h
  split at h
  · rename_i hvin
    rw [hvin]
    rfl
  · cases h

/-- The coinbases on the main chain went through `prevalidate_miner_transaction`. -/
theorem coinbaseOk_of_run {P : Type} {n : Node P} {K : Set Block} {X : Set (Hash × Transaction)}
    {s : Blockchain P} (hK : ∀ b ∈ K, b.minerTx.version ≤ 2) (hrun : NodeRun n K X s) :
    ∀ e ∈ s.chain, CoinbaseOk e := by
  refine hrun.invariant (I := fun s => ∀ e ∈ s.chain, CoinbaseOk e) (fun s hs => ?_)
    fun s s' hstep hs => ?_
  · rw [hs.chain]
    exact forall_mem_nil _
  · cases hstep with
    | add hb _ h =>
      have hadd := handleBlockToMainChain_ok h
      obtain ⟨e, hchain, rfl, -⟩ := hadd.chain
      rw [hchain]
      exact forall_mem_cons.mpr ⟨⟨vin_of_prevalidated hadd.prevalidated, hK _ hb⟩, hs⟩
    | pop h =>
      intro e he
      apply hs e
      rw [h.chain]
      exact mem_cons_of_mem _ he
    | file _ h => exact h.kept.chain ▸ hs
    | other hchain _ _ _ => exact hchain ▸ hs
    | forks | unfile | reset | query | cleanup => exact hs

/-- **When the stored counts are the numbers of stored outputs.** Take any chain of a node, and the
database that was built with its blocks. The count that is read at a height is the number of
amount-zero outputs stored up to it, and the entry of the distribution, for every height if and
only if two things hold: below a block of version 1, 2 or 3 no amount-zero output is stored, and a
version 2 transaction with a `txin_gen` that is not the coinbase pays only amounts of zero. -/
theorem cumulative_rct_outputs_iff {P : Type} {n : Node P} {K : Set Block}
    {X : Set (Hash × Transaction)} {s : Blockchain P} (hK : ∀ b ∈ K, b.minerTx.version ≤ 2)
    (hrun : NodeRun n K X s) {p : Primitives} {db : Lmdb} (hdb : Holds p db s.chain)
    {pages : Nat → Nat × Nat} (hpages : PagesCover pages db.height) :
    (∀ h < db.height, ∃ cumRct, db.getBlockCumulativeRctOutputs pages [h] = .ok [cumRct] ∧
        cumRct = db.zeroOutputs h ∧
        ∀ fromHeight toHeight, fromHeight ≤ h → (toHeight = 0 ∨ h ≤ toHeight) →
          ∃ distribution, db.getOutputDistribution 0 fromHeight toHeight = some distribution ∧
            distribution[h - fromHeight]? = some cumRct) ↔
      (∀ e lower, e :: lower <:+ s.chain → e.bl.majorVersion < 4 →
          ∀ e' ∈ lower, storedRct e' = 0) ∧
        ∀ e ∈ s.chain, ∀ tx ∈ e.txs, GenAmountsZero tx := by
  have hc := hdb.counts
  have hcoinbase := hdb.coinbase (coinbaseOk_of_run hK hrun)
  have hcum : ∀ h < db.height, ∃ bi, db.blockInfo[h]? = some bi ∧
      bi.cumRct = cumRct (endingAt s.chain h) := hc.height ▸ hc.cum
  have hlaw : (∀ h < s.chain.length, cumRct (endingAt s.chain h) = totalRct (endingAt s.chain h)) ↔
      (∀ e lower, e :: lower <:+ s.chain → e.bl.majorVersion < 4 →
          ∀ e' ∈ lower, storedRct e' = 0) ∧
        ∀ e ∈ s.chain, ∀ tx ∈ e.txs, GenAmountsZero tx := by
    rw [forall_endingAt (Q := fun c => cumRct c = totalRct c),
      cumRct_eq_iff fun e he => (numRct_le_storedRct (hcoinbase e he)).1]
    simp only [totalRct, List.sum_eq_zero_iff_forall_eq_nat, List.forall_mem_map]
    constructor
    · intro h
      refine ⟨fun e lower hsuf => (h e lower hsuf).2, fun e he => ?_⟩
      obtain ⟨upper, lower, hchain⟩ := List.append_of_mem he
      exact (numRct_le_storedRct (hcoinbase e he)).2.mp (h e lower ⟨upper, hchain.symm⟩).1
    · rintro ⟨hbelow, hgen⟩ e lower hsuf
      have he := hsuf.subset mem_cons_self
      exact ⟨(numRct_le_storedRct (hcoinbase e he)).2.mpr (hgen e he), hbelow e lower hsuf⟩
  rw [← hlaw, hc.height]
  refine forall₂_congr fun h hh => ?_
  have hh' : h < db.height := hc.height ▸ hh
  have hread : db.getBlockCumulativeRctOutputs pages [h] = .ok [cumRct (endingAt s.chain h)] :=
    getBlockCumulativeRctOutputs_eq hpages hcum fun i hi => mem_singleton.mp hi ▸ hh'
  constructor
  · rintro ⟨c, hok, hzero, -⟩
    cases hread.symm.trans hok
    rw [hzero, hc.total]
  · intro heq
    refine ⟨_, hread, heq.trans (hc.total h).symm, fun fromHeight toHeight hfrom hto => ?_⟩
    obtain ⟨distribution, hdist, hget⟩ :=
      getOutputDistribution_entries (hc.ordered.ordered 0) (hfrom.trans_lt hh') toHeight
    exact ⟨distribution, hdist, by rw [hget h hh' hfrom hto, heq, ← hc.total, Lmdb.zeroOutputs]⟩

/-! ## Samples -/

/-- The database that is built from a chain, newest block first. -/
def buildDb (p : Primitives) : List StoredBlock → Except DbException Lmdb
  | [] => .ok {}
  | e :: chain => do
    let db ← buildDb p chain
    let (_, db) ← addBlock p db e.bl
      ⟨e.weight, e.longTermWeight, e.cumulativeDifficulty, e.alreadyGeneratedCoins⟩
      (e.txs.map fun tx => (tx, (txToBlob tx).1.1))
    .ok db

theorem holds_buildDb (h : buildDb p chain = .ok db) : Holds p db chain := by
  induction chain generalizing db with
  | nil =>
    cases h
    exact .empty none
  | cons e chain ih =>
    obtain ⟨d, h1, h⟩ := bind_eq_ok.mp h
    obtain ⟨⟨height, d'⟩, h2, h⟩ := bind_eq_ok.mp h
    cases h
    exact .add (ih h1) (by simp [map_map, Function.comp_def]) h2

/-- A block for examples with a coinbase of version 2. -/
def sampleRctBlock (version : UInt8) (height : Nat) (nonce prev : UInt8) (reward : UInt64) :
    Block :=
  let b := sampleBlock version height nonce prev reward
  { b with minerTx := { b.minerTx with version := 2 } }

/-- A genesis block, and two blocks with version 2 coinbases at the versions 1 and 2. -/
def sampleRctBlocks : List Block :=
  [sampleBlock 1 0 1 0 17592186044415, sampleRctBlock 1 1 2 1 17592169267200,
    sampleRctBlock 2 2 3 2 1001]

/-- A node on the mainnet schedule after the first blocks of these. -/
def sampleRctNode (count : Nat) : Blockchain Unit :=
  (sampleRctBlocks.take count).foldl (sampleSubmit (sampleNode 0)) { txPool := () }

theorem sampleRctNode_run (count : Nat) :
    NodeRun (sampleNode 0) {b | b ∈ sampleRctBlocks} ∅ (sampleRctNode count) :=
  ⟨_, ⟨rfl, rfl, rfl, rfl⟩, operations_sampleSubmit _ (fun _ hb => mem_of_mem_take hb) _⟩

/-- Two amount-zero outputs are stored up to height 2, and the count that is read there is 1. -/
theorem cumulative_rct_outputs_restart :
    NodeRun (sampleNode 0) {b | b ∈ sampleRctBlocks} ∅ (sampleRctNode 3) ∧
      ∃ db, buildDb samplePrimitives (sampleRctNode 3).chain = .ok db ∧
        Holds samplePrimitives db (sampleRctNode 3).chain ∧
        (db.getBlockCumulativeRctOutputs (fun k => (0, k + 1)) [2]).toOption = some [1] ∧
        db.zeroOutputs 2 = 2 ∧ db.getOutputDistribution 0 0 0 = some [0, 1, 2] := by
  refine ⟨sampleRctNode_run 3, ?_⟩
  have hrun : (buildDb samplePrimitives (sampleRctNode 3).chain).toOption.map (fun db =>
      ((db.getBlockCumulativeRctOutputs (fun k => (0, k + 1)) [2]).toOption, db.zeroOutputs 2,
        db.getOutputDistribution 0 0 0)) = some (some [1], 2, some [0, 1, 2]) := by
    decide +kernel
  obtain ⟨db, hdb, hvalues⟩ := Option.map_eq_some_iff.mp hrun
  rw [toOption_eq_some] at hdb
  simp only [Prod.mk.injEq] at hvalues
  exact ⟨db, hdb, holds_buildDb hdb, hvalues⟩

/-- With one of these coinbases, on top, the count that is read is the number of outputs. -/
theorem cumulative_rct_outputs_sample :
    ∃ db, Holds samplePrimitives db (sampleRctNode 2).chain ∧ db.height = 2 ∧
      ∀ h < db.height, ∃ cumRct,
        db.getBlockCumulativeRctOutputs (fun k => (0, k + 1)) [h] = .ok [cumRct] ∧
        cumRct = db.zeroOutputs h ∧
        ∀ fromHeight toHeight, fromHeight ≤ h → (toHeight = 0 ∨ h ≤ toHeight) →
          ∃ distribution, db.getOutputDistribution 0 fromHeight toHeight = some distribution ∧
            distribution[h - fromHeight]? = some cumRct := by
  have hrun : (buildDb samplePrimitives (sampleRctNode 2).chain).toOption.isSome := by
    decide +kernel
  have hlen : (sampleRctNode 2).chain.length = 2 := by decide +kernel
  have hlower : ∀ e ∈ (sampleRctNode 2).chain.tail, storedRct e = 0 := by decide +kernel
  have htxs : ∀ e ∈ (sampleRctNode 2).chain, e.txs = [] := by decide +kernel
  have hversions : ∀ b ∈ sampleRctBlocks, b.minerTx.version ≤ 2 := by decide
  obtain ⟨db, hdb⟩ := Option.isSome_iff_exists.mp hrun
  have hholds := holds_buildDb (toOption_eq_some.mp hdb)
  refine ⟨db, hholds, hholds.counts.height.trans hlen, ?_⟩
  refine (cumulative_rct_outputs_iff hversions (sampleRctNode_run 2) hholds
    (sample_pagesCover _)).mpr ⟨fun e lower hsuf _ e' he' => ?_, fun e he tx htx => ?_⟩
  · obtain ⟨upper, hchain⟩ := hsuf
    refine hlower e' ?_
    rw [← hchain]
    cases upper with
    | nil => exact he'
    | cons _ upper => exact mem_append_right _ (mem_cons_of_mem _ he')
  · rw [htxs e he] at htx
    cases htx

end BlockchainDb

end Hashmonkey.Db
