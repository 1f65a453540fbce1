import Hashmonkey.Core.Recorded

/-!
# The coins recorded with alternative blocks (`blockchain.cpp`)

`handle_alternative_block` notes with a block the coins generated up to it, and the main chain does
so when the block is added to it. The first adds what the coinbase transaction pays, which includes
the fees of the transactions of the block; the second adds the base reward that
`validate_miner_transaction` leaves, without the fees.

* `coinsOf`: the coins of a path if its coinbase transactions pay base rewards only;
* `NoFees`: no transaction of the blocks in question pays a fee.

Results: **without fees both record the same coins** for a block, in all states of a run
(`alt_coins_eq_main`). A block with a fee gets different amounts (`alt_coins_differ`).
-/

namespace Hashmonkey.Core

open Basic Lib List

variable {P : Type} {n : Node P} {K : Set Block} {X : Set (Hash × Transaction)}
  {s s' : Blockchain P}

/-! ## Blocks that are added -/

/-- No transaction of the blocks in `K` and of the supplements in `X` pays a fee. -/
structure NoFees (n : Node P) (K : Set Block) (X : Set (Hash × Transaction)) : Prop where
  pool : ∀ b ∈ K, ∀ txId ∈ b.txHashes, ∀ pool taken pool',
    n.txPool.takeTx pool txId = some (taken, pool') → taken.fee = 0
  supplement : ∀ x ∈ X, getTxFee x.2 = 0

/-- The loop over the transactions has met no fee, and has supplements from `X` left. -/
def TakenTxs.Free (X : Set (Hash × Transaction)) (t : TakenTxs P) : Prop :=
  (∀ p ∈ t.txs, p.1.fee = 0) ∧ ∀ x ∈ t.extraBlockTxs, x ∈ X

theorem checkTaken_free {fast inPool : Bool} {p : PoolTx} {t t' : TakenTxs P}
    (h : checkTaken n s fast p inPool t = (t', none)) (hfee : p.fee = 0) (ht : t.Free X) :
    t'.Free X := by
  unfold checkTaken at h
  dsimp only at h
  split at h
  · cases h
  cases h
  refine ⟨?_, ht.2⟩
  exact forall_mem_append.mpr ⟨ht.1, forall_mem_singleton.mpr hfee⟩

variable {b : Block}

theorem takeTxs_free (hn : NoFees n K X) (hb : b ∈ K) {fast : Bool} {ids : List Hash}
    (hids : ∀ txId ∈ ids, txId ∈ b.txHashes) {t t' : TakenTxs P}
    (h : takeTxs n s fast ids t = (t', none)) (ht : t.Free X) : t'.Free X := by
  induction ids generalizing t with
  | nil =>
    cases h
    exact ht
  | cons txId ids ih =>
    rw [forall_mem_cons] at hids
    rw [takeTxs] at h
    split at h
    · rename_i t1 hone
      refine ih hids.2 h ?_
      unfold takeTx at hone
      split at hone
      · cases hone
      split at hone
      · rename_i hpool
        exact checkTaken_free hone (hn.pool b hb txId hids.1 _ _ _ hpool) ht
      split at hone
      · cases hone
      rename_i tx hlookup
      obtain ⟨l, l', hl, -⟩ := lookup_eq_some_iff.mp hlookup
      have hmem : (txId, tx) ∈ X := ht.2 _ (hl ▸ mem_append_right _ mem_cons_self)
      refine checkTaken_free hone (hn.supplement _ hmem) ⟨ht.1, fun x hx => ?_⟩
      exact ht.2 x (mem_of_mem_filter hx)
    · cases h

/-- A block without fees that is added has reports of zero fees. -/
theorem handleBlockToMainChain_free (hn : NoFees n K X) (hb : b ∈ K)
    {sup : List (Hash × Transaction)} (hsup : ∀ x ∈ sup, x ∈ X) {r : BlockReport}
    (h : handleBlockToMainChain n s b sup = (s', .ok r)) : ∀ fee ∈ r.fees, fee = 0 := by
  unfold handleBlockToMainChain at h
  split at h
  · cases h
  dsimp only at h
  split at h
  · cases h
  split at h
  · cases h
  rename_i t htake
  have hfree : t.Free X :=
    takeTxs_free hn hb (fun _ hid => hid) htake ⟨forall_mem_nil _, hsup⟩
  unfold storeBlock at h
  dsimp only at h
  iterate 2 (split at h; · cases h)
  split at h
  · cases h
  cases h
  exact forall_mem_map.mpr hfree.1

/-- Without fees the base reward is what the coinbase transaction pays. -/
theorem validateMinerTransaction_free {weight coins median : UInt64} {version : UInt8}
    {r : MinerReward} (h : validateMinerTransaction b weight 0 coins median version = some r) :
    r.baseReward = getOutsMoneyAmount b.minerTx.toTransactionPrefix := by
  unfold validateMinerTransaction at h
  dsimp only at h
  split at h
  · cases h
  split at h
  · cases h
  split at h
  · cases h
  split at h
  · split at h
    · cases h
    · rename_i heq
      cases h
      rw [not_not, UInt64.add_zero] at heq
      exact heq
  · split at h
    · cases h
    · cases h
      exact UInt64.sub_zero _

theorem sum_toNat_zero {fees : List UInt64} (h : ∀ fee ∈ fees, fee = 0) :
    (fees.map UInt64.toNat).sum = 0 := by
  induction fees with
  | nil => rfl
  | cons fee fees ih =>
    rw [forall_mem_cons] at h
    rw [map_cons, sum_cons, h.1, ih h.2]
    rfl

/-- **A block without fees** adds what its coinbase transaction pays. -/
theorem Added.coins_free {r : BlockReport} (h : Added n s b s' r)
    (hfree : ∀ fee ∈ r.fees, fee = 0) {e : StoredBlock} (he : s'.chain = e :: s.chain) :
    e.alreadyGeneratedCoins = nextGeneratedCoins s.topGeneratedCoins
      (getOutsMoneyAmount e.bl.minerTx.toTransactionPrefix) := by
  obtain ⟨fee, hfee, hval⟩ := h.validated
  obtain ⟨e', hchain, rfl, -, hcoins⟩ := h.chain
  cases (List.cons.inj (hchain.symm.trans he)).1
  have hzero : fee = 0 := by
    apply UInt64.toNat_inj.mp
    rw [hfee, sum_toNat_zero hfree]
    rfl
  rw [hzero] at hval
  rw [hcoins, h.coins, validateMinerTransaction_free hval]

/-! ## Coins along a path -/

/-- The coins generated up to the end of a path whose coinbase transactions pay base rewards. -/
def coinsOf : List Block → UInt64
  | [] => 0
  | b :: path =>
    nextGeneratedCoins (coinsOf path) (getOutsMoneyAmount b.minerTx.toTransactionPrefix)

/-- Both the main chain and the table record the coins of paths. -/
abbrev CoinsRecorded (n : Node P) (K : Set Block) (s : Blockchain P) : Prop :=
  Recorded n K StoredBlock.alreadyGeneratedCoins BlockExtendedInfo.alreadyGeneratedCoins coinsOf s

theorem CoinsRecorded.top (h : CoinsRecorded n K s) : s.topGeneratedCoins = coinsOf s.blocks := by
  have hstored := h.stored
  rw [Blockchain.topGeneratedCoins, Blockchain.blocks]
  cases hc : s.chain with
  | nil => rfl
  | cons e rest => exact hstored [] e rest hc

/-- The step lemma: blocks that get onto the main chain or into the table record the coins of their
paths. -/
theorem CoinsRecorded.step (hK : DistinctIds n K) (hn : NoFees n K X) (h : CoinsRecorded n K s)
    (hstep : NodeStep n K X s s') : CoinsRecorded n K s' := by
  refine Recorded.step hK.collisionFree
    (fun _ _ _ hp hp' => congrArg coinsOf (hK.path_eq hp hp')) h (fun d => d.2.2) (fun _ _ => rfl)
    (fun _ => rfl) hstep ?_ ?_
  · intro b sup r hb hsup hadd e he
    have hfree := handleBlockToMainChain_free hn hb hsup hadd
    rw [(handleBlockToMainChain_ok hadd).coins_free hfree he, h.top, coinsOf]
  · intro b a path hst hcoins
    rw [hst.alreadyGeneratedCoins, hcoins, coinsOf]

theorem NodeRun.coinsRecorded (hK : DistinctIds n K) (hn : NoFees n K X) (h : NodeRun n K X s) :
    CoinsRecorded n K s :=
  h.invariant (fun _ hfresh => Recorded.fresh hfresh) fun _ _ hstep hs => hs.step hK hn hstep

/-- **Without fees the coins recorded with an alternative block are those of the main chain.** An
entry of the table in some state of a run and an entry of the main chain in a later state, for one
block, agree. -/
theorem alt_coins_eq_main (n : Node P) (K : Set Block) (X : Set (Hash × Transaction))
    (hK : DistinctIds n K) (hn : NoFees n K X) (s s' : Blockchain P) (hs : NodeRun n K X s)
    (hs' : Operations n K X s s') :
    ∀ x ∈ s.altBlocks, ∀ e ∈ s'.chain, e.bl = x.2.bl →
      e.alreadyGeneratedCoins = x.2.alreadyGeneratedCoins := by
  intro x hx e he hbl
  have hbefore := hs.coinsRecorded hK hn
  have hafter : CoinsRecorded n K s' := by
    obtain ⟨s0, hfresh, hops⟩ := hs
    exact NodeRun.coinsRecorded hK hn ⟨s0, hfresh, hops.trans hs'⟩
  obtain ⟨hid, -, path, hpath, -, halt⟩ := hbefore.filed x hx
  obtain ⟨upper, lower, hsplit⟩ := append_of_mem he
  -- both paths end in the block
  have hlow := hafter.path_drop upper.length
  rw [hsplit, drop_left, map_cons, topId_cons, hbl, ← hid] at hlow
  rw [hafter.stored upper e lower hsplit, halt, hbl, hK.path_eq hlow hpath]

/-- The second branch becomes the main chain. -/
theorem alt_coins_eq_main_reorganised :
    ∃ x ∈ sampleFork.altBlocks,
      ∃ e ∈ (sampleSubmit (sampleNode 0) sampleFork (sampleBlock 2 2 4 3 1000)).chain,
        e.bl = x.2.bl ∧ e.alreadyGeneratedCoins = x.2.alreadyGeneratedCoins := by
  have hids : DistinctIds (sampleNode 0) {b | b ∈ sampleBlocks} := by
    refine ⟨?_, sampleBlocks_collisionFree.ne_null⟩
    change ∀ b ∈ sampleBlocks, ∀ b' ∈ sampleBlocks, _
    decide
  have hfees : NoFees (sampleNode 0) {b | b ∈ sampleBlocks} ∅ := by
    refine ⟨?_, fun x hx => hx.elim⟩
    intro b _ txId _ pool taken pool' htake
    cases htake
  have hrun : NodeRun (sampleNode 0) {b | b ∈ sampleBlocks} ∅ sampleFork :=
    ⟨_, ⟨rfl, rfl, rfl, rfl⟩,
      operations_sampleSubmit _ (fun b hb => mem_of_mem_take hb) _⟩
  have hlater : Operations (sampleNode 0) {b | b ∈ sampleBlocks} ∅ sampleFork
      (sampleSubmit (sampleNode 0) sampleFork (sampleBlock 2 2 4 3 1000)) :=
    operations_sampleSubmit [sampleBlock 2 2 4 3 1000]
      (forall_mem_singleton.mpr (by simp [sampleBlocks])) _
  have hblock : ∃ x ∈ sampleFork.altBlocks,
      ∃ e ∈ (sampleSubmit (sampleNode 0) sampleFork (sampleBlock 2 2 4 3 1000)).chain,
        e.bl = x.2.bl := by
    decide +kernel
  obtain ⟨x, hx, e, he, hbl⟩ := hblock
  exact ⟨x, hx, e, he, hbl, alt_coins_eq_main (sampleNode 0) _ _ hids hfees _ _ hrun hlater x hx e
    he hbl⟩

/-- A transaction for examples that pays a fee of 5. -/
def sampleFeeTx : Transaction :=
  { unlockTime := 0
    vin := [.key ⟨17592186044415, [0], Blob.fill 8⟩]
    vout := [⟨17592186044410, .key (Blob.fill 2)⟩] }

/-- A node for examples with this transaction in its pool. The id of the third block is among the
precomputed ones, so that the inputs of the transaction are not checked. -/
def sampleFeeNode : Node Unit :=
  { sampleNode 0 with
    blocksHashCheck := [(nullHash, 0), (nullHash, 0), (Blob.fill 4, 0)]
    txPool :=
      { (sampleNode 0).txPool with
        takeTx := fun _ txId =>
          if txId = Blob.fill 9 then some (⟨sampleFeeTx, 100, 5, false, nullHash⟩, ()) else none } }

/-- A block for examples with the transaction. -/
def sampleFeeBlock : Block := { sampleBlock 2 2 4 3 1000 with txHashes := [Blob.fill 9] }

/-- **A block with a fee**, filed as an alternative and then part of the main chain: the table had
noted 5 coins more for it. -/
theorem alt_coins_differ :
    let s := (sampleBlocks.take 3).foldl (sampleSubmit sampleFeeNode) { txPool := () }
    (acceptAlternative sampleFeeNode s sampleFeeBlock []).2.toOption.map
        (fun a => (a.bei.bl.nonce, a.bei.alreadyGeneratedCoins)) = some (4, 35184355312615) ∧
      (addNewBlock sampleFeeNode 2 s sampleFeeBlock []).map
        (fun r => (r.2, r.1.blocks.map fun b => b.nonce, r.1.topGeneratedCoins)) =
        some (true, [4, 3, 1], 35184355312610) := by
  decide +kernel

end Hashmonkey.Core
