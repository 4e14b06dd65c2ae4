import Candypool.Chain.OrphanBlock

/-! The clock in `ConnectBlock`: the checks of a block are made again when it is connected, and one of
them compares its time with the clock. -/
namespace Candypool.Chain
open Candypool.Prime Candypool.Core Candypool.Coins

/-- The block's time is more than two hours ahead of the clock. -/
def TooLate (block : CBlock) (nAdjustedTime : ℤ) : Prop :=
  (block.nTime : ℤ) > nAdjustedTime+2*60*60

instance (block : CBlock) (nAdjustedTime : ℤ) : Decidable (TooLate block nAdjustedTime) :=
  inferInstanceAs (Decidable (_ > _))

/-- The same call at another time. -/
def atTime (io : ConnectIO) (nAdjustedTime : ℤ) : ConnectIO := { io with nAdjustedTime := nAdjustedTime }

/-- The same outcomes of `SetBestChain` with the clock of its `ConnectBlock` calls at another time. -/
def chainAtTime (io : ChainIO) (nAdjustedTime : ℤ) : ChainIO :=
  { io with connect := fun p => atTime (io.connect p) nAdjustedTime }

section Clock
variable {V : Type} [CCoinsView V] {cons : Consensus} {block : CBlock}

/-- A block that passed its checks once passes them whenever its time is not too late. -/
theorem checkBlock_at {nAcceptTime : ℤ}
    (haccepted : block.checkBlock cons.ext nAcceptTime true = .ok ()) (nAdjustedTime : ℤ) :
    block.checkBlock cons.ext nAdjustedTime true =
      if (block.nTime : ℤ) > nAdjustedTime+2*60*60 then .error .timeTooFar else .ok () := by
  rw [CBlock.checkBlock] at haccepted ⊢
  split at haccepted
  · cases haccepted
  rename_i hsize
  split at haccepted
  · cases haccepted
  rename_i hlocks
  split at haccepted
  · cases haccepted
  split at haccepted
  · cases haccepted
  rename_i hfirst
  split at haccepted
  · cases haccepted
  rename_i hmore
  rw [if_neg hsize, if_neg hlocks, if_neg hfirst, if_neg hmore, haccepted]

theorem checkBlock_tooLate {nAcceptTime nAdjustedTime : ℤ}
    (haccepted : block.checkBlock cons.ext nAcceptTime true = .ok ())
    (hlate : TooLate block nAdjustedTime) :
    block.checkBlock cons.ext nAdjustedTime true = .error .timeTooFar :=
  (checkBlock_at haccepted nAdjustedTime).trans (if_pos hlate)

theorem checkBlock_inTime {nAcceptTime nAdjustedTime : ℤ}
    (haccepted : block.checkBlock cons.ext nAcceptTime true = .ok ())
    (htime : ¬ TooLate block nAdjustedTime) :
    block.checkBlock cons.ext nAdjustedTime true = .ok () :=
  (checkBlock_at haccepted nAdjustedTime).trans (if_neg htime)

theorem connectTx_error {env : LoopEnv} {tx : CTransaction} {s s' : BlockLoop V}
    {e : CheckBlockError} : connectTx cons env tx s ≠ (some (.checkBlock e), s') := by
  have hupdate : ∀ s : BlockLoop V, updateStep cons env tx s ≠ (some (.checkBlock e), s') := by
    intro s hstep
    rw [updateStep] at hstep
    split at hstep
    all_goals cases hstep
  intro hstep
  simp only [connectTx] at hstep
  split at hstep
  · cases hstep
  split at hstep
  · split at hstep
    · cases hstep
    · exact hupdate _ hstep
  split at hstep
  · cases hstep
  -- with and without the signature operations of pay-to-script-hash
  split at hstep
  · split at hstep
    · cases hstep
    split at hstep
    · cases hstep
    split at hstep
    · cases hstep
    · exact hupdate _ hstep
  · split at hstep
    · cases hstep
    split at hstep
    · cases hstep
    · exact hupdate _ hstep

/-- No transaction fails with an error of the block checks. -/
theorem connectTxs_error {env : LoopEnv} {vtx : List CTransaction} {s s' : BlockLoop V}
    {e : CheckBlockError} : connectTxs cons env vtx s ≠ (some (.checkBlock e), s') := by
  induction vtx generalizing s with
  | nil =>
    intro h
    cases h
  | cons tx vtx ih =>
    intro h
    rw [connectTxs] at h
    split at h
    · rename_i e' s1 htx
      obtain ⟨he,-⟩ := Prod.mk.inj h
      rw [Option.some.inj he] at htx
      exact connectTx_error htx
    · exact ih h

/-- Nor do the writes after a valid block. -/
theorem recordBlock_error {io : ConnectIO} {ptr : BlockPtr} {pindex : CBlockIndex} {view : V}
    {blockundo : CBlockUndo} {e : CheckBlockError} :
    (recordBlock cons io ptr pindex view blockundo).error ≠ some (.checkBlock e) := by
  intro herror
  simp only [recordBlock] at herror
  split_ifs at herror
  all_goals cases herror

variable {mapBlockIndex : BlockPtr → Option CBlockIndex} {ptr : BlockPtr} {pindex : CBlockIndex}
  {view : V} {nAcceptTime : ℤ}

/-- An accepted block whose time is too late is condemned before the view is touched. -/
theorem connectBlock_tooLate (haccepted : block.checkBlock cons.ext nAcceptTime true = .ok ())
    (io : ConnectIO) (hlate : TooLate block io.nAdjustedTime) :
    connectBlock cons io mapBlockIndex block ptr pindex view false =
      ⟨some (.checkBlock .timeTooFar), view, pindex, none, none⟩ := by
  have hcheck := checkBlock_tooLate haccepted hlate
  simp only [connectBlock, Bool.not_false, hcheck]

/-- Where the time is not too late, the call does not depend on the clock. -/
theorem connectBlock_inTime (haccepted : block.checkBlock cons.ext nAcceptTime true = .ok ())
    (io : ConnectIO) {t1 t2 : ℤ} (h1 : ¬ TooLate block t1) (h2 : ¬ TooLate block t2) :
    connectBlock cons (atTime io t1) mapBlockIndex block ptr pindex view false =
      connectBlock cons (atTime io t2) mapBlockIndex block ptr pindex view false := by
  have hcheck1 := checkBlock_inTime haccepted h1
  have hcheck2 := checkBlock_inTime haccepted h2
  simp only [connectBlock, Bool.not_false, atTime, hcheck1, hcheck2]
  rfl

/-- Nor does it fail for the time then. -/
theorem connectBlock_error_inTime (haccepted : block.checkBlock cons.ext nAcceptTime true = .ok ())
    (io : ConnectIO) (htime : ¬ TooLate block io.nAdjustedTime) :
    (connectBlock cons io mapBlockIndex block ptr pindex view false).error ≠
      some (.checkBlock .timeTooFar) := by
  have hcheck := checkBlock_inTime haccepted htime
  intro herror
  simp only [connectBlock, Bool.not_false, hcheck] at herror
  split at herror
  · cases herror
  split at herror
  · cases herror
  split at herror
  · cases herror
  split at herror
  · cases herror
  split at herror
  · rename_i e s hloop
    rw [Option.some.inj herror] at hloop
    exact connectTxs_error hloop
  simp only [Bool.false_eq_true, if_false, Bool.true_and] at herror
  split at herror
  · cases herror
  split at herror
  · cases herror
  split at herror
  · cases herror
  split at herror
  · cases herror
  exact recordBlock_error herror

/-- A block that `ProcessBlock` let through has passed its checks then. -/
theorem processChecks_checkBlock {W : Type} {net : NetParams} {params : ProcessParams}
    {pio : ProcessIO} {node : BlockNode W}
    (h : processChecks cons net params pio node block = none) :
    block.checkBlock cons.ext pio.nAdjustedTime true = .ok () := by
  rw [processChecks] at h
  dsimp only at h
  split at h
  · cases h
  split at h
  · cases h
  split at h
  · cases h
  · assumption

end Clock

section Marks
variable {W : Type} {cons : Consensus} {sync : WalletSync W} {block : CBlock}
  {nested : NodeState W → ChainExit × NodeState W} {io : ChainIO} {pindexNew p : BlockPtr}
  {s : NodeState W} {coins : CCoinsViewCache} {vDelete : List CTransaction} {nAcceptTime : ℤ}

theorem readBlock_blockFile {pindex : CBlockIndex} {b : CBlock} (hfile : s.blockFile p = some block)
    (h : s.readBlock cons io p pindex = some b) : b = block := by
  rw [NodeState.readBlock] at h
  split_ifs at h
  rw [hfile] at h
  exact (Option.some.inj (Option.filter_eq_some_iff.mp h).1).symm

/-- The turn of the loop in `SetBestChain` that connects the block, at two times of which both or
neither put the block too far ahead. -/
theorem connectLoop_clock (haccepted : block.checkBlock cons.ext nAcceptTime true = .ok ())
    (hfile : s.blockFile p = some block) {t1 t2 : ℤ}
    (hsame : TooLate block t1 ↔ TooLate block t2) :
    connectLoop cons sync nested (chainAtTime io t1) pindexNew [p] s coins vDelete =
      connectLoop cons sync nested (chainAtTime io t2) pindexNew [p] s coins vDelete := by
  have hcall (pindex : CBlockIndex) :
      connectBlock cons (atTime (io.connect p) t1) s.mapBlockIndex block p pindex coins false =
        connectBlock cons (atTime (io.connect p) t2) s.mapBlockIndex block p pindex coins false := by
    by_cases hlate : TooLate block t1
    · rw [connectBlock_tooLate haccepted (atTime (io.connect p) t1) hlate,
        connectBlock_tooLate haccepted (atTime (io.connect p) t2) (hsame.mp hlate)]
    · exact connectBlock_inTime haccepted _ hlate (fun h => hlate (hsame.mpr h))
  have hread (pindex : CBlockIndex) (t : ℤ) :
      s.readBlock cons (chainAtTime io t) p pindex = s.readBlock cons io p pindex := rfl
  have hconnect (t : ℤ) : (chainAtTime io t).connect p = atTime (io.connect p) t := rfl
  simp only [connectLoop, hread, hconnect]
  cases s.mapBlockIndex p with
  | none => rfl
  | some pindex =>
    dsimp only
    cases hb : s.readBlock cons io p pindex with
    | none => rfl
    | some b =>
      dsimp only
      rw [readBlock_blockFile hfile hb, hcall pindex]

/-- The turn marks a block that is too far ahead as failed. -/
theorem connectLoop_tooLate (haccepted : block.checkBlock cons.ext nAcceptTime true = .ok ())
    (hfile : s.blockFile p = some block) {pindex : CBlockIndex} (hindex : s.mapBlockIndex p = some pindex)
    (hread : (s.readBlock cons io p pindex).isSome) (hnext : pindex.pnext = none) {t : ℤ}
    (hlate : TooLate block t) :
    ((connectLoop cons sync nested (chainAtTime io t) pindexNew [p] s coins
      vDelete).node.mapBlockIndex p).map (fun pindex => pindex.nStatus.failedValid) = some true := by
  obtain ⟨b,hb⟩ := Option.isSome_iff_exists.mp hread
  have hb' : s.readBlock cons (chainAtTime io t) p pindex = some b := hb
  have hconnect : (chainAtTime io t).connect p = atTime (io.connect p) t := rfl
  have hfail : connectBlock cons (atTime (io.connect p) t) s.mapBlockIndex block p pindex coins false =
      ⟨some (.checkBlock .timeTooFar), coins, pindex, none, none⟩ :=
    connectBlock_tooLate haccepted (atTime (io.connect p) t) hlate
  simp only [connectLoop, hindex, hb', readBlock_blockFile hfile hb, hconnect, hfail]
  generalize hs' : s.connected cons sync p block _ = s'
  have hindex' : s'.mapBlockIndex p = some pindex := by
    rw [← hs', NodeState.connected]
    simp only [modifyIndex_self, hindex, Option.map_some]
  have hnext' : nextOf s'.mapBlockIndex p = none := by
    rw [nextOf, hindex', Option.bind_some, hnext]
  -- the block is not on the main chain yet, so nothing is reorganised
  obtain ⟨w,hw⟩ := @connectFailed_eq W nested pindexNew p (.checkBlock .timeTooFar) s' hnext'
  rw [hw]
  simp only [ConnectError.isInvalid, CheckBlockError.nDoS, Option.isSome_some, if_true, markInvalid,
    modifyIndex_self, hindex', Option.map_some]

end Marks

/-- A block that was let in gets the same verdict from `ConnectBlock` at two times exactly if both or
neither put its time more than two hours ahead. Then `SetBestChain` does the same at both; a time that
puts it too far ahead makes it mark the block for good. -/
theorem verdict_clock_iff {V : Type} [CCoinsView V] {W : Type} (cons : Consensus) (net : NetParams)
    (params : ProcessParams) (pio : ProcessIO) (node : BlockNode W) (block : CBlock)
    (haccepted : processChecks cons net params pio node block = none) (t1 t2 : ℤ) :
    (∀ (io : ConnectIO) mapBlockIndex ptr pindex (view : V),
      (connectBlock cons (atTime io t1) mapBlockIndex block ptr pindex view false).error =
          (connectBlock cons (atTime io t2) mapBlockIndex block ptr pindex view false).error ↔
        (TooLate block t1 ↔ TooLate block t2)) ∧
    ((TooLate block t1 ↔ TooLate block t2) →
      ∀ (sync : WalletSync W) nested io pindexNew p (s : NodeState W) coins vDelete,
        s.blockFile p = some block →
        connectLoop cons sync nested (chainAtTime io t1) pindexNew [p] s coins vDelete =
          connectLoop cons sync nested (chainAtTime io t2) pindexNew [p] s coins vDelete) ∧
    (TooLate block t1 →
      ∀ (sync : WalletSync W) nested io pindexNew p (s : NodeState W) coins vDelete pindex,
        s.blockFile p = some block → s.mapBlockIndex p = some pindex → pindex.pnext = none →
        (s.readBlock cons io p pindex).isSome →
        ((connectLoop cons sync nested (chainAtTime io t1) pindexNew [p] s coins
          vDelete).node.mapBlockIndex p).map (fun pindex => pindex.nStatus.failedValid) =
            some true) := by
  have hcheck := processChecks_checkBlock haccepted
  refine ⟨fun io mapBlockIndex ptr pindex view => ?_,
    fun hsame sync nested io pindexNew p s coins vDelete hfile =>
      connectLoop_clock hcheck hfile hsame,
    fun hlate sync nested io pindexNew p s coins vDelete pindex hfile hindex hnext hread =>
      connectLoop_tooLate hcheck hfile hindex hread hnext hlate⟩
  by_cases h1 : TooLate block t1
  · rw [iff_true_left h1, connectBlock_tooLate hcheck (atTime io t1) h1]
    constructor
    · intro herror
      by_contra h2
      exact connectBlock_error_inTime hcheck (atTime io t2) h2 herror.symm
    · intro h2
      rw [connectBlock_tooLate hcheck (atTime io t2) h2]
  · rw [iff_false_left h1]
    constructor
    · intro herror h2
      rw [connectBlock_tooLate hcheck (atTime io t2) h2] at herror
      exact connectBlock_error_inTime hcheck (atTime io t1) h1 herror
    · intro h2
      rw [connectBlock_inTime hcheck io h1 h2]

section Sample

/-- The block goes into the index, with the clock at some time. -/
def clockAdd (nAdjustedTime : ℤ) : ChainExit × NodeState Unit :=
  addToBlockIndex orphanNet noWallet
    ⟨true, true, fun _ _ => chainAtTime (testChainOutcome true) nAdjustedTime⟩ 1 testBlockA
    orphanStart.chain.node

/-- Two times that the block is not ahead of, and the verdict at both. -/
theorem verdict_clock_iff_sample :
    (connectBlock orphanNet (atTime ⟨0, true, true, true, true, true⟩ 1400000000)
        (clockAdd 1400000000).2.mapBlockIndex testBlockA testHashA
        (newIndex orphanNet orphanStart.chain.node.mapBlockIndex testBlockA)
        orphanStart.chain.node.newView false).error =
      (connectBlock orphanNet (atTime ⟨0, true, true, true, true, true⟩ 1500000000)
        (clockAdd 1400000000).2.mapBlockIndex testBlockA testHashA
        (newIndex orphanNet orphanStart.chain.node.mapBlockIndex testBlockA)
        orphanStart.chain.node.newView false).error := by
  refine ((verdict_clock_iff orphanNet testParams orphanParams orphanOutcome orphanStart testBlockA
    (by decide +kernel) 1400000000 1500000000).1 _ _ _ _ _).mpr ?_
  constructor <;> exact fun h => absurd h (by decide)

/-- A block that passed the checks is condemned if the clock is almost three hours behind its time when
it is connected. -/
theorem verdict_depends_on_clock :
    processChecks orphanNet testParams orphanParams orphanOutcome orphanStart testBlockA = none ∧
    (clockAdd 1400302371).1 = .ok ∧
    ((clockAdd 1400302371).2.mapBlockIndex testHashA).map (fun p => p.nStatus.failedValid) =
      some false ∧
    (clockAdd 1399990000).1 = .connect (.checkBlock .timeTooFar) ∧
    ((clockAdd 1399990000).2.mapBlockIndex testHashA).map (fun p => p.nStatus.failedValid) =
      some true := by
  refine ⟨?_, ?_, ?_, ?_, ?_⟩ <;> decide +kernel

end Sample

end Candypool.Chain
