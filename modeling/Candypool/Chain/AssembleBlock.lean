import Candypool.Chain.BuiltBlock

/-! The second loop of `CreateNewBlock`. Every turn pops one entry of the queue and queues only orphans
that stop waiting, so the loop ends after as many turns as there are transactions in the pool. -/
namespace Candypool.Chain
open Candypool.Prime Candypool.Core Candypool.Coins

section Loop
variable {D : Type} (env : CreateEnv D) (limits : BlockLimits) (nHeight : ℕ)
  (mapDependers : Uint256 → List ℕ)

/-- What a turn of the second loop keeps: the block so far was built step by step, and the counters
belong to it. -/
structure AssemblyOk (s : Assembly D) : Prop where
  ready : ∀ top ∈ s.vecPriority, InPool env top.tx
  orphans : OrphansOk env s.vOrphan mapDependers
  built : Built env nHeight s.vtx s.view
  fees : s.vTxFees = s.vtx.map (txFee env)
  total : s.nFees = (s.vtx.map (txFee env)).sum
  sigOps : s.vTxSigOps = s.vtx.map fun tx => (txSigOps env tx : ℤ)
  blockSigOps : s.nBlockSigOps = 100+(s.vtx.map (txSigOps env)).sum
  sigLimit : s.nBlockSigOps < maxBlockSigOps
  size : s.nBlockSize = 1000+(s.vtx.map CTransaction.getSerializeSize).sum
  sizeLimit : s.vtx = [] ∨ s.nBlockSize < limits.nBlockMaxSize

/-- The entries of the queue and the orphans that may still join it. -/
def Assembly.left (s : Assembly D) : ℕ := s.vecPriority.length+waiting s.vOrphan

end Loop

section Turn
variable {D : Type} {env : CreateEnv D} {limits : BlockLimits} {nHeight : ℕ}
  {mapDependers : Uint256 → List ℕ} {s : Assembly D}

/-- Only the queue changes, and its entries stay. -/
theorem AssemblyOk.requeue (h : AssemblyOk env limits nHeight mapDependers s)
    {vecPriority : List (TxPriority D)} (hsub : vecPriority ⊆ s.vecPriority) (fSortedByFee : Bool) :
    AssemblyOk env limits nHeight mapDependers
      { s with vecPriority := vecPriority, fSortedByFee := fSortedByFee } where
  ready := fun top hmem => h.ready top (hsub hmem)
  orphans := h.orphans
  built := h.built
  fees := h.fees
  total := h.total
  sigOps := h.sigOps
  blockSigOps := h.blockSigOps
  sigLimit := h.sigLimit
  size := h.size
  sizeLimit := h.sizeLimit

theorem sortByFee_ok (h : AssemblyOk env limits nHeight mapDependers s) (top : TxPriority D) :
    AssemblyOk env limits nHeight mapDependers (sortByFee env limits top s) ∧
      (sortByFee env limits top s).left = s.left ∧
      (sortByFee env limits top s).nBlockSize = s.nBlockSize := by
  rw [sortByFee]
  split_ifs
  · have hperm := env.heap.makeHeap_perm (env.comparer true) s.vecPriority
    refine ⟨h.requeue hperm.subset true, ?_, rfl⟩
    rw [Assembly.left, Assembly.left, hperm.length_eq]
  · exact ⟨h, rfl, rfl⟩

/-- A transaction is taken in or left out, without an error. -/
theorem includeTx_ok (hfits : PoolFits env) (h : AssemblyOk env limits nHeight mapDependers s)
    {tx : CTransaction} (htx : InPool env tx)
    (hsize : s.nBlockSize+tx.getSerializeSize < limits.nBlockMaxSize) :
    ∃ s', includeTx env nHeight mapDependers tx s = .ok s' ∧
      AssemblyOk env limits nHeight mapDependers s' ∧ s'.left = s.left := by
  have hchecked := htx.checked hfits
  rw [includeTx]
  cases hin : haveInputs s.view tx with
  | false => exact ⟨s, rfl, h, rfl⟩
  | true =>
    obtain ⟨hfee,hsig⟩ := h.built.values hfits htx hin
    rw [Bool.not_true, if_neg Bool.false_ne_true, hchecked.total]
    dsimp only
    rw [hfee, hsig]
    -- a transaction that is skipped leaves the assembly as it is
    split_ifs with hlimit
    · exact ⟨s, rfl, h, rfl⟩
    cases hchecks : checkInputs env.cons.ext env.cons.fees s.view tx ((nHeight : ℤ)+1) true
        ⟨true, false, false⟩ false with
    | error e => exact ⟨s, rfl, h, rfl⟩
    | ok vChecks =>
      obtain ⟨view,txundo,hupdate⟩ := updateCoins_isSome hchecked htx.notCoinBase hin (nHeight+1)
        (env.cons.ext.txHash tx)
      obtain ⟨vOrphan,vecPriority,hrelease,hready,horphans,hleft⟩ := releaseOrphans_ok s.fSortedByFee
        (env.cons.ext.txHash tx) h.ready h.orphans (h.orphans.pointers (env.cons.ext.txHash tx))
      dsimp only
      rw [hupdate]
      dsimp only
      rw [hrelease]
      refine ⟨_, rfl, ⟨hready, horphans, h.built.add htx hin hchecks hupdate, ?_, ?_, ?_, ?_, ?_, ?_,
        Or.inr hsize⟩, hleft⟩
      -- what the assembly sums up, with the new transaction at the end
      · rw [List.map_append, ← h.fees]
        rfl
      · rw [List.map_append, List.sum_append, ← h.total, List.map_singleton, List.sum_singleton]
      · rw [List.map_append, ← h.sigOps]
        rfl
      · rw [List.map_append, List.sum_append, ← add_assoc, ← h.blockSigOps, List.map_singleton,
          List.sum_singleton]
      · exact not_le.mp hlimit
      · rw [List.map_append, List.sum_append, ← add_assoc, ← h.size, List.map_singleton,
          List.sum_singleton]

/-- A turn of the second loop. -/
theorem assembleTx_ok (hfits : PoolFits env) (h : AssemblyOk env limits nHeight mapDependers s)
    {top : TxPriority D} (htop : InPool env top.tx) :
    ∃ s', assembleTx env limits nHeight mapDependers top s = .ok s' ∧
      AssemblyOk env limits nHeight mapDependers s' ∧ s'.left = s.left := by
  rw [assembleTx]
  split_ifs with hsize hsig hfree
  · exact ⟨s, rfl, h, rfl⟩
  · exact ⟨s, rfl, h, rfl⟩
  · exact ⟨s, rfl, h, rfl⟩
  · obtain ⟨hsorted,hleft,hsame⟩ := sortByFee_ok h top
    obtain ⟨s',hrun,hok,hleft'⟩ := includeTx_ok hfits hsorted htop (by rw [hsame]; exact not_le.mp hsize)
    exact ⟨s', hrun, hok, hleft'.trans hleft⟩

/-- The second loop ends, and keeps what every turn keeps. -/
theorem assemble_ok (hfits : PoolFits env) {fuel : ℕ}
    (h : AssemblyOk env limits nHeight mapDependers s) (hfuel : s.left ≤ fuel) :
    ∃ s', assemble env limits nHeight mapDependers fuel s = .ok s' ∧
      AssemblyOk env limits nHeight mapDependers s' := by
  induction fuel generalizing s with
  | zero =>
    have hempty : s.vecPriority = [] := by
      apply List.eq_nil_of_length_eq_zero
      rw [Assembly.left] at hfuel
      omega
    rw [assemble, hempty]
    exact ⟨s, rfl, h⟩
  | succ fuel ih =>
    rw [assemble]
    cases hvec : s.vecPriority with
    | nil => exact ⟨s, rfl, h⟩
    | cons top rest =>
      have hperm := env.heap.popHeap_perm (env.comparer s.fSortedByFee) (top :: rest)
      rw [List.tail_cons] at hperm
      have hsub : env.heap.popHeap (env.comparer s.fSortedByFee) (top :: rest) ⊆ s.vecPriority := by
        rw [hvec]
        exact fun x hx => List.mem_cons_of_mem top (hperm.subset hx)
      have htop : InPool env top.tx := h.ready top (by rw [hvec]; exact List.mem_cons_self)
      obtain ⟨s1,hturn,hok,hleft⟩ := assembleTx_ok hfits (h.requeue hsub s.fSortedByFee) htop
      dsimp only
      rw [hturn]
      apply ih hok
      rw [hleft]
      rw [Assembly.left, hvec, List.length_cons] at hfuel
      rw [Assembly.left]
      dsimp only
      rw [hperm.length_eq]
      omega

/-- What the second loop starts with. -/
theorem startAssembly_ok (limits : BlockLimits) (nHeight : ℕ) {c : Collected D} (h : CollectOk env c) :
    AssemblyOk env limits nHeight c.mapDependers (startAssembly env limits c) ∧
      (startAssembly env limits c).left ≤ c.count := by
  have hperm := env.heap.makeHeap_perm
    (env.comparer (decide (limits.nBlockPrioritySize ≤ 0))) c.vecPriority
  refine ⟨⟨fun top hmem => h.ready top (hperm.subset hmem), h.orphans, Built.start, rfl, rfl, rfl, rfl,
    (by decide : 100 < maxBlockSigOps), rfl, Or.inl rfl⟩, ?_⟩
  rw [Assembly.left, Collected.count]
  exact Nat.add_le_add hperm.length_eq.le (waiting_le c.vOrphan)

end Turn

end Candypool.Chain
