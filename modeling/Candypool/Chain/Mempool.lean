import Candypool.Coins.Connect
import Mathlib.Data.List.AList

/-! The memory pool. Whether a transaction is standard, and the rate limiter for free ones, are
policy that the pool asks for; they are arguments here. -/
namespace Candypool.Chain
open Candypool.Prime Candypool.Core Candypool.Coins

/-- `mapNextTx` points to the transaction of the pool that spends an output, by its hash, and to
the input that does so. -/
structure CTxMemPool where
  mapTx : AList fun _ : Uint256 => CTransaction
  mapNextTx : AList fun _ : COutPoint => Uint256 × ℕ

namespace CTxMemPool

def empty : CTxMemPool := ⟨∅, ∅⟩

def addUnchecked (pool : CTxMemPool) (hash : Uint256) (tx : CTransaction) : CTxMemPool where
  mapTx := pool.mapTx.insert hash tx
  mapNextTx := tx.vin.zipIdx.foldl (fun next (txin,i) => next.insert txin.prevout (hash,i))
    pool.mapNextTx

section Remove
variable (txHash : CTransaction → Uint256)

/-- The part of `remove` that takes out one transaction. -/
def removeEntry (pool : CTxMemPool) (tx : CTransaction) : CTxMemPool :=
  if (pool.mapTx.lookup (txHash tx)).isSome then
    ⟨pool.mapTx.erase (txHash tx),
      tx.vin.foldl (fun next txin => next.erase txin.prevout) pool.mapNextTx⟩
  else pool

/-- `remove` with `fRecursive`: the transactions that spend the outputs go first. A chain of
spends names no transaction of the pool twice, so the recursion is no deeper than the pool is
large. -/
def removeDeep : ℕ → CTxMemPool → CTransaction → CTxMemPool
  | 0, pool, _ => pool
  | fuel+1, pool, tx =>
    let pool := (List.range tx.vout.length).foldl (fun pool i =>
      match pool.mapNextTx.lookup ⟨txHash tx, i⟩ with
      | none => pool
      | some (hash,_) =>
        match pool.mapTx.lookup hash with
        | none => pool
        | some ptx => removeDeep fuel pool ptx) pool
    removeEntry txHash pool tx

def remove (pool : CTxMemPool) (tx : CTransaction) (fRecursive : Bool) : CTxMemPool :=
  if fRecursive then removeDeep txHash (pool.mapTx.entries.length+2) pool tx
  else removeEntry txHash pool tx

def removeConflicts (pool : CTxMemPool) (tx : CTransaction) : CTxMemPool :=
  tx.vin.foldl (fun pool txin =>
    match (pool.mapNextTx.lookup txin.prevout).bind fun next => pool.mapTx.lookup next.1 with
    | none => pool
    | some txConflict => if txConflict ≠ tx then remove txHash pool txConflict true else pool) pool

/-- The loop of `SetBestChain` over `vDelete`. -/
def deleteAll (pool : CTxMemPool) (vDelete : List CTransaction) : CTxMemPool :=
  vDelete.foldl (fun pool tx => (pool.remove txHash tx false).removeConflicts txHash tx) pool

end Remove

/-- `CCoinsViewMemPool`: the coins of the tip and the transactions of the pool. -/
def view (pool : CTxMemPool) (tip : Utxo) : Utxo := fun txid =>
  (tip txid).or ((pool.mapTx.lookup txid).map fun tx => CCoins.ofTx tx mempoolHeight)

end CTxMemPool

/-- The answers of the policy code about one transaction. -/
structure AcceptIO where
  isStandard : Bool
  areInputsStandard : Bool
  rateLimited : Bool

/-- The checks of `accept` that look at the inputs. -/
def acceptInputs (cons : Consensus) (io : AcceptIO) (view : Utxo) (nSpendHeight : ℤ)
    (tx : CTransaction) (fLimitFree : Bool) : Bool :=
  if (view (cons.ext.txHash tx)).isSome then false
  else if tx.vin.any fun txin => (view txin.prevout.hash).isNone then false
  else if !haveInputs view tx then false
  else if !io.areInputsStandard then false
  else match tx.getValueOut with
    | none => false
    | some nValueOut =>
      let nFees := getValueIn view tx-nValueOut
      if fLimitFree && decide (nFees < tx.getMinFee cons.fees 1000 false .relay) then false
      else if fLimitFree && decide (nFees < cons.fees.nMinRelayTxFee) && io.rateLimited then false
      else (checkInputs cons.ext cons.fees view tx nSpendHeight true ⟨true, true, false⟩
        false).isOk

/-- `CTxMemPool::accept`; `none` is a transaction that is not taken. Replacing a transaction is
disabled in the source. -/
def accept (cons : Consensus) (io : AcceptIO) (tip : Utxo) (nSpendHeight : ℤ) (pool : CTxMemPool)
    (tx : CTransaction) (fCheckInputs fLimitFree : Bool) : Option CTxMemPool :=
  if !tx.checkTransaction.isOk then none
  else if tx.isCoinBase then none
  else if tx.nLockTime > 2^31-1 then none
  else if !io.isStandard then none
  else if (pool.mapTx.lookup (cons.ext.txHash tx)).isSome then none
  else if tx.vin.any fun txin => (pool.mapNextTx.lookup txin.prevout).isSome then none
  else if fCheckInputs && !acceptInputs cons io (pool.view tip) nSpendHeight tx fLimitFree then none
  else some (pool.addUnchecked (cons.ext.txHash tx) tx)

/-- What `accept` leaves in `*pfMissingInputs`: whether it came as far as the inputs and found one
whose transaction nobody knows. -/
def missingInputs (cons : Consensus) (io : AcceptIO) (tip : Utxo) (pool : CTxMemPool)
    (tx : CTransaction) (fCheckInputs : Bool) : Bool :=
  if !tx.checkTransaction.isOk then false
  else if tx.isCoinBase then false
  else if tx.nLockTime > 2^31-1 then false
  else if !io.isStandard then false
  else if (pool.mapTx.lookup (cons.ext.txHash tx)).isSome then false
  else if tx.vin.any fun txin => (pool.mapNextTx.lookup txin.prevout).isSome then false
  else if !fCheckInputs then false
  else if (pool.view tip (cons.ext.txHash tx)).isSome then false
  else tx.vin.any fun txin => (pool.view tip txin.prevout.hash).isNone

section Shrink
variable {txHash : CTransaction → Uint256}

/-- Nothing is in the first pool that is not in the second. -/
def CTxMemPool.Shrinks (pool' pool : CTxMemPool) : Prop :=
  ∀ hash, pool.mapTx.lookup hash = none → pool'.mapTx.lookup hash = none

theorem CTxMemPool.Shrinks.refl (pool : CTxMemPool) : pool.Shrinks pool := fun _ h => h

theorem CTxMemPool.Shrinks.trans {a b c : CTxMemPool} (h : a.Shrinks b) (h' : b.Shrinks c) :
    a.Shrinks c := fun hash hc => h hash (h' hash hc)

theorem foldl_shrinks {β : Type} {f : CTxMemPool → β → CTxMemPool}
    (hf : ∀ pool b, (f pool b).Shrinks pool) (l : List β) (pool : CTxMemPool) :
    (l.foldl f pool).Shrinks pool := by
  induction l generalizing pool with
  | nil => exact CTxMemPool.Shrinks.refl pool
  | cons b l ih => exact (ih (f pool b)).trans (hf pool b)

theorem removeEntry_lookup (pool : CTxMemPool) (tx : CTransaction) :
    (pool.removeEntry txHash tx).mapTx.lookup (txHash tx) = none := by
  rw [CTxMemPool.removeEntry]
  split_ifs with h
  · exact AList.lookup_erase _ _
  · simpa using h

theorem removeEntry_shrinks (pool : CTxMemPool) (tx : CTransaction) :
    (pool.removeEntry txHash tx).Shrinks pool := by
  intro hash hnone
  rw [CTxMemPool.removeEntry]
  split_ifs
  · by_cases heq : hash = txHash tx
    · rw [heq]
      exact AList.lookup_erase _ _
    · exact (AList.lookup_erase_ne heq).trans hnone
  · exact hnone

theorem removeDeep_shrinks (fuel : ℕ) (pool : CTxMemPool) (tx : CTransaction) :
    (pool.removeDeep txHash fuel tx).Shrinks pool := by
  induction fuel generalizing pool tx with
  | zero => exact CTxMemPool.Shrinks.refl pool
  | succ fuel ih =>
    rw [CTxMemPool.removeDeep]
    refine (removeEntry_shrinks _ tx).trans (foldl_shrinks (fun pool i => ?_) _ pool)
    split
    · exact CTxMemPool.Shrinks.refl pool
    · split
      · exact CTxMemPool.Shrinks.refl pool
      · exact ih pool _

theorem remove_shrinks (pool : CTxMemPool) (tx : CTransaction) (fRecursive : Bool) :
    (pool.remove txHash tx fRecursive).Shrinks pool := by
  rw [CTxMemPool.remove]
  split_ifs
  · exact removeDeep_shrinks _ pool tx
  · exact removeEntry_shrinks pool tx

theorem removeConflicts_shrinks (pool : CTxMemPool) (tx : CTransaction) :
    (pool.removeConflicts txHash tx).Shrinks pool := by
  refine foldl_shrinks (fun pool txin => ?_) _ pool
  split
  · exact CTxMemPool.Shrinks.refl pool
  · split_ifs
    · exact remove_shrinks pool _ true
    · exact CTxMemPool.Shrinks.refl pool

/-- What the loop deletes does not come back. -/
theorem deleteAll_lookup {vDelete : List CTransaction} {tx : CTransaction} (hmem : tx ∈ vDelete)
    (pool : CTxMemPool) : (pool.deleteAll txHash vDelete).mapTx.lookup (txHash tx) = none := by
  have hstep : ∀ (pool : CTxMemPool) (tx : CTransaction),
      ((pool.remove txHash tx false).removeConflicts txHash tx).Shrinks pool := fun pool tx =>
    (removeConflicts_shrinks _ tx).trans (remove_shrinks pool tx false)
  induction vDelete generalizing pool with
  | nil => cases hmem
  | cons tx' vDelete ih =>
    rcases List.mem_cons.mp hmem with rfl | hmem
    · apply foldl_shrinks hstep vDelete
      exact removeConflicts_shrinks _ tx _ (removeEntry_lookup pool tx)
    · exact ih hmem _

end Shrink

end Candypool.Chain
