import Candypool.Core.Block
import Mathlib.Data.List.DropRight

/-! `CCoins`: the unspent outputs of one transaction, and the undo records of `Spend`. -/
namespace Candypool.Coins
open Candypool.Prime Candypool.Core

structure CCoins where
  fCoinBase : Bool
  vout : List CTxOut
  nHeight : ℕ
  nVersion : ℤ
  deriving DecidableEq, Repr

/-- Metadata is kept only for the output that empties its transaction. -/
structure CTxInUndo where
  txout : CTxOut
  fCoinBase : Bool
  nHeight : ℕ
  nVersion : ℤ
  deriving DecidableEq, Repr

structure CTxUndo where
  vprevout : List CTxInUndo
  deriving DecidableEq, Repr

structure CBlockUndo where
  vtxundo : List CTxUndo
  deriving DecidableEq, Repr

namespace CCoins

def empty : CCoins := ⟨false, [], 0, 0⟩

def ofTx (tx : CTransaction) (nHeight : ℕ) : CCoins :=
  ⟨tx.isCoinBase, tx.vout, nHeight, tx.nVersion⟩

/-- `Cleanup`: spent outputs at the end of `vout` are dropped. -/
def cleanup (vout : List CTxOut) : List CTxOut := vout.rdropWhile CTxOut.isNull

def spend (coins : CCoins) (n : ℕ) : Option (CCoins × CTxInUndo) :=
  match coins.vout[n]? with
  | none => none
  | some txout =>
    if txout.isNull then none
    else
      let vout := cleanup (coins.vout.set n CTxOut.null)
      let undo : CTxInUndo :=
        if vout = [] then ⟨txout, coins.fCoinBase, coins.nHeight, coins.nVersion⟩
        else ⟨txout, false, 0, 0⟩
      some ({ coins with vout := vout }, undo)

def isAvailable (coins : CCoins) (nPos : ℕ) : Bool :=
  match coins.vout[nPos]? with
  | none => false
  | some txout => !txout.isNull

def isPruned (coins : CCoins) : Bool := coins.vout.all CTxOut.isNull

/-- `vout.resize(n+1)` where it is shorter, then the assignment to `vout[n]`. -/
def putOutput (vout : List CTxOut) (n : ℕ) (txout : CTxOut) : List CTxOut :=
  let vout := if vout.length < n+1 then vout ++ List.replicate (n+1-vout.length) CTxOut.null else vout
  vout.set n txout

/-- One input of `DisconnectBlock`: the entry after the output is put back, and whether the
undo data fitted. The entry is fresh when the undo data carries the metadata. -/
def restore (entry : Option CCoins) (n : ℕ) (undo : CTxInUndo) : Bool × CCoins :=
  let coins := entry.getD empty -- the fetch fails when the transaction was entirely spent
  let (clean, coins) : Bool × CCoins :=
    if undo.nHeight ≠ 0 then (coins.isPruned, ⟨undo.fCoinBase, [], undo.nHeight, undo.nVersion⟩)
    else (!coins.isPruned, coins)
  (clean && !coins.isAvailable n, { coins with vout := putOutput coins.vout n undo.txout })

/-- The form every unspent entry has: no spent output at the end, spent outputs are null,
and the height is that of a block after the genesis block. -/
structure WF (coins : CCoins) : Prop where
  trimmed : ∀ h : coins.vout ≠ [], (coins.vout.getLast h).isNull = false
  null : ∀ txout ∈ coins.vout, txout.isNull = true → txout = CTxOut.null
  height : 0 < coins.nHeight

end CCoins

open CCoins

theorem null_isNull : CTxOut.null.isNull = true := rfl

theorem cleanup_eq_self {vout : List CTxOut} (h : ∀ hv : vout ≠ [], (vout.getLast hv).isNull = false) :
    cleanup vout = vout := by
  apply List.rdropWhile_eq_self_iff.mpr
  intro hv
  rw [h hv]
  exact Bool.false_ne_true

theorem cleanup_trimmed (vout : List CTxOut) (hv : cleanup vout ≠ []) :
    ((cleanup vout).getLast hv).isNull = false := by
  have h := List.rdropWhile_last_not CTxOut.isNull vout hv
  rw [Bool.not_eq_true] at h
  exact h

/-- What `Cleanup` drops is a run of null outputs. -/
theorem cleanup_append (vout : List CTxOut)
    (hnull : ∀ txout ∈ vout, txout.isNull = true → txout = CTxOut.null) :
    ∃ k, vout = cleanup vout ++ List.replicate k CTxOut.null := by
  refine ⟨(vout.rtakeWhile CTxOut.isNull).length, ?_⟩
  have hsplit : cleanup vout ++ vout.rtakeWhile CTxOut.isNull = vout :=
    List.rdropWhile_append_rtakeWhile
  have hrep : vout.rtakeWhile CTxOut.isNull =
      List.replicate (vout.rtakeWhile CTxOut.isNull).length CTxOut.null := by
    apply List.eq_replicate_of_mem
    intro txout hmem
    have hin : txout ∈ vout := (List.rtakeWhile_suffix CTxOut.isNull vout).subset hmem
    exact hnull txout hin (List.mem_rtakeWhile_imp hmem)
  rw [← hrep]
  exact hsplit.symm

section Spend
variable {coins : CCoins} {n : ℕ} {txout : CTxOut}

theorem set_null_canonical (hnull : ∀ out ∈ coins.vout, out.isNull = true → out = CTxOut.null) :
    ∀ out ∈ coins.vout.set n CTxOut.null, out.isNull = true → out = CTxOut.null := by
  intro out hout hn
  rcases List.mem_or_eq_of_mem_set hout with h | h
  · exact hnull out h hn
  · exact h

/-- Spending an output that is not the last one drops nothing. -/
theorem cleanup_set_not_last (hwf : coins.WF) (hn : n+1 < coins.vout.length) :
    cleanup (coins.vout.set n CTxOut.null) = coins.vout.set n CTxOut.null := by
  apply cleanup_eq_self
  intro hv
  have hne : coins.vout ≠ [] := by
    intro h
    simp [h] at hn
  have hlast := hwf.trimmed hne
  rw [List.getLast_eq_getElem] at hlast ⊢
  rw [List.getElem_set_of_ne]
  · simpa using hlast
  · simp only [List.length_set]
    omega

/-- Restoring the output undoes the spending, `vout` being resized when it was cut. -/
theorem putOutput_cleanup (hwf : coins.WF) (hout : coins.vout[n]? = some txout) :
    putOutput (cleanup (coins.vout.set n CTxOut.null)) n txout = coins.vout := by
  have hn : n < coins.vout.length := (List.getElem?_eq_some_iff.mp hout).1
  have hback : (coins.vout.set n CTxOut.null).set n txout = coins.vout := by
    rw [List.set_set]
    apply List.ext_getElem?
    intro i
    by_cases hi : n = i
    · rw [← hi, List.getElem?_set_self hn, hout]
    · rw [List.getElem?_set_ne hi]
  obtain ⟨k,hk⟩ := cleanup_append _ (set_null_canonical (n := n) hwf.null)
  have hlen := congrArg List.length hk
  rw [List.length_append, List.length_replicate, List.length_set] at hlen
  -- either nothing was cut, or the spent output was the last one
  by_cases hlast : n+1 < coins.vout.length
  · rw [cleanup_set_not_last hwf hlast, putOutput, if_neg (by rw [List.length_set]; omega)]
    exact hback
  · rw [putOutput]
    split_ifs with hshort
    · rw [show n+1-(cleanup (coins.vout.set n CTxOut.null)).length = k by omega, ← hk]
      exact hback
    · have hk0 : k = 0 := by omega
      rw [hk0, List.replicate_zero, List.append_nil] at hk
      rw [← hk]
      exact hback

theorem spend_of_output (hout : coins.vout[n]? = some txout) (hnull : txout.isNull = false) :
    coins.spend n = some ({ coins with vout := cleanup (coins.vout.set n CTxOut.null) },
      if cleanup (coins.vout.set n CTxOut.null) = [] then
        ⟨txout, coins.fCoinBase, coins.nHeight, coins.nVersion⟩
      else ⟨txout, false, 0, 0⟩) := by
  simp only [spend, hout, hnull, Bool.false_eq_true, if_false]

theorem spend_eq_some {coins' : CCoins} {undo : CTxInUndo}
    (h : coins.spend n = some (coins',undo)) :
    ∃ out, coins.vout[n]? = some out ∧ out.isNull = false ∧
      coins' = { coins with vout := cleanup (coins.vout.set n CTxOut.null) } ∧
      undo = if coins'.vout = [] then ⟨out, coins.fCoinBase, coins.nHeight, coins.nVersion⟩
        else ⟨out, false, 0, 0⟩ := by
  rw [spend] at h
  cases hout : coins.vout[n]? with
  | none => simp [hout] at h
  | some out =>
    simp only [hout] at h
    split_ifs at h with hnull
    all_goals
      obtain ⟨rfl,rfl⟩ := Prod.mk.inj (Option.some.inj h)
      refine ⟨out, rfl, by simpa using hnull, rfl, ?_⟩
      simp_all

theorem isAvailable_spent {coins' : CCoins}
    (h : coins'.vout = cleanup (coins.vout.set n CTxOut.null)) : coins'.isAvailable n = false := by
  rw [isAvailable]
  cases hout : coins'.vout[n]? with
  | none => rfl
  | some out =>
    rw [h] at hout
    obtain ⟨hlt,hget⟩ := List.getElem?_eq_some_iff.mp hout
    have hpre : cleanup (coins.vout.set n CTxOut.null) <+: coins.vout.set n CTxOut.null :=
      List.rdropWhile_prefix _ _
    have hset := hpre.getElem hlt
    rw [hget, List.getElem_set_self] at hset
    rw [hset]
    rfl

/-- A spent entry is well formed as long as anything is left of it. -/
theorem spend_wf {coins' : CCoins} {undo : CTxInUndo} (hwf : coins.WF)
    (h : coins.spend n = some (coins',undo)) : coins'.WF := by
  obtain ⟨out,-,-,rfl,-⟩ := spend_eq_some h
  refine ⟨fun hv => cleanup_trimmed _ hv, fun out' hout' => ?_, hwf.height⟩
  exact set_null_canonical hwf.null out' ((List.rdropWhile_prefix _ _).subset hout')

theorem isPruned_of_wf (hwf : coins.WF) (h : coins.isPruned = true) : coins.vout = [] := by
  by_contra hne
  have hlast := hwf.trimmed hne
  rw [List.all_eq_true.mp h _ (List.getLast_mem hne)] at hlast
  exact Bool.noConfusion hlast

end Spend

end Candypool.Coins
