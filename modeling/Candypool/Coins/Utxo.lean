import Candypool.Coins.Coins

/-! The unspent outputs as a map, which is what a view stands for: what one transaction does
to the map, how it is undone, and when two maps hold the same coins. A pruned entry counts as
an absent one, and the version of a transaction is compared only where the coin database can
represent it. -/
namespace Candypool.Coins
open Candypool.Prime Candypool.Core

abbrev Utxo := Uint256 → Option CCoins

/-- An entry with something left to spend. -/
def live (entry : Option CCoins) : Option CCoins := entry.filter fun coins => !coins.isPruned

structure CoinMatch (c c' : CCoins) : Prop where
  fCoinBase : c'.fCoinBase = c.fCoinBase
  vout : c'.vout = c.vout
  nHeight : c'.nHeight = c.nHeight
  nVersion : 0 ≤ c.nVersion → c'.nVersion = c.nVersion

structure UndoMatch (undo undo' : CTxInUndo) : Prop where
  txout : undo'.txout = undo.txout
  fCoinBase : undo'.fCoinBase = undo.fCoinBase
  nHeight : undo'.nHeight = undo.nHeight
  nVersion : 0 ≤ undo.nVersion → undo'.nVersion = undo.nVersion

def EntryMatch (entry entry' : Option CCoins) : Prop :=
  Option.Rel CoinMatch (live entry) (live entry')

def Utxo.Match (u w : Utxo) : Prop := ∀ txid, EntryMatch (u txid) (w txid)

/-- Every entry with something left is well formed. -/
def Utxo.WF (u : Utxo) : Prop := ∀ txid c, live (u txid) = some c → c.WF

theorem live_some_iff {entry : Option CCoins} {c : CCoins} :
    live entry = some c ↔ entry = some c ∧ c.isPruned = false := by
  rw [live, Option.filter_eq_some_iff, Bool.not_eq_true']

theorem live_none_of_pruned {c : CCoins} (h : c.isPruned = true) : live (some c) = none := by
  rw [live, Option.filter_some, h]
  rfl

theorem CoinMatch.refl (c : CCoins) : CoinMatch c c := ⟨rfl, rfl, rfl, fun _ => rfl⟩

theorem CoinMatch.isPruned {c c' : CCoins} (h : CoinMatch c c') : c'.isPruned = c.isPruned := by
  rw [CCoins.isPruned, CCoins.isPruned, h.vout]

theorem CoinMatch.with_version {c c' : CCoins} (h : CoinMatch c c') :
    { c' with nVersion := c.nVersion } = c := by
  rw [h.fCoinBase, h.vout, h.nHeight]

theorem CoinMatch.eq_of_version {c c' : CCoins} (h : CoinMatch c c') (hv : 0 ≤ c.nVersion) :
    c' = c := by
  rw [← h.with_version, ← h.nVersion hv]

theorem EntryMatch.refl (entry : Option CCoins) : EntryMatch entry entry := by
  rw [EntryMatch]
  cases live entry with
  | none => exact Option.Rel.none
  | some c => exact Option.Rel.some (CoinMatch.refl c)

theorem Utxo.Match.refl (u : Utxo) : u.Match u := fun txid => EntryMatch.refl (u txid)

theorem CoinMatch.entry {c c' : CCoins} (h : CoinMatch c c') : EntryMatch (some c) (some c') := by
  rw [EntryMatch]
  cases hp : c.isPruned with
  | true =>
    rw [live_none_of_pruned hp, live_none_of_pruned (h.isPruned.trans hp)]
    exact Option.Rel.none
  | false =>
    rw [live_some_iff.mpr ⟨rfl, hp⟩, live_some_iff.mpr ⟨rfl, h.isPruned.trans hp⟩]
    exact Option.Rel.some h

theorem EntryMatch.of_live {entry entry' : Option CCoins} {c : CCoins}
    (h : EntryMatch entry entry') (hc : live entry = some c) :
    ∃ c', entry' = some c' ∧ CoinMatch c c' := by
  rw [EntryMatch, hc] at h
  cases hl : live entry' with
  | none => rw [hl] at h; cases h
  | some c' =>
    rw [hl] at h
    cases h with
    | some hm => exact ⟨c', (live_some_iff.mp hl).1, hm⟩

theorem EntryMatch.of_live_right {entry entry' : Option CCoins} {c' : CCoins}
    (h : EntryMatch entry entry') (hc : live entry' = some c') :
    ∃ c, live entry = some c ∧ CoinMatch c c' := by
  rw [EntryMatch, hc] at h
  cases hl : live entry with
  | none => rw [hl] at h; cases h
  | some c =>
    rw [hl] at h
    cases h with
    | some hm => exact ⟨c, rfl, hm⟩

theorem EntryMatch.none_iff {entry entry' : Option CCoins} (h : EntryMatch entry entry') :
    live entry = none ↔ live entry' = none := by
  rw [EntryMatch] at h
  generalize live entry = l, live entry' = l' at h
  cases h with
  | none => simp
  | some _ => simp

theorem EntryMatch.of_none {entry entry' : Option CCoins} (h : live entry = none)
    (h' : live entry' = none) : EntryMatch entry entry' := by
  rw [EntryMatch, h, h']
  exact Option.Rel.none

section Input
variable {c c1 : CCoins} {n : ℕ} {undo : CTxInUndo}

theorem spend_live (h : c.spend n = some (c1,undo)) : c.isPruned = false := by
  obtain ⟨out,hout,hnull,-,-⟩ := spend_eq_some h
  rw [CCoins.isPruned, List.all_eq_false]
  exact ⟨out, List.mem_of_getElem? hout, by rw [hnull]; exact Bool.false_ne_true⟩

/-- Spending in a map that matches spends the same output in the other map. -/
theorem spend_match {entry : Option CCoins} {w w1 : CCoins} {undo' : CTxInUndo}
    (hm : EntryMatch entry (some w)) (h : w.spend n = some (w1,undo')) :
    ∃ c c1 undo, entry = some c ∧ c.spend n = some (c1,undo) ∧ CoinMatch c1 w1 ∧
      UndoMatch undo undo' := by
  obtain ⟨c,hc,hmatch⟩ := hm.of_live_right (live_some_iff.mpr ⟨rfl, spend_live h⟩)
  obtain ⟨out,hout,hnull,rfl,rfl⟩ := spend_eq_some h
  rw [hmatch.vout] at hout
  refine ⟨c, _, _, (live_some_iff.mp hc).1, spend_of_output hout hnull, ?_, ?_⟩
  · exact ⟨hmatch.fCoinBase, by simp only [hmatch.vout], hmatch.nHeight, hmatch.nVersion⟩
  · simp only [hmatch.vout]
    split_ifs
    · exact ⟨rfl, hmatch.fCoinBase, hmatch.nHeight, hmatch.nVersion⟩
    · exact ⟨rfl, rfl, rfl, fun _ => rfl⟩

/-- Undoing the spending of one output: the undo data fits and the entry is as before. -/
theorem restore_spend {entry' : Option CCoins} {undo' : CTxInUndo} (hwf : c.WF)
    (h : c.spend n = some (c1,undo)) (hm : EntryMatch (some c1) entry')
    (hundo : UndoMatch undo undo') :
    (CCoins.restore entry' n undo').1 = true ∧
      CoinMatch c (CCoins.restore entry' n undo').2 := by
  have hwf1 := spend_wf hwf h
  have hheight := hwf.height
  obtain ⟨out,hout,hnull,hc1,hu⟩ := spend_eq_some h
  have hput := putOutput_cleanup hwf hout
  by_cases hempty : c1.vout = []
  · -- the last output: the entry is gone and the undo data carries the metadata
    rw [if_pos hempty] at hu
    have hpruned : c1.isPruned = true := by rw [CCoins.isPruned, hempty]; rfl
    have hgone : live entry' = none := hm.none_iff.mp (live_none_of_pruned hpruned)
    have hentry : (entry'.getD CCoins.empty).isPruned = true := by
      cases hentry : entry' with
      | none => rfl
      | some w =>
        by_contra hlive
        rw [Bool.not_eq_true] at hlive
        rw [live_some_iff.mpr ⟨hentry, hlive⟩] at hgone
        cases hgone
    have hne : undo'.nHeight ≠ 0 := by
      rw [hundo.nHeight, hu]
      exact hheight.ne'
    have hvout : c1.vout = CCoins.cleanup (c.vout.set n CTxOut.null) := by rw [hc1]
    rw [← hvout, hempty] at hput
    simp only [CCoins.restore, if_pos hne, hentry, Bool.true_and]
    refine ⟨rfl, ?_, ?_, ?_, ?_⟩
    · rw [hundo.fCoinBase, hu]
    · rw [hundo.txout, hu]
      exact hput
    · rw [hundo.nHeight, hu]
    · intro hv
      rw [hundo.nVersion (by rw [hu]; exact hv), hu]
  · -- other outputs are left: the entry is still there and has its metadata
    rw [if_neg hempty] at hu
    have hlive : c1.isPruned = false := by
      by_contra hp
      rw [Bool.not_eq_false] at hp
      exact hempty (isPruned_of_wf hwf1 hp)
    obtain ⟨w,rfl,hw⟩ := hm.of_live (live_some_iff.mpr ⟨rfl, hlive⟩)
    have hzero : ¬ undo'.nHeight ≠ 0 := by
      rw [hundo.nHeight, hu]
      simp
    have hvout : w.vout = CCoins.cleanup (c.vout.set n CTxOut.null) := by rw [hw.vout, hc1]
    have hspent := isAvailable_spent hvout
    simp only [CCoins.restore, if_neg hzero, Option.getD_some, hspent, hw.isPruned.trans hlive]
    refine ⟨rfl, ?_, ?_, ?_, ?_⟩
    · exact hw.fCoinBase.trans (by rw [hc1])
    · rw [hundo.txout, hu, hvout]
      exact hput
    · exact hw.nHeight.trans (by rw [hc1])
    · intro hv
      exact (hw.nVersion (by rw [hc1]; exact hv)).trans (by rw [hc1])

end Input

end Candypool.Coins
