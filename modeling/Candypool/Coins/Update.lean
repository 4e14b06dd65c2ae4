import Candypool.Coins.View

/-! What a list of transactions does to a view, and how `DisconnectBlock` takes it back. The
main result says that taking back undoes the update, also in another view that holds the same
coins and with undo data that went through the disk. -/
namespace Candypool.Coins
open Candypool.Prime Candypool.Core

section Defs
variable {V : Type} [CoinStore V]

def spendInput (view : V) (prevout : COutPoint) : Option (V × CTxInUndo) := do
  let coins ← getCoins view prevout.hash
  let (coins,undo) ← coins.spend prevout.n
  return (setCoins view prevout.hash coins, undo)

def spendInputs : V → List CTxIn → Option (V × List CTxInUndo)
  | view, [] => some (view, [])
  | view, txin :: vin => do
    let (view,undo) ← spendInput view txin.prevout
    let (view,undos) ← spendInputs view vin
    return (view, undo :: undos)

/-- The first half of `UpdateCoins`: mark inputs spent. -/
def markSpent (view : V) (tx : CTransaction) : Option (V × List CTxInUndo) :=
  if tx.isCoinBase then some (view, []) else spendInputs view tx.vin

/-- `UpdateCoins`; `none` is a failed assertion. -/
def updateCoins (view : V) (tx : CTransaction) (nHeight : ℕ) (txhash : Uint256) :
    Option (V × CTxUndo) := do
  let (view,vprevout) ← markSpent view tx
  return (setCoins view txhash (CCoins.ofTx tx nHeight), ⟨vprevout⟩)

variable (txHash : CTransaction → Uint256) (nHeight : ℕ)

/-- `UpdateCoins` for the transactions of a block that are not coinbases. -/
def updateTxs : V → List CTransaction → Option (V × List CTxUndo)
  | view, [] => some (view, [])
  | view, tx :: vtx => do
    let (view,txundo) ← updateCoins view tx nHeight (txHash tx)
    let (view,vtxundo) ← updateTxs view vtx
    return (view, txundo :: vtxundo)

/-- `UpdateCoins` for a whole block: the first transaction leaves no undo data. -/
def updateBlock (view : V) : List CTransaction → Option (V × CBlockUndo)
  | [] => some (view, ⟨[]⟩)
  | tx :: vtx => do
    let (view,_) ← updateCoins view tx nHeight (txHash tx)
    let (view,vtxundo) ← updateTxs txHash nHeight view vtx
    return (view, ⟨vtxundo⟩)

/-- The outputs of a transaction are compared with what the block created and removed. -/
def removeOutputs (view : V) (tx : CTransaction) : Bool × V :=
  let entry := getCoins view (txHash tx)
  let outs := entry.getD CCoins.empty
  let outsBlock := CCoins.ofTx tx nHeight
  let outs := if outsBlock.nVersion < 0 then { outs with nVersion := outsBlock.nVersion } else outs
  (entry.isSome && decide (outs = outsBlock), setCoins view (txHash tx) CCoins.empty)

/-- The inputs are restored last one first. -/
def restoreInputs : V → List CTxIn → List CTxInUndo → Bool × V
  | view, txin :: vin, undo :: vprevout =>
    let (clean,view) := restoreInputs view vin vprevout
    let (fits,coins) := CCoins.restore (getCoins view txin.prevout.hash) txin.prevout.n undo
    (clean && fits, setCoins view txin.prevout.hash coins)
  | view, _, _ => (true, view)

inductive DisconnectError
  | notBestBlock
  | noUndoData
  | readFailure
  | blockUndoInconsistent
  | txUndoInconsistent
  deriving DecidableEq, Repr

structure DisconnectResult (V : Type) where
  error : Option DisconnectError
  fClean : Bool
  view : V

/-- The loop of `DisconnectBlock` down to the second transaction. -/
def disconnectTxs : V → List CTransaction → List CTxUndo → DisconnectResult V
  | view, tx :: vtx, txundo :: vtxundo =>
    let rest := disconnectTxs view vtx vtxundo
    if rest.error.isSome then rest
    else
      let (same,view) := removeOutputs txHash nHeight rest.view tx
      let fClean := rest.fClean && same
      if txundo.vprevout.length ≠ tx.vin.length then ⟨some .txUndoInconsistent, fClean, view⟩
      else
        let (fits,view) := restoreInputs view tx.vin txundo.vprevout
        ⟨none, fClean && fits, view⟩
  | view, _, _ => ⟨none, true, view⟩

end Defs

/-- Undo data that went through the disk. -/
def TxUndoMatch (txundo txundo' : CTxUndo) : Prop :=
  List.Forall₂ UndoMatch txundo.vprevout txundo'.vprevout

def BlockUndoMatch (undo undo' : CBlockUndo) : Prop :=
  List.Forall₂ TxUndoMatch undo.vtxundo undo'.vtxundo

theorem UndoMatch.refl (undo : CTxInUndo) : UndoMatch undo undo := ⟨rfl, rfl, rfl, fun _ => rfl⟩

theorem BlockUndoMatch.refl (undo : CBlockUndo) : BlockUndoMatch undo undo :=
  List.forall₂_same.mpr fun _ _ => List.forall₂_same.mpr fun _ _ => UndoMatch.refl _

section Maps
variable {u w : Utxo}

theorem live_update_ne {h txid : Uint256} (entry : Option CCoins) (hne : txid ≠ h) :
    live (Function.update u h entry txid) = live (u txid) := by
  rw [Function.update_of_ne hne]

theorem Utxo.Match.update (hm : u.Match w) (txid : Uint256) {entry entry' : Option CCoins}
    (he : EntryMatch entry entry') :
    Utxo.Match (Function.update u txid entry) (Function.update w txid entry') := by
  intro txid'
  by_cases h : txid' = txid
  · rw [h, Function.update_self, Function.update_self]
    exact he
  · rw [Function.update_of_ne h, Function.update_of_ne h]
    exact hm txid'

theorem Utxo.WF.update (hwf : u.WF) (txid : Uint256) {c : CCoins}
    (hc : c.isPruned = false → c.WF) : Utxo.WF (Function.update u txid (some c)) := by
  intro txid' c' hc'
  by_cases h : txid' = txid
  · rw [h, Function.update_self, live_some_iff] at hc'
    obtain ⟨he,hp⟩ := hc'
    obtain rfl := Option.some.inj he
    exact hc hp
  · rw [Function.update_of_ne h] at hc'
    exact hwf txid' c' hc'

end Maps

section Spend
variable {V W : Type} [CoinStore V] [CoinStore W]

theorem spendInput_eq_some {view view' : V} {prevout : COutPoint} {undo : CTxInUndo}
    (h : spendInput view prevout = some (view',undo)) :
    ∃ c c', getCoins view prevout.hash = some c ∧ c.spend prevout.n = some (c',undo) ∧
      view' = setCoins view prevout.hash c' := by
  simp only [spendInput, Option.bind_eq_bind, Option.bind_eq_some_iff, Option.pure_def,
    Option.some.injEq, Prod.mk.injEq, Prod.exists] at h
  obtain ⟨c,hc,c',undo',hs,rfl,rfl⟩ := h
  exact ⟨c, c', hc, hs, rfl⟩

theorem spendInputs_cons {view view' : V} {txin : CTxIn} {vin : List CTxIn}
    {undos : List CTxInUndo} (h : spendInputs view (txin :: vin) = some (view',undos)) :
    ∃ view1 undo undos', spendInput view txin.prevout = some (view1,undo) ∧
      spendInputs view1 vin = some (view',undos') ∧ undos = undo :: undos' := by
  simp only [spendInputs, Option.bind_eq_bind, Option.bind_eq_some_iff, Option.pure_def,
    Option.some.injEq, Prod.mk.injEq, Prod.exists] at h
  obtain ⟨view1,undo,h1,view2,undos',h2,rfl,rfl⟩ := h
  exact ⟨view1, undo, undos', h1, h2, rfl⟩

theorem spendInputs_length {view view' : V} {vin : List CTxIn} {undos : List CTxInUndo}
    (h : spendInputs view vin = some (view',undos)) : undos.length = vin.length := by
  induction vin generalizing view undos with
  | nil =>
    obtain ⟨-,rfl⟩ := Prod.mk.inj (Option.some.inj h)
    rfl
  | cons txin vin ih =>
    obtain ⟨view1,undo,undos',-,h2,rfl⟩ := spendInputs_cons h
    rw [List.length_cons, List.length_cons, ih h2]

/-- Spending keeps the entries well formed and does not bring an entry back. -/
theorem spendInput_keeps {view view' : V} {prevout : COutPoint} {undo : CTxInUndo}
    (h : spendInput view prevout = some (view',undo)) :
    ((getCoins view).WF → (getCoins view').WF) ∧
      ∀ txid, live (getCoins view txid) = none → live (getCoins view' txid) = none := by
  obtain ⟨c,c',hc,hs,rfl⟩ := spendInput_eq_some h
  have hlive : live (getCoins view prevout.hash) = some c :=
    live_some_iff.mpr ⟨hc, spend_live hs⟩
  rw [getCoins_setCoins]
  constructor
  · intro hwf
    exact hwf.update _ fun _ => spend_wf (hwf _ _ hlive) hs
  · intro txid hnone
    by_cases heq : txid = prevout.hash
    · rw [heq, hlive] at hnone
      cases hnone
    · rw [live_update_ne _ heq]
      exact hnone

theorem spendInputs_keeps {view view' : V} {vin : List CTxIn} {undos : List CTxInUndo}
    (h : spendInputs view vin = some (view',undos)) :
    ((getCoins view).WF → (getCoins view').WF) ∧
      ∀ txid, live (getCoins view txid) = none → live (getCoins view' txid) = none := by
  induction vin generalizing view undos with
  | nil =>
    obtain ⟨rfl,-⟩ := Prod.mk.inj (Option.some.inj h)
    exact ⟨id, fun _ => id⟩
  | cons txin vin ih =>
    obtain ⟨view1,undo,undos',h1,h2,-⟩ := spendInputs_cons h
    obtain ⟨hwf1,hlive1⟩ := spendInput_keeps h1
    obtain ⟨hwf2,hlive2⟩ := ih h2
    exact ⟨fun hwf => hwf2 (hwf1 hwf), fun txid hnone => hlive2 txid (hlive1 txid hnone)⟩

/-- Two views with the same coins are spent from alike. -/
theorem spendInputs_match {u : V} {w w' : W} {vin : List CTxIn} {undos' : List CTxInUndo}
    (hm : Utxo.Match (getCoins u) (getCoins w)) (h : spendInputs w vin = some (w',undos')) :
    ∃ u' undos, spendInputs u vin = some (u',undos) ∧
      Utxo.Match (getCoins u') (getCoins w') ∧ List.Forall₂ UndoMatch undos undos' := by
  induction vin generalizing u w undos' with
  | nil =>
    obtain ⟨rfl,rfl⟩ := Prod.mk.inj (Option.some.inj h)
    exact ⟨u, [], rfl, hm, List.Forall₂.nil⟩
  | cons txin vin ih =>
    obtain ⟨w1,undo',undos2,h1,h2,rfl⟩ := spendInputs_cons h
    obtain ⟨c',c1',hc',hs',rfl⟩ := spendInput_eq_some h1
    have hentry := hm txin.prevout.hash
    rw [hc'] at hentry
    obtain ⟨c,c1,undo,hc,hs,hmatch,hundo⟩ := spend_match hentry hs'
    have hspend : spendInput u txin.prevout =
        some (setCoins u txin.prevout.hash c1, undo) := by
      simp only [spendInput, hc, hs, Option.bind_eq_bind, Option.bind_some, Option.pure_def]
    have hm1 : Utxo.Match (getCoins (setCoins u txin.prevout.hash c1))
        (getCoins (setCoins w txin.prevout.hash c1')) := by
      rw [getCoins_setCoins, getCoins_setCoins]
      exact hm.update _ hmatch.entry
    obtain ⟨u',undos,hrest,hm',hundos⟩ := ih hm1 h2
    refine ⟨u', undo :: undos, ?_, hm', List.Forall₂.cons hundo hundos⟩
    simp only [spendInputs, hspend, hrest, Option.bind_eq_bind, Option.bind_some, Option.pure_def]

/-- Restoring the inputs in reverse order undoes the spending. -/
theorem restoreInputs_spendInputs {u u' : V} {w : W} {vin : List CTxIn}
    {undos undos' : List CTxInUndo} (hwf : (getCoins u).WF)
    (h : spendInputs u vin = some (u',undos)) (hm : Utxo.Match (getCoins u') (getCoins w))
    (hundo : List.Forall₂ UndoMatch undos undos') :
    (restoreInputs w vin undos').1 = true ∧
      Utxo.Match (getCoins u) (getCoins (restoreInputs w vin undos').2) := by
  induction vin generalizing u undos undos' with
  | nil =>
    obtain ⟨rfl,rfl⟩ := Prod.mk.inj (Option.some.inj h)
    cases hundo
    exact ⟨rfl, hm⟩
  | cons txin vin ih =>
    obtain ⟨u1,undo,undos1,h1,h2,rfl⟩ := spendInputs_cons h
    cases hundo with
    | @cons _ undo' _ undos1' hundo hundos =>
      obtain ⟨hclean,hm1⟩ := ih ((spendInput_keeps h1).1 hwf) h2 hundos
      obtain ⟨c,c1,hc,hs,rfl⟩ := spendInput_eq_some h1
      rw [getCoins_setCoins] at hm1
      have hlive := live_some_iff.mpr ⟨hc, spend_live hs⟩
      have hentry := hm1 txin.prevout.hash
      rw [Function.update_self] at hentry
      obtain ⟨hfits,hmatch⟩ := restore_spend (hwf _ _ hlive) hs hentry hundo
      refine ⟨?_, ?_⟩
      · simp only [restoreInputs, hclean, hfits, Bool.and_self]
      · simp only [restoreInputs, getCoins_setCoins]
        have hback := hm1.update txin.prevout.hash (hc ▸ hmatch.entry)
        rwa [Function.update_idem, Function.update_eq_self] at hback

end Spend

theorem ofTx_wf {tx : CTransaction} (hc : tx.Checked) {nHeight : ℕ} (hh : 0 < nHeight) :
    (CCoins.ofTx tx nHeight).WF := by
  refine ⟨fun hv => checked_not_null hc _ (List.getLast_mem hv), ?_, hh⟩
  intro txout hout hnull
  rw [checked_not_null hc txout hout] at hnull
  cases hnull

theorem ofTx_live {tx : CTransaction} (hc : tx.Checked) (nHeight : ℕ) :
    (CCoins.ofTx tx nHeight).isPruned = false := by
  obtain ⟨txout,hout⟩ := List.exists_mem_of_ne_nil _ hc.vout_ne
  rw [CCoins.isPruned, List.all_eq_false]
  exact ⟨txout, hout, by rw [checked_not_null hc txout hout]; exact Bool.false_ne_true⟩

section Block
variable {V W : Type} [CoinStore V] [CoinStore W] {txHash : CTransaction → Uint256} {nHeight : ℕ}

theorem updateCoins_eq_some {view view' : V} {tx : CTransaction} {txhash : Uint256}
    {txundo : CTxUndo} (h : updateCoins view tx nHeight txhash = some (view',txundo)) :
    ∃ view1, markSpent view tx = some (view1,txundo.vprevout) ∧
      view' = setCoins view1 txhash (CCoins.ofTx tx nHeight) := by
  simp only [updateCoins, Option.bind_eq_bind, Option.bind_eq_some_iff, Option.pure_def,
    Option.some.injEq, Prod.mk.injEq, Prod.exists] at h
  obtain ⟨view1,vprevout,hspend,rfl,rfl⟩ := h
  exact ⟨view1, hspend, rfl⟩

theorem updateTxs_cons {view view' : V} {tx : CTransaction} {vtx : List CTransaction}
    {vtxundo : List CTxUndo}
    (h : updateTxs txHash nHeight view (tx :: vtx) = some (view',vtxundo)) :
    ∃ view1 txundo vtxundo', updateCoins view tx nHeight (txHash tx) = some (view1,txundo) ∧
      updateTxs txHash nHeight view1 vtx = some (view',vtxundo') ∧
      vtxundo = txundo :: vtxundo' := by
  simp only [updateTxs, Option.bind_eq_bind, Option.bind_eq_some_iff, Option.pure_def,
    Option.some.injEq, Prod.mk.injEq, Prod.exists] at h
  obtain ⟨view1,txundo,h1,view2,vtxundo',h2,rfl,rfl⟩ := h
  exact ⟨view1, txundo, vtxundo', h1, h2, rfl⟩

theorem updateBlock_cons {view view' : V} {tx : CTransaction} {vtx : List CTransaction} {blockundo : CBlockUndo}
    (h : updateBlock txHash nHeight view (tx :: vtx) = some (view',blockundo)) :
    ∃ view1 txundo, updateCoins view tx nHeight (txHash tx) = some (view1,txundo) ∧
      updateTxs txHash nHeight view1 vtx = some (view',blockundo.vtxundo) := by
  simp only [updateBlock, Option.bind_eq_bind, Option.bind_eq_some_iff, Option.pure_def,
    Option.some.injEq, Prod.mk.injEq, Prod.exists] at h
  obtain ⟨view1,txundo,h1,view2,vtxundo,h2,rfl,rfl⟩ := h
  exact ⟨view1, txundo, h1, h2⟩

theorem updateTxs_length {view view' : V}
    {vtx : List CTransaction} {vtxundo : List CTxUndo}
    (h : updateTxs txHash nHeight view vtx = some (view',vtxundo)) :
    vtxundo.length = vtx.length := by
  induction vtx generalizing view vtxundo with
  | nil =>
    obtain ⟨-,rfl⟩ := Prod.mk.inj (Option.some.inj h)
    rfl
  | cons tx vtx ih =>
    obtain ⟨view1,txundo,vtxundo',-,h2,rfl⟩ := updateTxs_cons h
    rw [List.length_cons, List.length_cons, ih h2]

theorem markSpent_keeps {view view1 : V} {tx : CTransaction} {vprevout : List CTxInUndo}
    (h : markSpent view tx = some (view1,vprevout)) :
    ((getCoins view).WF → (getCoins view1).WF) ∧
      ∀ txid, live (getCoins view txid) = none → live (getCoins view1 txid) = none := by
  rw [markSpent] at h
  split_ifs at h
  · obtain ⟨rfl,-⟩ := Prod.mk.inj (Option.some.inj h)
    exact ⟨id, fun _ => id⟩
  · exact spendInputs_keeps h

theorem updateCoins_keeps {view view' : V} {tx : CTransaction} {txhash : Uint256}
    {txundo : CTxUndo} (hc : tx.Checked) (hh : 0 < nHeight)
    (h : updateCoins view tx nHeight txhash = some (view',txundo)) :
    ((getCoins view).WF → (getCoins view').WF) ∧
      ∀ txid, txid ≠ txhash → live (getCoins view txid) = none →
        live (getCoins view' txid) = none := by
  obtain ⟨view1,hspend,rfl⟩ := updateCoins_eq_some h
  obtain ⟨hwf,hlive⟩ := markSpent_keeps hspend
  rw [getCoins_setCoins]
  constructor
  · intro hview
    exact (hwf hview).update _ fun _ => ofTx_wf hc hh
  · intro txid hne hnone
    rw [live_update_ne _ hne]
    exact hlive txid hnone

/-- A transaction does the same to two views with the same coins. -/
theorem updateCoins_match {u : V} {w w' : W} {tx : CTransaction} {txhash : Uint256}
    {txundo' : CTxUndo} (hm : Utxo.Match (getCoins u) (getCoins w))
    (h : updateCoins w tx nHeight txhash = some (w',txundo')) :
    ∃ u' txundo, updateCoins u tx nHeight txhash = some (u',txundo) ∧
      Utxo.Match (getCoins u') (getCoins w') ∧ TxUndoMatch txundo txundo' := by
  obtain ⟨w1,hspend,rfl⟩ := updateCoins_eq_some h
  have hpart : ∃ u1 undos, markSpent u tx = some (u1,undos) ∧
      Utxo.Match (getCoins u1) (getCoins w1) ∧ List.Forall₂ UndoMatch undos txundo'.vprevout := by
    rw [markSpent] at hspend ⊢
    split_ifs at hspend ⊢
    · obtain ⟨rfl,hnil⟩ := Prod.mk.inj (Option.some.inj hspend)
      rw [← hnil]
      exact ⟨u, [], rfl, hm, List.Forall₂.nil⟩
    · exact spendInputs_match hm hspend
  obtain ⟨u1,undos,hspendu,hm1,hundos⟩ := hpart
  refine ⟨setCoins u1 txhash (CCoins.ofTx tx nHeight), ⟨undos⟩, ?_, ?_, hundos⟩
  · simp only [updateCoins, hspendu, Option.bind_eq_bind, Option.bind_some, Option.pure_def]
  · rw [getCoins_setCoins, getCoins_setCoins]
    exact hm1.update _ (EntryMatch.refl _)

theorem updateTxs_match {u : V} {w w' : W} {vtx : List CTransaction} {vtxundo' : List CTxUndo}
    (hm : Utxo.Match (getCoins u) (getCoins w))
    (h : updateTxs txHash nHeight w vtx = some (w',vtxundo')) :
    ∃ u' vtxundo, updateTxs txHash nHeight u vtx = some (u',vtxundo) ∧
      Utxo.Match (getCoins u') (getCoins w') ∧ List.Forall₂ TxUndoMatch vtxundo vtxundo' := by
  induction vtx generalizing u w vtxundo' with
  | nil =>
    obtain ⟨rfl,rfl⟩ := Prod.mk.inj (Option.some.inj h)
    exact ⟨u, [], rfl, hm, List.Forall₂.nil⟩
  | cons tx vtx ih =>
    obtain ⟨w1,txundo',vtxundo1,h1,h2,rfl⟩ := updateTxs_cons h
    obtain ⟨u1,txundo,hu1,hm1,hundo⟩ := updateCoins_match hm h1
    obtain ⟨u',vtxundo,hu2,hm2,hundos⟩ := ih hm1 h2
    refine ⟨u', txundo :: vtxundo, ?_, hm2, List.Forall₂.cons hundo hundos⟩
    simp only [updateTxs, hu1, hu2, Option.bind_eq_bind, Option.bind_some, Option.pure_def]

/-- Removing the outputs the block created, where nothing was there before. -/
theorem removeOutputs_created {u : V} {w : W} {tx : CTransaction} (hc : tx.Checked)
    (hnone : live (getCoins u (txHash tx)) = none)
    (hm : Utxo.Match (getCoins (setCoins u (txHash tx) (CCoins.ofTx tx nHeight))) (getCoins w)) :
    (removeOutputs txHash nHeight w tx).1 = true ∧
      Utxo.Match (getCoins u) (getCoins (removeOutputs txHash nHeight w tx).2) := by
  rw [getCoins_setCoins] at hm
  have hentry := hm (txHash tx)
  rw [Function.update_self] at hentry
  obtain ⟨c,hc',hmatch⟩ := hentry.of_live (live_some_iff.mpr ⟨rfl, ofTx_live hc nHeight⟩)
  constructor
  · simp only [removeOutputs, hc', Option.isSome_some, Option.getD_some, Bool.true_and,
      decide_eq_true_eq]
    split_ifs with hneg
    · exact hmatch.with_version
    · exact hmatch.eq_of_version (not_lt.mp hneg)
  · simp only [removeOutputs, getCoins_setCoins]
    have hback := hm.update (txHash tx)
      (EntryMatch.of_none hnone (live_none_of_pruned (c := CCoins.empty) rfl))
    rwa [Function.update_idem, Function.update_eq_self] at hback

/-- `DisconnectBlock` takes back what `UpdateCoins` did for the transactions after the first.
The induction is on the list: the tail was updated last and is taken back first. -/
theorem disconnectTxs_updateTxs {u u' : V} {w : W} {vtx : List CTransaction}
    {vtxundo vtxundo' : List CTxUndo} (hh : 0 < nHeight) (hwf : (getCoins u).WF)
    (hchecked : ∀ tx ∈ vtx, tx.Checked) (hcoinbase : ∀ tx ∈ vtx, tx.isCoinBase = false)
    (hnodup : (vtx.map txHash).Nodup)
    (hfresh : ∀ tx ∈ vtx, live (getCoins u (txHash tx)) = none)
    (h : updateTxs txHash nHeight u vtx = some (u',vtxundo))
    (hm : Utxo.Match (getCoins u') (getCoins w))
    (hundo : List.Forall₂ TxUndoMatch vtxundo vtxundo') :
    (disconnectTxs txHash nHeight w vtx vtxundo').error = none ∧
      (disconnectTxs txHash nHeight w vtx vtxundo').fClean = true ∧
      Utxo.Match (getCoins u) (getCoins (disconnectTxs txHash nHeight w vtx vtxundo').view) := by
  induction vtx generalizing u vtxundo vtxundo' with
  | nil =>
    obtain ⟨rfl,rfl⟩ := Prod.mk.inj (Option.some.inj h)
    cases hundo
    exact ⟨rfl, rfl, hm⟩
  | cons tx vtx ih =>
    obtain ⟨u1,txundo,vtxundo1,h1,h2,rfl⟩ := updateTxs_cons h
    cases hundo with
    | @cons _ txundo' _ vtxundo1' hundo hundos =>
      have hc := hchecked tx List.mem_cons_self
      rw [List.map_cons, List.nodup_cons] at hnodup
      obtain ⟨hwf1,hlive1⟩ := updateCoins_keeps hc hh h1
      have hfresh1 : ∀ tx' ∈ vtx, live (getCoins u1 (txHash tx')) = none := by
        intro tx' hmem
        apply hlive1
        · intro heq
          exact hnodup.1 (heq ▸ List.mem_map_of_mem hmem)
        · exact hfresh tx' (List.mem_cons_of_mem _ hmem)
      -- the later transactions are taken back first, which leaves the coins this one created
      obtain ⟨herr,hclean,hm1⟩ := ih (hwf1 hwf)
        (fun tx' hmem => hchecked tx' (List.mem_cons_of_mem _ hmem))
        (fun tx' hmem => hcoinbase tx' (List.mem_cons_of_mem _ hmem)) hnodup.2 hfresh1 h2 hundos
      obtain ⟨us,hspend,rfl⟩ := updateCoins_eq_some h1
      have hnone := (markSpent_keeps hspend).2 _ (hfresh tx List.mem_cons_self)
      obtain ⟨hsame,hm2⟩ := removeOutputs_created hc hnone hm1
      rw [markSpent, hcoinbase tx List.mem_cons_self, if_neg Bool.false_ne_true] at hspend
      obtain ⟨hfits,hm3⟩ := restoreInputs_spendInputs hwf hspend hm2 hundo
      have hlen : txundo'.vprevout.length = tx.vin.length :=
        hundo.length_eq.symm.trans (spendInputs_length hspend)
      simp only [disconnectTxs, herr, Option.isSome_none, Bool.false_eq_true, if_false, hlen,
        ne_eq, not_true_eq_false, hclean, hsame, hfits, Bool.and_self]
      exact ⟨trivial, trivial, hm3⟩

end Block

end Candypool.Coins
