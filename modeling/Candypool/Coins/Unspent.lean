import Candypool.Coins.Available
import Candypool.Coins.Supply

/-! The unspent outputs of a view, output by output. Spending takes one of them away; what a
transaction makes replaces whatever its entry held. -/
namespace Candypool.Coins
open Candypool.Prime Candypool.Core

/-- The output, unless it is spent. -/
def unspentAt {V : Type} [CoinStore V] (view : V) (out : COutPoint) : Option CTxOut :=
  (getOutputFor view out).filter fun txout => !txout.isNull

section Entries

/-- What `Cleanup` drops was spent. -/
theorem cleanup_filter (vout : List CTxOut) (n : ℕ) :
    ((CCoins.cleanup vout)[n]?).filter (fun txout => !txout.isNull) =
      (vout[n]?).filter fun txout => !txout.isNull := by
  have hsplit : CCoins.cleanup vout ++ vout.rtakeWhile CTxOut.isNull = vout :=
    List.rdropWhile_append_rtakeWhile
  by_cases hlt : n < (CCoins.cleanup vout).length
  · have hsame : (CCoins.cleanup vout ++ vout.rtakeWhile CTxOut.isNull)[n]? =
      (CCoins.cleanup vout)[n]? := List.getElem?_append_left hlt
    rw [← hsame, hsplit]
  · rw [List.getElem?_eq_none (not_lt.mp hlt), Option.filter_none]
    symm
    apply Option.filter_eq_none_iff.mpr
    intro txout hout
    rw [← hsplit, List.getElem?_append_right (not_lt.mp hlt)] at hout
    have hdropped := List.mem_rtakeWhile_imp (List.mem_of_getElem? hout)
    rw [hdropped]
    exact Bool.false_ne_true

end Entries

section Update
variable {V : Type} [CoinStore V] {view view' : V} {out : COutPoint}

theorem unspentAt_eq_some {txout : CTxOut} : unspentAt view out = some txout ↔
    getOutputFor view out = some txout ∧ txout.isNull = false := by
  rw [unspentAt, Option.filter_eq_some_iff, Bool.not_eq_true']

theorem unspentAt_isSome : (unspentAt view out).isSome = available view out := by
  rw [unspentAt, available, getOutputFor]
  cases getCoins view out.hash with
  | none => rfl
  | some coins =>
    rw [Option.bind_some, Option.any_some, CCoins.isAvailable]
    cases coins.vout[out.n]? with
    | none => rfl
    | some txout =>
      cases hnull : txout.isNull with
      | true => simp [hnull]
      | false => simp [hnull]

/-- What `HaveInputs` asks for. -/
theorem haveInputs_iff {tx : CTransaction} (hcb : tx.isCoinBase = false) :
    haveInputs view tx = true ↔ ∀ out ∈ tx.vin.map CTxIn.prevout, (unspentAt view out).isSome = true := by
  rw [haveInputs_eq, hcb, Bool.false_or, List.all_eq_true]
  constructor
  · intro h out hout
    obtain ⟨txin,hmem,rfl⟩ := List.mem_map.mp hout
    rw [unspentAt_isSome, available, any_isAvailable]
    exact h txin hmem
  · intro h txin hmem
    have hsome := h txin.prevout (List.mem_map_of_mem hmem)
    rw [unspentAt_isSome, available, any_isAvailable] at hsome
    exact hsome

theorem unspentAt_setCoins (txid : Uint256) (coins : CCoins) :
    unspentAt (setCoins view txid coins) out = if out.hash = txid then
      (coins.vout[out.n]?).filter (fun txout => !txout.isNull) else unspentAt view out := by
  rw [unspentAt, getOutputFor, getCoins_setCoins]
  split_ifs with heq
  · rw [heq, Function.update_self, Option.bind_some]
  · rw [Function.update_of_ne heq]
    rfl

theorem unspentAt_congr {V' : Type} [CoinStore V'] {w : V'}
    (h : getCoins w out.hash = getCoins view out.hash) : unspentAt w out = unspentAt view out := by
  rw [unspentAt, unspentAt, getOutputFor, getOutputFor, h]

/-- Spending takes one output away. -/
theorem unspentAt_spendInput {prevout : COutPoint} {undo : CTxInUndo}
    (h : spendInput view prevout = some (view',undo)) :
    unspentAt view' = Function.update (unspentAt view) prevout none := by
  obtain ⟨c,c',hc,hs,rfl⟩ := spendInput_eq_some h
  obtain ⟨_,-,-,hvout,-⟩ := spend_eq_some hs
  ext1 out
  by_cases heq : out = prevout
  · rw [heq, Function.update_self, ← Option.isNone_iff_eq_none, ← Option.not_isSome, unspentAt_isSome,
      available_setCoins_self rfl, isAvailable_spent (congrArg CCoins.vout hvout)]
    rfl
  rw [Function.update_of_ne heq, unspentAt_setCoins]
  split_ifs with hhash
  · -- another output of the same transaction
    have hn : prevout.n ≠ out.n := by
      intro hn
      apply heq
      cases out
      cases prevout
      rw [COutPoint.mk.injEq]
      exact ⟨hhash, hn.symm⟩
    rw [hvout, cleanup_filter, List.getElem?_set_ne hn, unspentAt, getOutputFor, hhash, hc,
      Option.bind_some]
  · rfl

theorem unspentAt_spendInputs {vin : List CTxIn} {undos : List CTxInUndo}
    (h : spendInputs view vin = some (view',undos)) (out : COutPoint) :
    unspentAt view' out = if out ∈ vin.map CTxIn.prevout then none else unspentAt view out := by
  induction vin generalizing view undos with
  | nil =>
    obtain ⟨rfl,-⟩ := Prod.mk.inj (Option.some.inj h)
    rfl
  | cons txin vin ih =>
    obtain ⟨view1,undo,undos',h1,h2,-⟩ := spendInputs_cons h
    rw [ih h2, unspentAt_spendInput h1]
    by_cases heq : out = txin.prevout
    · rw [heq, Function.update_self, ite_self]
      exact (if_pos List.mem_cons_self).symm
    · rw [Function.update_of_ne heq]
      simp only [List.map_cons, List.mem_cons, heq, false_or]

/-- After `UpdateCoins` the inputs are spent and the outputs are there. -/
theorem unspentAt_updateCoins {tx : CTransaction} (hcb : tx.isCoinBase = false) {nHeight : ℕ}
    {txhash : Uint256} {txundo : CTxUndo}
    (h : updateCoins view tx nHeight txhash = some (view',txundo)) (out : COutPoint) :
    unspentAt view' out =
      if out.hash = txhash then (tx.vout[out.n]?).filter (fun txout => !txout.isNull)
      else if out ∈ tx.vin.map CTxIn.prevout then none else unspentAt view out := by
  obtain ⟨view1,hspend,rfl⟩ := updateCoins_eq_some h
  rw [markSpent, hcb, if_neg Bool.false_ne_true] at hspend
  rw [unspentAt_setCoins, unspentAt_spendInputs hspend]
  rfl

/-- An output that is there can be spent. -/
theorem spendInput_isSome {prevout : COutPoint} (h : (unspentAt view prevout).isSome = true) :
    ∃ view' undo, spendInput view prevout = some (view',undo) := by
  rw [unspentAt_isSome, available, Option.any_eq_true] at h
  obtain ⟨c,hc,havail⟩ := h
  obtain ⟨txout,hout,hnull⟩ := isAvailable_iff.mp havail
  obtain ⟨c',undo,hs⟩ : ∃ c' undo, c.spend prevout.n = some (c',undo) :=
    ⟨_, _, spend_of_output hout hnull⟩
  refine ⟨setCoins view prevout.hash c', undo, ?_⟩
  simp only [spendInput, hc, hs, Option.bind_eq_bind, Option.bind_some, Option.pure_def]

theorem spendInputs_isSome {vin : List CTxIn} (hnodup : (vin.map CTxIn.prevout).Nodup)
    (h : ∀ out ∈ vin.map CTxIn.prevout, (unspentAt view out).isSome = true) :
    ∃ view' undos, spendInputs view vin = some (view',undos) := by
  induction vin generalizing view with
  | nil => exact ⟨view, [], rfl⟩
  | cons txin vin ih =>
    rw [List.map_cons, List.nodup_cons] at hnodup
    obtain ⟨view1,undo,h1⟩ := spendInput_isSome (h txin.prevout List.mem_cons_self)
    have hrest : ∀ out ∈ vin.map CTxIn.prevout, (unspentAt view1 out).isSome = true := by
      intro out hout
      have hne : out ≠ txin.prevout := by
        intro heq
        exact hnodup.1 (heq ▸ hout)
      rw [unspentAt_spendInput h1, Function.update_of_ne hne]
      exact h out (List.mem_cons_of_mem _ hout)
    obtain ⟨view',undos,h2⟩ := ih hnodup.2 hrest
    refine ⟨view', undo :: undos, ?_⟩
    simp only [spendInputs, h1, h2, Option.bind_eq_bind, Option.bind_some, Option.pure_def]

/-- The assertion of `UpdateCoins` holds where `HaveInputs` does. -/
theorem updateCoins_isSome {tx : CTransaction} (hc : tx.Checked) (hcb : tx.isCoinBase = false)
    (hin : haveInputs view tx = true) (nHeight : ℕ) (txhash : Uint256) :
    ∃ view' txundo, updateCoins view tx nHeight txhash = some (view',txundo) := by
  obtain ⟨view1,undos,hspend⟩ := spendInputs_isSome hc.nodup ((haveInputs_iff hcb).mp hin)
  refine ⟨setCoins view1 txhash (CCoins.ofTx tx nHeight), ⟨undos⟩, ?_⟩
  simp only [updateCoins, markSpent, hcb, Bool.false_eq_true, if_false, hspend, Option.bind_eq_bind,
    Option.bind_some, Option.pure_def]

end Update

section Origin
variable {V W : Type} [CoinStore V] [CoinStore W] {view : V} {w : W} {tx : CTransaction}

/-- Every unspent output of the one view is the same output in the other. -/
def Within (view : V) (w : W) : Prop :=
  ∀ out txout, unspentAt view out = some txout → unspentAt w out = some txout

theorem Within.getOutputFor (h : Within view w) (hcb : tx.isCoinBase = false)
    (hin : haveInputs view tx = true) {txin : CTxIn} (hmem : txin ∈ tx.vin) :
    getOutputFor w txin.prevout = getOutputFor view txin.prevout := by
  have hsome := (haveInputs_iff hcb).mp hin txin.prevout (List.mem_map_of_mem hmem)
  obtain ⟨txout,hout⟩ := Option.isSome_iff_exists.mp hsome
  rw [(unspentAt_eq_some.mp (h _ _ hout)).1, (unspentAt_eq_some.mp hout).1]

theorem Within.getValueIn (h : Within view w) (hcb : tx.isCoinBase = false)
    (hin : haveInputs view tx = true) : getValueIn w tx = getValueIn view tx := by
  rw [Coins.getValueIn, Coins.getValueIn, hcb, if_neg Bool.false_ne_true, if_neg Bool.false_ne_true]
  congr 1
  apply List.map_congr_left
  intro txin hmem
  rw [h.getOutputFor hcb hin hmem]

theorem Within.getP2SHSigOpCount (h : Within view w) (hcb : tx.isCoinBase = false)
    (hin : haveInputs view tx = true) : getP2SHSigOpCount w tx = getP2SHSigOpCount view tx := by
  rw [Coins.getP2SHSigOpCount, Coins.getP2SHSigOpCount, hcb, if_neg Bool.false_ne_true,
    if_neg Bool.false_ne_true]
  congr 1
  apply List.map_congr_left
  intro txin hmem
  rw [h.getOutputFor hcb hin hmem]

end Origin

section Beside
variable {V : Type} [CoinStore V] {txid : Uint256} {coins : CCoins} {view view' view1 : V}
  {tx : CTransaction}

/-- The second view is the first one with one more entry written. -/
def Beside (txid : Uint256) (coins : CCoins) (view view' : V) : Prop :=
  getCoins view' = Function.update (getCoins view) txid (some coins)

theorem Beside.sameInputs (h : Beside txid coins view view')
    (hne : ∀ txin ∈ tx.vin, txin.prevout.hash ≠ txid) : SameInputs view view' tx := by
  intro txin hmem
  rw [show getCoins view' = _ from h, Function.update_of_ne (hne txin hmem)]

theorem Beside.setCoins (h : Beside txid coins view view') {hash : Uint256} (hne : hash ≠ txid)
    (c : CCoins) : Beside txid coins (setCoins view hash c) (setCoins view' hash c) := by
  rw [Beside, getCoins_setCoins, getCoins_setCoins, show getCoins view' = _ from h,
    Function.update_comm hne]

theorem Beside.spendInputs (h : Beside txid coins view view') {vin : List CTxIn}
    (hne : ∀ txin ∈ vin, txin.prevout.hash ≠ txid) {undos : List CTxInUndo}
    (hs : spendInputs view vin = some (view1,undos)) :
    ∃ view1', spendInputs view' vin = some (view1',undos) ∧ Beside txid coins view1 view1' := by
  induction vin generalizing view view' undos with
  | nil =>
    obtain ⟨rfl,rfl⟩ := Prod.mk.inj (Option.some.inj hs)
    exact ⟨view', rfl, h⟩
  | cons txin vin ih =>
    obtain ⟨view2,undo,undos',h1,h2,rfl⟩ := spendInputs_cons hs
    obtain ⟨c,c',hc,hspend,rfl⟩ := spendInput_eq_some h1
    have hfirst := hne txin List.mem_cons_self
    have hentry : getCoins view' txin.prevout.hash = some c := by
      rw [show getCoins view' = _ from h, Function.update_of_ne hfirst, hc]
    have hstep : spendInput view' txin.prevout =
        some (CoinStore.setCoins view' txin.prevout.hash c', undo) := by
      simp only [spendInput, hentry, hspend, Option.bind_eq_bind, Option.bind_some, Option.pure_def]
    obtain ⟨view1',hrest,hbeside⟩ := ih (h.setCoins hfirst c')
      (fun txin' hmem => hne txin' (List.mem_cons_of_mem _ hmem)) h2
    refine ⟨view1', ?_, hbeside⟩
    simp only [Coins.spendInputs, hstep, hrest, Option.bind_eq_bind, Option.bind_some,
      Option.pure_def]

/-- `UpdateCoins` of a transaction that has nothing to do with the entry. -/
theorem Beside.updateCoins (h : Beside txid coins view view') (hcb : tx.isCoinBase = false)
    (hne : ∀ txin ∈ tx.vin, txin.prevout.hash ≠ txid) {nHeight : ℕ} {txhash : Uint256}
    (hhash : txhash ≠ txid) {txundo : CTxUndo}
    (hu : updateCoins view tx nHeight txhash = some (view1,txundo)) :
    ∃ view1', updateCoins view' tx nHeight txhash = some (view1',txundo) ∧
      Beside txid coins view1 view1' := by
  obtain ⟨view2,hspend,rfl⟩ := updateCoins_eq_some hu
  rw [markSpent, hcb, if_neg Bool.false_ne_true] at hspend
  obtain ⟨view2',hspend',hbeside⟩ := h.spendInputs hne hspend
  refine ⟨CoinStore.setCoins view2' txhash (CCoins.ofTx tx nHeight), ?_,
    hbeside.setCoins hhash _⟩
  simp only [Coins.updateCoins, markSpent, hcb, Bool.false_eq_true, if_false, hspend',
    Option.bind_eq_bind, Option.bind_some, Option.pure_def]

end Beside

end Candypool.Coins
