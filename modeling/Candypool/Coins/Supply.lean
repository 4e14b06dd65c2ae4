import Candypool.Coins.RoundTrip
import Mathlib.Algebra.BigOperators.Group.Finset.Piecewise
import Mathlib.Algebra.BigOperators.Group.List.Basic
import Mathlib.Data.Fintype.EquivFin

/-! The value of a set of unspent outputs, and what a valid block adds to it. -/
namespace Candypool.Coins
open Candypool.Prime Candypool.Core

noncomputable instance : Fintype Uint256 :=
  have : Finite Uint256 := Finite.of_injective BitVec.toFin fun _ _ => BitVec.eq_of_toFin_eq
  Fintype.ofFinite _

/-- What an output adds: nothing once it is spent. -/
def outValue (txout : CTxOut) : ℤ := if txout.isNull then 0 else txout.nValue

def CCoins.value (coins : CCoins) : ℤ := (coins.vout.map outValue).sum

def entryValue (entry : Option CCoins) : ℤ := (entry.map CCoins.value).getD 0

/-- The sum of `nValue` over all unspent outputs. -/
noncomputable def Utxo.value (u : Utxo) : ℤ := ∑ txid : Uint256, entryValue (u txid)

theorem value_of_pruned {c : CCoins} (h : c.isPruned = true) : c.value = 0 := by
  apply List.sum_eq_zero
  intro v hv
  obtain ⟨txout,hout,rfl⟩ := List.mem_map.mp hv
  rw [outValue, List.all_eq_true.mp h txout hout, if_pos rfl]

theorem entryValue_of_dead {entry : Option CCoins} (h : live entry = none) :
    entryValue entry = 0 := by
  cases entry with
  | none => rfl
  | some c =>
    apply value_of_pruned
    by_contra hp
    rw [Bool.not_eq_true] at hp
    rw [live_some_iff.mpr ⟨rfl, hp⟩] at h
    cases h

theorem entryValue_match {entry entry' : Option CCoins} (h : EntryMatch entry entry') :
    entryValue entry = entryValue entry' := by
  cases hl : live entry with
  | none => rw [entryValue_of_dead hl, entryValue_of_dead (h.none_iff.mp hl)]
  | some c =>
    obtain ⟨c',rfl,hm⟩ := h.of_live hl
    rw [(live_some_iff.mp hl).1]
    change (c.vout.map outValue).sum = (c'.vout.map outValue).sum
    rw [hm.vout]

/-- Views with the same coins have the same value. -/
theorem Utxo.Match.value_eq {u w : Utxo} (h : u.Match w) : u.value = w.value :=
  Finset.sum_congr rfl fun txid _ => entryValue_match (h txid)

theorem value_update (u : Utxo) (txid : Uint256) (entry : Option CCoins) :
    Utxo.value (Function.update u txid entry) = u.value-entryValue (u txid)+entryValue entry := by
  have hcomp : (fun h => entryValue (Function.update u txid entry h)) =
      Function.update (fun h => entryValue (u h)) txid (entryValue entry) := by
    ext h
    by_cases heq : h = txid
    · rw [heq, Function.update_self, Function.update_self]
    · rw [Function.update_of_ne heq, Function.update_of_ne heq]
  have hold := Finset.sum_update_of_mem (Finset.mem_univ txid) (fun h => entryValue (u h))
    (entryValue (u txid))
  rw [Function.update_eq_self] at hold
  rw [Utxo.value, hcomp, Finset.sum_update_of_mem (Finset.mem_univ txid), Utxo.value, hold]
  ring

theorem sum_cleanup (vout : List CTxOut) :
    ((CCoins.cleanup vout).map outValue).sum = (vout.map outValue).sum := by
  induction vout using List.reverseRecOn with
  | nil => rfl
  | append_singleton vout txout ih =>
    rw [CCoins.cleanup, List.rdropWhile_concat]
    split_ifs with hnull
    · rw [List.map_append, List.sum_append, ← ih, CCoins.cleanup]
      simp [outValue, hnull]
    · rfl

theorem spend_value {c c' : CCoins} {n : ℕ} {undo : CTxInUndo}
    (h : c.spend n = some (c',undo)) : c'.value = c.value-undo.txout.nValue := by
  obtain ⟨out,hout,hnull,rfl,hundo⟩ := spend_eq_some h
  have htx : undo.txout = out := by
    rw [hundo]
    split_ifs <;> rfl
  obtain ⟨hlt,hget⟩ := List.getElem?_eq_some_iff.mp hout
  have hmap : (c.vout.set n CTxOut.null).map outValue = (c.vout.map outValue).set n 0 := by
    rw [List.map_set]
    rfl
  rw [CCoins.value, sum_cleanup, hmap, List.sum_set', dif_pos (by simpa using hlt), CCoins.value,
    List.getElem_map, hget, htx, outValue, hnull]
  simp
  ring

section Spend
variable {V : Type} [CoinStore V]

theorem spendInput_value {view view' : V} {prevout : COutPoint} {undo : CTxInUndo}
    (h : spendInput view prevout = some (view',undo)) :
    (getCoins view').value = (getCoins view).value-undo.txout.nValue := by
  obtain ⟨c,c',hc,hs,rfl⟩ := spendInput_eq_some h
  rw [getCoins_setCoins, value_update, hc]
  change _-c.value+c'.value = _
  rw [spend_value hs]
  ring

theorem spendInputs_value {view view' : V} {vin : List CTxIn} {undos : List CTxInUndo}
    (h : spendInputs view vin = some (view',undos)) :
    (getCoins view').value =
      (getCoins view).value-(undos.map fun undo => undo.txout.nValue).sum := by
  induction vin generalizing view undos with
  | nil =>
    obtain ⟨rfl,rfl⟩ := Prod.mk.inj (Option.some.inj h)
    simp
  | cons txin vin ih =>
    obtain ⟨view1,undo,undos',h1,h2,rfl⟩ := spendInputs_cons h
    rw [ih h2, spendInput_value h1, List.map_cons, List.sum_cons]
    ring

theorem spendInput_output {view view' : V} {prevout : COutPoint} {undo : CTxInUndo}
    (h : spendInput view prevout = some (view',undo)) :
    getOutputFor view prevout = some undo.txout := by
  obtain ⟨c,c',hc,hs,-⟩ := spendInput_eq_some h
  obtain ⟨out,hout,-,-,rfl⟩ := spend_eq_some hs
  rw [getOutputFor, hc]
  change c.vout[prevout.n]? = _
  rw [hout]
  split_ifs <;> rfl

/-- An output that is there after another one was spent was there before. -/
theorem getOutputFor_of_spent {view view' : V} {prevout other : COutPoint} {undo : CTxInUndo}
    {out : CTxOut} (h : spendInput view prevout = some (view',undo)) (hne : other ≠ prevout)
    (hout : getOutputFor view' other = some out) : getOutputFor view other = some out := by
  obtain ⟨c,c',hc,hs,rfl⟩ := spendInput_eq_some h
  rw [getOutputFor, getCoins_setCoins] at hout
  by_cases hhash : other.hash = prevout.hash
  · rw [hhash, Function.update_self, Option.bind_some] at hout
    obtain ⟨_,-,-,rfl,-⟩ := spend_eq_some hs
    obtain ⟨hlt,hget⟩ := List.getElem?_eq_some_iff.mp hout
    have hpre : CCoins.cleanup (c.vout.set prevout.n CTxOut.null) <+:
        c.vout.set prevout.n CTxOut.null := List.rdropWhile_prefix _ _
    have hset := hpre.getElem hlt
    have hn : prevout.n ≠ other.n := by
      intro hn
      apply hne
      cases other
      cases prevout
      simp_all
    rw [getOutputFor, hhash, hc, Option.bind_some]
    change (CCoins.cleanup (c.vout.set prevout.n CTxOut.null))[other.n] = out at hget
    rw [hget] at hset
    rw [← List.getElem?_set_ne hn, hset]
    exact List.getElem?_eq_getElem _
  · rw [Function.update_of_ne hhash] at hout
    exact hout

/-- `GetValueIn` adds up the outputs the loop of `UpdateCoins` spends, since a checked
transaction does not name an output twice. -/
theorem spendInputs_outputs {view view' : V} {vin : List CTxIn} {undos : List CTxInUndo}
    (hnodup : (vin.map CTxIn.prevout).Nodup) (h : spendInputs view vin = some (view',undos)) :
    vin.map (fun txin => getOutputFor view txin.prevout) =
      undos.map fun undo => some undo.txout := by
  induction vin generalizing view undos with
  | nil =>
    obtain ⟨-,rfl⟩ := Prod.mk.inj (Option.some.inj h)
    rfl
  | cons txin vin ih =>
    obtain ⟨view1,undo,undos',h1,h2,rfl⟩ := spendInputs_cons h
    rw [List.map_cons, List.nodup_cons] at hnodup
    have htail := ih hnodup.2 h2
    rw [List.map_cons, List.map_cons, spendInput_output h1, ← htail]
    congr 1
    apply List.map_congr_left
    intro txin' hmem
    have hne : txin'.prevout ≠ txin.prevout := by
      intro heq
      exact hnodup.1 (heq ▸ List.mem_map_of_mem hmem)
    have hsome : getOutputFor view1 txin'.prevout ∈ undos'.map fun undo => some undo.txout := by
      rw [← htail]
      exact List.mem_map_of_mem (f := fun t : CTxIn => getOutputFor view1 t.prevout) hmem
    obtain ⟨undo',-,hu⟩ := List.mem_map.mp hsome
    rw [← hu]
    exact getOutputFor_of_spent h1 hne hu.symm

end Spend

section Block
variable {V : Type} [CCoinsView V] {cons : Consensus}

/-- One transaction adds its outputs and removes its inputs. -/
theorem updateCoins_value {view view' : V} {tx : CTransaction} {nHeight : ℕ} {txhash : Uint256}
    {txundo : CTxUndo} (hc : tx.Checked) (hfresh : live (getCoins view txhash) = none)
    (h : updateCoins view tx nHeight txhash = some (view',txundo)) :
    (getCoins view').value =
      (getCoins view).value+(tx.vout.map CTxOut.nValue).sum-getValueIn view tx := by
  obtain ⟨view1,hspend,rfl⟩ := updateCoins_eq_some h
  have hdead := (markSpent_keeps hspend).2 txhash hfresh
  have hnew : (CCoins.ofTx tx nHeight).value = (tx.vout.map CTxOut.nValue).sum := by
    rw [CCoins.value]
    congr 1
    apply List.map_congr_left
    intro txout hout
    rw [outValue, checked_not_null hc txout hout, if_neg Bool.false_ne_true]
  have hin : (getCoins view1).value = (getCoins view).value-getValueIn view tx := by
    rw [markSpent] at hspend
    rw [getValueIn]
    split_ifs at hspend ⊢
    · obtain ⟨rfl,-⟩ := Prod.mk.inj (Option.some.inj hspend)
      rw [sub_zero]
    · rw [spendInputs_value hspend]
      have houts := congrArg (List.map fun out : Option CTxOut => (out.map CTxOut.nValue).getD 0)
        (spendInputs_outputs hc.nodup hspend)
      rw [List.map_map, List.map_map] at houts
      congr 2
      exact houts.symm
  rw [getCoins_setCoins, value_update, entryValue_of_dead hdead, hin]
  change _-0+(CCoins.ofTx tx nHeight).value = _
  rw [hnew]
  ring

/-- The sums the loop carries are the change of the value of the view. -/
theorem TxsConnected.value {env : LoopEnv} {vtx : List CTransaction} {s s' : BlockLoop V}
    (h : TxsConnected cons env vtx s s') (hh : 0 < env.nHeight)
    (hchecked : ∀ tx ∈ vtx, tx.Checked) (hnodup : (vtx.map cons.ext.txHash).Nodup)
    (hfresh : ∀ tx ∈ vtx, live (getCoins s.view (cons.ext.txHash tx)) = none) :
    (getCoins s'.view).value-s'.nValueOut+s'.nValueIn =
      (getCoins s.view).value-s.nValueOut+s.nValueIn := by
  induction h with
  | nil s => rfl
  | @cons tx vtx s s1 s' head tail ih =>
    have hc := hchecked tx List.mem_cons_self
    rw [List.map_cons, List.nodup_cons] at hnodup
    obtain ⟨txundo,hupdate,-⟩ := head.update
    obtain ⟨nTxValueOut,hvalue,hout,hin,-⟩ := head.values
    obtain rfl : nTxValueOut = (tx.vout.map CTxOut.nValue).sum :=
      Option.some.inj (hvalue.symm.trans hc.total)
    have hstep := updateCoins_value hc (hfresh tx List.mem_cons_self) hupdate
    rw [ih (fun tx' hmem => hchecked tx' (List.mem_cons_of_mem _ hmem)) hnodup.2, hstep, hout, hin]
    · ring
    · intro tx' hmem
      apply (updateCoins_keeps hc hh hupdate).2
      · intro heq
        exact hnodup.1 (heq ▸ List.mem_map_of_mem hmem)
      · exact hfresh tx' (List.mem_cons_of_mem _ hmem)

/-- The fees of the loop are what its transactions, coinbases apart, take in and do not pay. -/
theorem TxsConnected.fees {env : LoopEnv} {vtx : List CTransaction} {s s' : BlockLoop V}
    (h : TxsConnected cons env vtx s s') (hcb : ∀ tx ∈ vtx, tx.isCoinBase = false) :
    s'.nFees+s'.nValueOut-s'.nValueIn = s.nFees+s.nValueOut-s.nValueIn := by
  induction h with
  | nil s => rfl
  | @cons tx vtx s s1 s' head tail ih =>
    obtain ⟨nTxValueOut,-,hout,hin,hfees⟩ := head.values
    rw [hcb tx List.mem_cons_self, if_neg Bool.false_ne_true] at hfees
    rw [ih fun tx' hmem => hcb tx' (List.mem_cons_of_mem _ hmem), hout, hin, hfees]
    ring

section Valid
variable {mapBlockIndex : BlockPtr → Option CBlockIndex} {block : CBlock}
  {pindex pprev : CBlockIndex} {view : V} {s : BlockLoop V}

/-- A valid block changes the value of the view by `nValueOut - nValueIn`. -/
theorem BlockValid.value (h : BlockValid cons mapBlockIndex block pindex view pprev s)
    (hheight : 0 < pindex.nHeight) (hexempt : bip30Exempt pindex = false) :
    (getCoins s.view).value = (getCoins view).value+s.nValueOut-s.nValueIn := by
  obtain ⟨env,henv,hloop⟩ := h.loop
  have hvalue := hloop.value (by omega) h.checked.checked h.checked.nodup (h.fresh hexempt)
  have hstart : (BlockLoop.start view).nValueOut = 0 ∧ (BlockLoop.start view).nValueIn = 0 :=
    ⟨rfl, rfl⟩
  rw [hstart.1, hstart.2] at hvalue
  change (getCoins s.view).value-s.nValueOut+s.nValueIn = (getCoins view).value-0+0 at hvalue
  omega

/-- It adds at most the subsidy when the coinbase has to pay the base fee: fees are only
redistributed. -/
theorem BlockValid.mint (h : BlockValid cons mapBlockIndex block pindex view pprev s)
    (hfee : ∀ coinbase ∈ block.vtx.head?, minTxFee ≤ coinbase.getMinFee cons.fees 1 false .block) :
    s.nValueOut-s.nValueIn ≤ (targetGetMint cons.target pindex.nBits).2 := by
  obtain ⟨coinbase,vtx,hvtx,hcb,hrest⟩ := h.checked.coinbase
  obtain ⟨_,_,hvtx',hlimit⟩ := h.limit
  obtain ⟨rfl,rfl⟩ := List.cons.inj (hvtx.symm.trans hvtx')
  obtain ⟨env,henv,hloop⟩ := h.loop
  rw [hvtx] at hloop hfee
  cases hloop with
  | @cons _ _ _ s1 _ head tail =>
    obtain ⟨nTxValueOut,hvalue,hout,hin,hfees⟩ := head.values
    have hsum := tail.fees hrest
    have hzero : getValueIn view coinbase = 0 := by rw [getValueIn, hcb, if_pos rfl]
    rw [hvalue, Option.getD_some, getBlockValue] at hlimit
    rw [hcb, if_pos rfl] at hfees
    change s1.nValueOut = 0+nTxValueOut at hout
    change s1.nValueIn = 0+getValueIn view coinbase at hin
    change s1.nFees = 0+0 at hfees
    have hmin := hfee coinbase rfl
    omega

end Valid

end Block

end Candypool.Coins
