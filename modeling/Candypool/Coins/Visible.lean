import Candypool.Coins.Connect

/-! What `ConnectBlock` can see of a view: the entries with something left, without their version.
Two views that look the same get the same verdict on every block. -/
namespace Candypool.Coins
open Candypool.Prime Candypool.Core

def unversioned (coins : CCoins) : CCoins := { coins with nVersion := 0 }

/-- The part of an entry that decides a check. -/
def visible (entry : Option CCoins) : Option CCoins := (live entry).map unversioned

/-- The coins that can be seen of a view. -/
def visibleCoins {V : Type} [CoinStore V] (view : V) : Utxo := fun txid =>
  visible (getCoins view txid)

section Entries
variable {entry entry' : Option CCoins} {c : CCoins} {n : ℕ}

theorem visible_of_live (h : c.isPruned = false) : visible (some c) = some (unversioned c) := by
  rw [visible, live_some_iff.mpr ⟨rfl, h⟩, Option.map_some]

theorem visible_eq_some (h : visible entry = some c) :
    ∃ coins, entry = some coins ∧ coins.isPruned = false ∧ unversioned coins = c := by
  obtain ⟨coins,hlive,heq⟩ := Option.map_eq_some_iff.mp h
  obtain ⟨hentry,hp⟩ := live_some_iff.mp hlive
  exact ⟨coins, hentry, hp, heq⟩

theorem visible_isSome : (visible entry).isSome = entry.any fun coins => !coins.isPruned := by
  cases entry with
  | none => rfl
  | some c =>
    cases hp : c.isPruned with
    | true =>
      rw [visible, live_none_of_pruned hp, Option.any_some, hp]
      rfl
    | false =>
      rw [visible_of_live hp, Option.any_some, hp]
      rfl

theorem unversioned_eq {c' : CCoins} (h : unversioned c = unversioned c') :
    c'.fCoinBase = c.fCoinBase ∧ c'.vout = c.vout ∧ c'.nHeight = c.nHeight := by
  obtain ⟨h1,h2,h3,-⟩ := CCoins.mk.inj h
  exact ⟨h1.symm, h2.symm, h3.symm⟩

theorem visible_congr {c' : CCoins} (h : unversioned c = unversioned c') :
    visible (some c') = visible (some c) := by
  obtain ⟨-,hvout,-⟩ := unversioned_eq h
  have hpruned : c'.isPruned = c.isPruned := by rw [CCoins.isPruned, CCoins.isPruned, hvout]
  cases hp : c.isPruned with
  | true =>
    rw [visible, visible, live_none_of_pruned hp, live_none_of_pruned (hpruned.trans hp)]
  | false => rw [visible_of_live hp, visible_of_live (hpruned.trans hp), h]

/-- Spending does not look at the version. -/
theorem spend_visible {c' c1 : CCoins} {undo : CTxInUndo} (h : unversioned c = unversioned c')
    (hs : c.spend n = some (c1,undo)) :
    ∃ c1' undo', c'.spend n = some (c1',undo') ∧ visible (some c1') = visible (some c1) := by
  obtain ⟨hbase,hvout,hheight⟩ := unversioned_eq h
  obtain ⟨out,hout,hnull,rfl,-⟩ := spend_eq_some hs
  rw [← hvout] at hout
  refine ⟨_, _, spend_of_output hout hnull, ?_⟩
  apply visible_congr
  simp only [unversioned, hbase, hvout, hheight]

/-- Entries that match look the same. -/
theorem EntryMatch.visible_eq (h : EntryMatch entry entry') : visible entry' = visible entry := by
  rw [EntryMatch] at h
  rw [visible, visible]
  generalize live entry = l, live entry' = l' at h
  cases h with
  | none => rfl
  | some hm => rw [Option.map_some, Option.map_some, unversioned, unversioned, hm.fCoinBase, hm.vout,
      hm.nHeight]

theorem isAvailable_pruned (h : c.isPruned = true) : c.isAvailable n = false := by
  rw [CCoins.isAvailable]
  cases hout : c.vout[n]? with
  | none => rfl
  | some txout =>
    have hnull := List.all_eq_true.mp h txout (List.mem_of_getElem? hout)
    dsimp only
    rw [hnull]
    rfl

/-- Whether an output is available can be seen. -/
theorem any_isAvailable : (entry.any fun coins => coins.isAvailable n) =
    (visible entry).any fun coins => coins.isAvailable n := by
  cases entry with
  | none => rfl
  | some c =>
    cases hp : c.isPruned with
    | true =>
      rw [visible, live_none_of_pruned hp, Option.any_some, isAvailable_pruned hp]
      rfl
    | false =>
      rw [visible_of_live hp]
      rfl

end Entries

section Inputs
variable {V V' : Type} [CoinStore V] [CoinStore V'] {view : V} {view' : V'} {tx : CTransaction}

/-- The two views look the same at the inputs of a transaction. -/
def SameInputs (view : V) (view' : V') (tx : CTransaction) : Prop :=
  ∀ txin ∈ tx.vin, visible (getCoins view' txin.prevout.hash) =
    visible (getCoins view txin.prevout.hash)

/-- The first loop of `HaveInputs` asks for no more than the second. -/
theorem haveInputs_eq : haveInputs view tx = (tx.isCoinBase || tx.vin.all fun txin =>
    (visible (getCoins view txin.prevout.hash)).any fun coins =>
      coins.isAvailable txin.prevout.n) := by
  rw [haveInputs]
  congr 1
  have hseen : (tx.vin.all fun txin => (getCoins view txin.prevout.hash).any fun coins =>
      coins.isAvailable txin.prevout.n) = tx.vin.all fun txin =>
        (visible (getCoins view txin.prevout.hash)).any fun coins =>
          coins.isAvailable txin.prevout.n := by
    congr 1
    ext1 txin
    exact any_isAvailable
  rw [← hseen, Bool.and_eq_right_iff_imp]
  intro havail
  rw [List.all_eq_true] at havail ⊢
  intro txin hmem
  have hany := havail txin hmem
  cases hentry : getCoins view txin.prevout.hash with
  | none =>
    rw [hentry] at hany
    cases hany
  | some coins => rfl

theorem haveInputs_visible (h : SameInputs view view' tx) :
    haveInputs view' tx = haveInputs view tx := by
  rw [haveInputs_eq, haveInputs_eq]
  congr 1
  rw [Bool.eq_iff_iff, List.all_eq_true, List.all_eq_true]
  constructor
  · intro hall txin hmem
    rw [← h txin hmem]
    exact hall txin hmem
  · intro hall txin hmem
    rw [h txin hmem]
    exact hall txin hmem

/-- An input that is available. -/
theorem haveInputs_entry (hin : haveInputs view tx = true) (hcb : tx.isCoinBase = false) {txin : CTxIn}
    (hmem : txin ∈ tx.vin) : ∃ coins, getCoins view txin.prevout.hash = some coins ∧
      coins.isPruned = false ∧ coins.isAvailable txin.prevout.n = true := by
  rw [haveInputs_eq, hcb, Bool.false_or, List.all_eq_true] at hin
  have hany := hin txin hmem
  rw [Option.any_eq_true] at hany
  obtain ⟨c,hc,havail⟩ := hany
  obtain ⟨coins,hentry,hp,rfl⟩ := visible_eq_some hc
  exact ⟨coins, hentry, hp, havail⟩

/-- The entries of an available input differ in their version at most. -/
theorem SameInputs.entries (h : SameInputs view view' tx) (hin : haveInputs view tx = true)
    (hcb : tx.isCoinBase = false) {txin : CTxIn} (hmem : txin ∈ tx.vin) :
    ∃ coins coins', getCoins view txin.prevout.hash = some coins ∧
      getCoins view' txin.prevout.hash = some coins' ∧ coins'.fCoinBase = coins.fCoinBase ∧
      coins'.vout = coins.vout ∧ coins'.nHeight = coins.nHeight := by
  obtain ⟨coins,hentry,hp,-⟩ := haveInputs_entry hin hcb hmem
  have hseen := h txin hmem
  rw [hentry, visible_of_live hp] at hseen
  obtain ⟨coins',hentry',-,heq⟩ := visible_eq_some hseen
  exact ⟨coins, coins', hentry, hentry', unversioned_eq heq.symm⟩

theorem getOutputFor_visible (h : SameInputs view view' tx) (hin : haveInputs view tx = true)
    (hcb : tx.isCoinBase = false) {txin : CTxIn} (hmem : txin ∈ tx.vin) :
    getOutputFor view' txin.prevout = getOutputFor view txin.prevout := by
  obtain ⟨coins,coins',hentry,hentry',-,hvout,-⟩ := h.entries hin hcb hmem
  rw [getOutputFor, getOutputFor, hentry, hentry', Option.bind_some, Option.bind_some, hvout]

theorem getValueIn_visible (h : SameInputs view view' tx) (hin : haveInputs view tx = true)
    (hcb : tx.isCoinBase = false) : getValueIn view' tx = getValueIn view tx := by
  rw [getValueIn, getValueIn, hcb, if_neg Bool.false_ne_true, if_neg Bool.false_ne_true]
  congr 1
  apply List.map_congr_left
  intro txin hmem
  rw [getOutputFor_visible h hin hcb hmem]

theorem getP2SHSigOpCount_visible (h : SameInputs view view' tx) (hin : haveInputs view tx = true)
    (hcb : tx.isCoinBase = false) : getP2SHSigOpCount view' tx = getP2SHSigOpCount view tx := by
  rw [getP2SHSigOpCount, getP2SHSigOpCount, hcb, if_neg Bool.false_ne_true,
    if_neg Bool.false_ne_true]
  congr 1
  apply List.map_congr_left
  intro txin hmem
  rw [getOutputFor_visible h hin hcb hmem]

theorem scriptChecksOf_visible (h : SameInputs view view' tx) (hin : haveInputs view tx = true)
    (hcb : tx.isCoinBase = false) (flags : ScriptFlags) :
    scriptChecksOf view' tx flags = scriptChecksOf view tx flags := by
  rw [scriptChecksOf, scriptChecksOf]
  apply List.map_congr_left
  rintro ⟨txin,i⟩ hmem
  dsimp only
  rw [getOutputFor_visible h hin hcb (List.fst_mem_of_mem_zipIdx hmem)]

theorem checkInputValues_visible (h : SameInputs view view' tx) (hin : haveInputs view tx = true)
    (hcb : tx.isCoinBase = false) (nSpendHeight : ℤ) {vin : List CTxIn} (hsub : vin ⊆ tx.vin)
    (nValueIn : ℤ) : checkInputValues view' nSpendHeight vin nValueIn =
      checkInputValues view nSpendHeight vin nValueIn := by
  induction vin generalizing nValueIn with
  | nil => rfl
  | cons txin vin ih =>
    obtain ⟨coins,coins',hentry,hentry',hbase,hvout,hheight⟩ :=
      h.entries hin hcb (hsub List.mem_cons_self)
    rw [checkInputValues, checkInputValues, hentry, hentry']
    dsimp only
    rw [hbase, hvout, hheight, ih (List.subset_of_cons_subset hsub)]

/-- `CheckInputs` gives both views the same answer. -/
theorem checkInputs_visible (ext : Externals) (fees : FeeParams) (h : SameInputs view view' tx)
    (nSpendHeight : ℤ) (fScriptChecks : Bool) (flags : ScriptFlags) (fQueue : Bool) :
    checkInputs ext fees view' tx nSpendHeight fScriptChecks flags fQueue =
      checkInputs ext fees view tx nSpendHeight fScriptChecks flags fQueue := by
  rw [checkInputs, checkInputs]
  by_cases hcb : tx.isCoinBase = true
  · rw [if_pos hcb, if_pos hcb]
  rw [if_neg hcb, if_neg hcb, haveInputs_visible h]
  rw [Bool.not_eq_true] at hcb
  by_cases hin : haveInputs view tx = true
  · rw [hin, Bool.not_true, if_neg Bool.false_ne_true, if_neg Bool.false_ne_true,
      checkInputValues_visible h hin hcb nSpendHeight (List.Subset.refl _) 0,
      scriptChecksOf_visible h hin hcb]
  · rw [Bool.not_eq_true] at hin
    rw [hin, Bool.not_false, if_pos rfl, if_pos rfl]

end Inputs

section Update
variable {V V' : Type} [CoinStore V] [CoinStore V'] {view : V} {view' : V'} {nHeight : ℕ}

theorem visibleCoins_setCoins (hv : visibleCoins view' = visibleCoins view) (txid : Uint256)
    {c c' : CCoins} (hc : visible (some c') = visible (some c)) :
    visibleCoins (setCoins view' txid c') = visibleCoins (setCoins view txid c) := by
  ext1 txid'
  rw [visibleCoins, visibleCoins, getCoins_setCoins, getCoins_setCoins]
  by_cases heq : txid' = txid
  · rw [heq, Function.update_self, Function.update_self]
    exact hc
  · rw [Function.update_of_ne heq, Function.update_of_ne heq]
    exact congrFun hv txid'

/-- What can be spent from one view can be spent from the other. -/
theorem spendInputs_visible (hv : visibleCoins view' = visibleCoins view) {vin : List CTxIn}
    {view1 : V} {undos : List CTxInUndo} (h : spendInputs view vin = some (view1,undos)) :
    ∃ view1' undos', spendInputs view' vin = some (view1',undos') ∧
      visibleCoins view1' = visibleCoins view1 := by
  induction vin generalizing view view' undos with
  | nil =>
    obtain ⟨rfl,-⟩ := Prod.mk.inj (Option.some.inj h)
    exact ⟨view', [], rfl, hv⟩
  | cons txin vin ih =>
    obtain ⟨view2,undo,undos2,h1,h2,-⟩ := spendInputs_cons h
    obtain ⟨c,c1,hc,hs,rfl⟩ := spendInput_eq_some h1
    have hseen : visible (getCoins view' txin.prevout.hash) =
      visible (getCoins view txin.prevout.hash) := congrFun hv txin.prevout.hash
    rw [hc, visible_of_live (spend_live hs)] at hseen
    obtain ⟨c',hc',-,heq⟩ := visible_eq_some hseen
    obtain ⟨c1',undo',hs',hseen1⟩ := spend_visible heq.symm hs
    have hstep : spendInput view' txin.prevout =
        some (setCoins view' txin.prevout.hash c1', undo') := by
      simp only [spendInput, hc', hs', Option.bind_eq_bind, Option.bind_some, Option.pure_def]
    obtain ⟨view1',undos',hrest,hv1⟩ := ih (visibleCoins_setCoins hv txin.prevout.hash hseen1) h2
    refine ⟨view1', undo' :: undos', ?_, hv1⟩
    simp only [spendInputs, hstep, hrest, Option.bind_eq_bind, Option.bind_some, Option.pure_def]

/-- `UpdateCoins` fails on both views or on none, and leaves views that look the same. -/
theorem updateCoins_visible (hv : visibleCoins view' = visibleCoins view) {tx : CTransaction}
    {txhash : Uint256} {view1 : V} {txundo : CTxUndo}
    (h : updateCoins view tx nHeight txhash = some (view1,txundo)) :
    ∃ view1' txundo', updateCoins view' tx nHeight txhash = some (view1',txundo') ∧
      visibleCoins view1' = visibleCoins view1 := by
  obtain ⟨view2,hspend,rfl⟩ := updateCoins_eq_some h
  have hpart : ∃ view2' undos, markSpent view' tx = some (view2',undos) ∧
      visibleCoins view2' = visibleCoins view2 := by
    rw [markSpent] at hspend ⊢
    split_ifs at hspend ⊢
    · obtain ⟨rfl,-⟩ := Prod.mk.inj (Option.some.inj hspend)
      exact ⟨view', [], rfl, hv⟩
    · exact spendInputs_visible hv hspend
  obtain ⟨view2',undos,hspend',hv2⟩ := hpart
  refine ⟨setCoins view2' txhash (CCoins.ofTx tx nHeight), ⟨undos⟩, ?_, ?_⟩
  · simp only [updateCoins, hspend', Option.bind_eq_bind, Option.bind_some, Option.pure_def]
  · exact visibleCoins_setCoins hv2 txhash rfl

end Update

section Block
variable {V : Type} [CCoinsView V] {cons : Consensus}

/-- The loop over the transactions of a block is at the same place in both views. -/
def SameLoop (s s' : BlockLoop V) : Prop :=
  ∃ view vtxundo, visibleCoins view = visibleCoins s.view ∧
    s' = { s with view := view, vtxundo := vtxundo }

/-- The two results have the same verdict and leave the loop at the same place. -/
def SameTurn (r r' : Option ConnectError × BlockLoop V) : Prop := r'.1 = r.1 ∧ SameLoop r.2 r'.2

theorem updateStep_visible (env : LoopEnv) (tx : CTransaction) {s s' : BlockLoop V}
    (h : SameLoop s s') : SameTurn (updateStep cons env tx s) (updateStep cons env tx s') := by
  obtain ⟨view',vtxundo',hv,rfl⟩ := h
  rw [updateStep, updateStep]
  dsimp only
  cases hu : updateCoins s.view tx env.nHeight (cons.ext.txHash tx) with
  | none =>
    cases hu' : updateCoins view' tx env.nHeight (cons.ext.txHash tx) with
    | none => exact ⟨rfl, view', vtxundo', hv, rfl⟩
    | some r =>
      obtain ⟨view1,txundo⟩ := r
      obtain ⟨view2,txundo2,hback,-⟩ := updateCoins_visible hv.symm hu'
      rw [hu] at hback
      cases hback
  | some r =>
    obtain ⟨view1,txundo⟩ := r
    obtain ⟨view1',txundo',hu',hv1⟩ := updateCoins_visible hv hu
    rw [hu']
    exact ⟨rfl, view1', _, hv1, rfl⟩

/-- The part of a turn after the inputs were found and the sigops counted. -/
def checkStep (cons : Consensus) (env : LoopEnv) (tx : CTransaction) (s : BlockLoop V) :
    Option ConnectError × BlockLoop V :=
  if s.nSigOps > maxBlockSigOps then (some .tooManySigOps, s)
  else
    let nTxValueIn := getValueIn s.view tx
    match tx.getValueOut with
    | none => (some .valueOutOfRange, s)
    | some nTxValueOut =>
      let s := { s with nValueIn := s.nValueIn+nTxValueIn
                        nValueOut := s.nValueOut+nTxValueOut
                        nFees := s.nFees+(nTxValueIn-nTxValueOut) }
      match checkInputs cons.ext cons.fees s.view tx env.nSpendHeight env.fScriptChecks
          env.flags cons.fScriptCheckThreads with
      | .error e => (some (.checkInputs e), s)
      | .ok vChecks => updateStep cons env tx { s with checks := s.checks ++ vChecks }

theorem checkStep_visible (env : LoopEnv) {tx : CTransaction} {s s' : BlockLoop V}
    (h : SameLoop s s') (hin : haveInputs s.view tx = true) (hcb : tx.isCoinBase = false) :
    SameTurn (checkStep cons env tx s) (checkStep cons env tx s') := by
  obtain ⟨view',vtxundo',hv,rfl⟩ := h
  have hsame : SameInputs s.view view' tx := fun txin _ => congrFun hv txin.prevout.hash
  rw [checkStep, checkStep]
  dsimp only
  split_ifs
  · exact ⟨rfl, view', vtxundo', hv, rfl⟩
  cases tx.getValueOut with
  | none => exact ⟨rfl, view', vtxundo', hv, rfl⟩
  | some nTxValueOut =>
    dsimp only
    rw [getValueIn_visible hsame hin hcb, checkInputs_visible cons.ext cons.fees hsame]
    cases checkInputs cons.ext cons.fees s.view tx env.nSpendHeight env.fScriptChecks env.flags
        cons.fScriptCheckThreads with
    | error e => exact ⟨rfl, view', vtxundo', hv, rfl⟩
    | ok vChecks => exact updateStep_visible env tx ⟨view', vtxundo', hv, rfl⟩

/-- One turn of the loop gives both views the same verdict. -/
theorem connectTx_visible (env : LoopEnv) (tx : CTransaction) {s s' : BlockLoop V}
    (h : SameLoop s s') : SameTurn (connectTx cons env tx s) (connectTx cons env tx s') := by
  obtain ⟨view',vtxundo',hv,rfl⟩ := h
  have hsame : SameInputs s.view view' tx := fun txin _ => congrFun hv txin.prevout.hash
  rw [connectTx, connectTx]
  dsimp only
  by_cases hsig : s.nSigOps+tx.getLegacySigOpCount > maxBlockSigOps
  · rw [if_pos hsig, if_pos hsig]
    exact ⟨rfl, view', vtxundo', hv, rfl⟩
  rw [if_neg hsig, if_neg hsig]
  by_cases hcb : tx.isCoinBase = true
  · rw [if_pos hcb, if_pos hcb]
    cases tx.getValueOut with
    | none => exact ⟨rfl, view', vtxundo', hv, rfl⟩
    | some nTxValueOut => exact updateStep_visible env tx ⟨view', vtxundo', hv, rfl⟩
  rw [if_neg hcb, if_neg hcb, haveInputs_visible hsame]
  rw [Bool.not_eq_true] at hcb
  cases hin : haveInputs s.view tx with
  | false => exact ⟨rfl, view', vtxundo', hv, rfl⟩
  | true =>
    rw [getP2SHSigOpCount_visible hsame hin hcb]
    simp only [Bool.not_true, Bool.false_eq_true, if_false]
    cases env.fStrictPayToScriptHash with
    | true => exact checkStep_visible env ⟨view', vtxundo', hv, rfl⟩ hin hcb
    | false => exact checkStep_visible env ⟨view', vtxundo', hv, rfl⟩ hin hcb

theorem connectTxs_visible (env : LoopEnv) (vtx : List CTransaction) {s s' : BlockLoop V}
    (h : SameLoop s s') : SameTurn (connectTxs cons env vtx s) (connectTxs cons env vtx s') := by
  induction vtx generalizing s s' with
  | nil => exact ⟨rfl, h⟩
  | cons tx vtx ih =>
    obtain ⟨herr,hnext⟩ : SameTurn (connectTx cons env tx s) (connectTx cons env tx s') :=
      connectTx_visible env tx h
    rw [connectTxs, connectTxs]
    generalize connectTx cons env tx s = r at herr hnext
    generalize connectTx cons env tx s' = r' at herr hnext
    obtain ⟨e,s1⟩ := r
    obtain ⟨e',s1'⟩ := r'
    obtain rfl : e' = e := herr
    cases e' with
    | none => exact ih hnext
    | some e => exact ⟨rfl, hnext⟩

/-- The two results of `ConnectBlock` have the same verdict, the same index entry and undo data
for the same block, and a success leaves views that look the same. -/
structure SameVerdict (r r' : ConnectResult V) : Prop where
  error : r'.error = r.error
  pindex : r'.pindex = r.pindex
  undoWritten : r'.undoWritten.isSome = r.undoWritten.isSome
  blockundo : r'.blockundo.isSome = r.blockundo.isSome
  view : r.error = none → visibleCoins r'.view = visibleCoins r.view

theorem SameVerdict.failed {e : ConnectError} {view view' : V} {pindex : CBlockIndex} :
    SameVerdict (⟨some e, view, pindex, none, none⟩ : ConnectResult V)
      ⟨some e, view', pindex, none, none⟩ :=
  ⟨rfl, rfl, rfl, rfl, fun h => by cases h⟩

theorem visibleCoins_setBestBlock (view : V) (p : BlockPtr) :
    visibleCoins (setBestBlock view p) = visibleCoins view := by
  ext1 txid
  rw [visibleCoins, getCoins_setBestBlock, visibleCoins]

theorem recordBlock_visible (io : ConnectIO) (ptr : BlockPtr) (pindex : CBlockIndex) {view view' : V}
    (hv : visibleCoins view' = visibleCoins view) (blockundo blockundo' : CBlockUndo) :
    SameVerdict (recordBlock cons io ptr pindex view blockundo)
      (recordBlock cons io ptr pindex view' blockundo') := by
  have hbest : visibleCoins (setBestBlock view' ptr) = visibleCoins (setBestBlock view ptr) := by
    rw [visibleCoins_setBestBlock, visibleCoins_setBestBlock, hv]
  rw [recordBlock, recordBlock]
  dsimp only
  split_ifs <;> first
    | exact ⟨rfl, rfl, rfl, rfl, fun _ => hbest⟩
    | exact ⟨rfl, rfl, rfl, rfl, fun h => by cases h⟩

/-- `ConnectBlock` gives the same verdict on two views that look the same and are at the same
block. -/
theorem connectBlock_visible (io : ConnectIO) (mapBlockIndex : BlockPtr → Option CBlockIndex)
    (block : CBlock) (ptr : BlockPtr) (pindex : CBlockIndex) {view view' : V}
    (hv : visibleCoins view' = visibleCoins view) (hbest : getBestBlock view' = getBestBlock view) :
    SameVerdict (connectBlock cons io mapBlockIndex block ptr pindex view false)
      (connectBlock cons io mapBlockIndex block ptr pindex view' false) := by
  -- the rule against a known transaction with unspent outputs asks for visible coins
  have hbip30 : (block.vtx.any fun tx => (getCoins view' (cons.ext.txHash tx)).any fun coins =>
      !coins.isPruned) = block.vtx.any fun tx => (getCoins view (cons.ext.txHash tx)).any
        fun coins => !coins.isPruned := by
    congr 1
    ext1 tx
    rw [← visible_isSome, ← visible_isSome]
    exact congrArg Option.isSome (congrFun hv (cons.ext.txHash tx))
  rw [connectBlock, connectBlock]
  dsimp only
  split
  · exact SameVerdict.failed
  rw [hbest, hbip30]
  by_cases hprev : pindex.pprev ≠ getBestBlock view
  · rw [if_pos hprev, if_pos hprev]
    exact SameVerdict.failed
  rw [if_neg hprev, if_neg hprev]
  by_cases hgenesis : block.getHash cons.ext = cons.hashGenesisBlock
  · rw [if_pos hgenesis, if_pos hgenesis]
    refine ⟨rfl, rfl, rfl, rfl, fun _ => ?_⟩
    rw [visibleCoins_setBestBlock, visibleCoins_setBestBlock, hv]
  rw [if_neg hgenesis, if_neg hgenesis]
  by_cases hdup : (!bip30Exempt pindex && block.vtx.any fun tx =>
      (getCoins view (cons.ext.txHash tx)).any fun coins => !coins.isPruned) = true
  · rw [if_pos hdup, if_pos hdup]
    exact SameVerdict.failed
  rw [if_neg hdup, if_neg hdup]
  split
  · exact SameVerdict.failed
  rename_i pprev _
  generalize henv : (LoopEnv.mk pindex.nHeight _ _ _ _) = env
  -- both loops start from empty sums
  obtain ⟨herr,view1,vtxundo1,hv1,hloop⟩ : SameTurn
      (connectTxs cons env block.vtx ⟨view, [], 0, 0, 0, 0, []⟩)
      (connectTxs cons env block.vtx ⟨view', [], 0, 0, 0, 0, []⟩) :=
    connectTxs_visible env block.vtx ⟨view', [], hv, rfl⟩
  generalize connectTxs cons env block.vtx ⟨view, [], 0, 0, 0, 0, []⟩ = r at herr hv1 hloop
  generalize connectTxs cons env block.vtx ⟨view', [], 0, 0, 0, 0, []⟩ = r' at herr hloop
  obtain ⟨e,s⟩ := r
  obtain ⟨e',s'⟩ := r'
  dsimp only at herr hv1 hloop
  subst herr hloop
  cases e' with
  | some e => exact SameVerdict.failed
  | none =>
    simp only [Bool.false_eq_true, if_false, Bool.not_false, Bool.true_and]
    by_cases hwrite : (!io.writeMoneySupply) = true
    · rw [if_pos hwrite, if_pos hwrite]
      exact SameVerdict.failed
    rw [if_neg hwrite, if_neg hwrite]
    cases block.vtx.head? with
    | none => exact SameVerdict.failed
    | some coinbase =>
      dsimp only
      by_cases hlimit : coinbase.getValueOut.getD 0 > getBlockValue cons.target pindex.nBits s.nFees-
          coinbase.getMinFee cons.fees 1 false .block+minTxFee
      · rw [if_pos hlimit, if_pos hlimit]
        exact SameVerdict.failed
      rw [if_neg hlimit, if_neg hlimit]
      by_cases hscripts : (!s.checks.all (CScriptCheck.run cons.ext)) = true
      · rw [if_pos hscripts, if_pos hscripts]
        exact SameVerdict.failed
      rw [if_neg hscripts, if_neg hscripts]
      exact recordBlock_visible io ptr _ hv1 _ _

end Block

end Candypool.Coins
