import Candypool.Coins.Visible
import Candypool.Coins.RoundTrip

/-! Two views of the same coins under `ConnectBlock` and `DisconnectBlock`: the same verdict, the same
undo data, and the same coins afterwards, whether the call succeeds or not. -/
namespace Candypool.Coins
open Candypool.Prime Candypool.Core

section Views
variable {V W : Type} [CCoinsView V] [CCoinsView W] {u u' : V} {w w' : W}

/-- The coins match, and the best block is the same. -/
structure ViewMatch (u : V) (w : W) : Prop where
  coins : Utxo.Match (getCoins u) (getCoins w)
  best : getBestBlock w = getBestBlock u

theorem Utxo.Match.visible_eq {u w : Utxo} (h : u.Match w) (txid : Uint256) :
    visible (w txid) = visible (u txid) :=
  (h txid).visible_eq

theorem ViewMatch.visibleCoins_eq (h : ViewMatch u w) : visibleCoins w = visibleCoins u :=
  funext fun txid => h.coins.visible_eq txid

theorem ViewMatch.sameInputs (h : ViewMatch u w) (tx : CTransaction) : SameInputs u w tx :=
  fun txin _ => h.coins.visible_eq txin.prevout.hash

theorem ViewMatch.setCoins (h : ViewMatch u w) (txid : Uint256) {c c' : CCoins}
    (hc : EntryMatch (some c) (some c')) : ViewMatch (setCoins u txid c) (setCoins w txid c') := by
  refine ⟨?_, ?_⟩
  · rw [getCoins_setCoins, getCoins_setCoins]
    exact h.coins.update txid hc
  · rw [getBestBlock_setCoins, getBestBlock_setCoins, h.best]

theorem ViewMatch.setBestBlock (h : ViewMatch u w) (p : BlockPtr) :
    ViewMatch (setBestBlock u p) (setBestBlock w p) := by
  refine ⟨?_, ?_⟩
  · rw [getCoins_setBestBlock, getCoins_setBestBlock]
    exact h.coins
  · rw [getBestBlock_setBestBlock, getBestBlock_setBestBlock]

theorem spendInputs_best {vin : List CTxIn} {undos : List CTxInUndo}
    (h : spendInputs u vin = some (u',undos)) : getBestBlock u' = getBestBlock u := by
  induction vin generalizing u undos with
  | nil =>
    obtain ⟨rfl,-⟩ := Prod.mk.inj (Option.some.inj h)
    rfl
  | cons txin vin ih =>
    obtain ⟨u1,undo,undos1,h1,h2,-⟩ := spendInputs_cons h
    obtain ⟨c,c',-,-,rfl⟩ := spendInput_eq_some h1
    rw [ih h2, getBestBlock_setCoins]

theorem updateCoins_best {tx : CTransaction} {nHeight : ℕ} {txhash : Uint256} {txundo : CTxUndo}
    (h : updateCoins u tx nHeight txhash = some (u',txundo)) : getBestBlock u' = getBestBlock u := by
  obtain ⟨u1,hspend,rfl⟩ := updateCoins_eq_some h
  rw [getBestBlock_setCoins]
  rw [markSpent] at hspend
  split_ifs at hspend
  · obtain ⟨rfl,-⟩ := Prod.mk.inj (Option.some.inj hspend)
    rfl
  · exact spendInputs_best hspend

/-- `UpdateCoins` fails on both views, or does the same to both. -/
theorem ViewMatch.updateCoins (h : ViewMatch u w) (tx : CTransaction) (nHeight : ℕ) (txhash : Uint256) :
    Option.Rel (fun r r' : _ × CTxUndo => ViewMatch r.1 r'.1 ∧ TxUndoMatch r.2 r'.2)
      (updateCoins u tx nHeight txhash) (updateCoins w tx nHeight txhash) := by
  cases hw : Coins.updateCoins w tx nHeight txhash with
  | none =>
    cases hu : Coins.updateCoins u tx nHeight txhash with
    | none => exact Option.Rel.none
    | some r =>
      obtain ⟨_,_,hback,-⟩ := updateCoins_visible h.visibleCoins_eq hu
      rw [hw] at hback
      cases hback
  | some r =>
    obtain ⟨w1,txundo'⟩ := r
    obtain ⟨u1,txundo,hu,hmatch,hundo⟩ := updateCoins_match h.coins hw
    rw [hu]
    refine Option.Rel.some ⟨⟨hmatch, ?_⟩, hundo⟩
    rw [updateCoins_best hw, updateCoins_best hu, h.best]

end Views

section Connect
variable {V W : Type} [CCoinsView V] [CCoinsView W] {cons : Consensus}

/-- The loop over the transactions of a block is at the same place over both views. -/
structure LoopMatch (s : BlockLoop V) (s' : BlockLoop W) : Prop where
  view : ViewMatch s.view s'.view
  vtxundo : List.Forall₂ TxUndoMatch s.vtxundo s'.vtxundo
  nFees : s'.nFees = s.nFees
  nValueIn : s'.nValueIn = s.nValueIn
  nValueOut : s'.nValueOut = s.nValueOut
  nSigOps : s'.nSigOps = s.nSigOps
  checks : s'.checks = s.checks

/-- The two turns end alike. -/
def TurnMatch (r : Option ConnectError × BlockLoop V) (r' : Option ConnectError × BlockLoop W) : Prop :=
  r'.1 = r.1 ∧ LoopMatch r.2 r'.2

variable {s : BlockLoop V} {s' : BlockLoop W}

theorem LoopMatch.updateStep (h : LoopMatch s s') (env : LoopEnv) (tx : CTransaction) :
    TurnMatch (updateStep cons env tx s) (updateStep cons env tx s') := by
  have hcoins := h.view.updateCoins tx env.nHeight (cons.ext.txHash tx)
  rw [Coins.updateStep, Coins.updateStep]
  generalize updateCoins s.view tx env.nHeight (cons.ext.txHash tx) = r at hcoins
  generalize updateCoins s'.view tx env.nHeight (cons.ext.txHash tx) = r' at hcoins
  cases hcoins with
  | none => exact ⟨rfl, h⟩
  | some hmatch =>
    obtain ⟨hview,hundo⟩ := hmatch
    refine ⟨rfl, hview, ?_, h.nFees, h.nValueIn, h.nValueOut, h.nSigOps, h.checks⟩
    dsimp only
    split_ifs
    · exact h.vtxundo
    · exact List.rel_append h.vtxundo (List.Forall₂.cons hundo List.Forall₂.nil)

/-- The part of a turn after the inputs were found and the sigops counted. -/
theorem LoopMatch.checkStep (h : LoopMatch s s') (env : LoopEnv) {tx : CTransaction}
    (hin : haveInputs s.view tx = true) (hcb : tx.isCoinBase = false) :
    TurnMatch (checkStep cons env tx s) (checkStep cons env tx s') := by
  have hsame := h.view.sameInputs tx
  rw [Coins.checkStep, Coins.checkStep, h.nSigOps]
  by_cases hsig : s.nSigOps > maxBlockSigOps
  · rw [if_pos hsig, if_pos hsig]
    exact ⟨rfl, h⟩
  rw [if_neg hsig, if_neg hsig]
  dsimp only
  cases tx.getValueOut with
  | none => exact ⟨rfl, h⟩
  | some nTxValueOut =>
    dsimp only
    -- the value read and the checks depend on the visible coins alone
    rw [getValueIn_visible hsame hin hcb, checkInputs_visible cons.ext cons.fees hsame]
    have hvalues : LoopMatch
        { s with
          nValueIn := s.nValueIn+getValueIn s.view tx
          nValueOut := s.nValueOut+nTxValueOut
          nFees := s.nFees+(getValueIn s.view tx-nTxValueOut) }
        { s' with
          nValueIn := s'.nValueIn+getValueIn s.view tx
          nValueOut := s'.nValueOut+nTxValueOut
          nFees := s'.nFees+(getValueIn s.view tx-nTxValueOut)
          nSigOps := s.nSigOps } := by
      refine ⟨h.view, h.vtxundo, ?_, ?_, ?_, rfl, h.checks⟩
      · exact congrArg (· + _) h.nFees
      · exact congrArg (· + _) h.nValueIn
      · exact congrArg (· + _) h.nValueOut
    cases checkInputs cons.ext cons.fees s.view tx env.nSpendHeight env.fScriptChecks env.flags
        cons.fScriptCheckThreads with
    | error e => exact ⟨rfl, hvalues⟩
    | ok vChecks =>
      apply LoopMatch.updateStep
      exact ⟨hvalues.view, hvalues.vtxundo, hvalues.nFees, hvalues.nValueIn, hvalues.nValueOut,
        rfl, congrArg (· ++ vChecks) h.checks⟩

/-- One turn of the loop. -/
theorem LoopMatch.connectTx (h : LoopMatch s s') (env : LoopEnv) (tx : CTransaction) :
    TurnMatch (connectTx cons env tx s) (connectTx cons env tx s') := by
  have hsame := h.view.sameInputs tx
  have hsigops (n : ℕ) : LoopMatch { s with nSigOps := n } { s' with nSigOps := n } :=
    ⟨h.view, h.vtxundo, h.nFees, h.nValueIn, h.nValueOut, rfl, h.checks⟩
  rw [Coins.connectTx, Coins.connectTx]
  dsimp only
  rw [h.nSigOps]
  by_cases hsig : s.nSigOps+tx.getLegacySigOpCount > maxBlockSigOps
  · rw [if_pos hsig, if_pos hsig]
    exact ⟨rfl, hsigops _⟩
  rw [if_neg hsig, if_neg hsig]
  by_cases hcb : tx.isCoinBase = true
  · rw [if_pos hcb, if_pos hcb]
    cases tx.getValueOut with
    | none => exact ⟨rfl, hsigops _⟩
    | some nTxValueOut =>
      apply LoopMatch.updateStep
      exact ⟨h.view, h.vtxundo, h.nFees, h.nValueIn, congrArg (· + nTxValueOut) h.nValueOut, rfl,
        h.checks⟩
  rw [if_neg hcb, if_neg hcb, haveInputs_visible hsame]
  rw [Bool.not_eq_true] at hcb
  cases hin : haveInputs s.view tx with
  | false => exact ⟨rfl, hsigops _⟩
  | true =>
    rw [getP2SHSigOpCount_visible hsame hin hcb]
    simp only [Bool.not_true, Bool.false_eq_true, if_false]
    cases env.fStrictPayToScriptHash with
    | true => exact LoopMatch.checkStep (hsigops _) env hin hcb
    | false => exact LoopMatch.checkStep (hsigops _) env hin hcb

theorem LoopMatch.connectTxs (h : LoopMatch s s') (env : LoopEnv) (vtx : List CTransaction) :
    TurnMatch (connectTxs cons env vtx s) (connectTxs cons env vtx s') := by
  induction vtx generalizing s s' with
  | nil => exact ⟨rfl, h⟩
  | cons tx vtx ih =>
    obtain ⟨herr,hnext⟩ : TurnMatch (Coins.connectTx cons env tx s) (Coins.connectTx cons env tx s') :=
      h.connectTx env tx
    rw [Coins.connectTxs, Coins.connectTxs]
    generalize Coins.connectTx cons env tx s = r at herr hnext
    generalize Coins.connectTx cons env tx s' = r' at herr hnext
    obtain ⟨e,s1⟩ := r
    obtain ⟨e',s1'⟩ := r'
    obtain rfl : e' = e := herr
    cases e' with
    | none => exact ih hnext
    | some e => exact ⟨rfl, hnext⟩

/-- The two calls of `ConnectBlock` have the same verdict, index entry and undo data, and leave views
of the same coins. -/
structure ConnectMatch (r : ConnectResult V) (r' : ConnectResult W) : Prop where
  error : r'.error = r.error
  view : ViewMatch r.view r'.view
  pindex : r'.pindex = r.pindex
  undoWritten : Option.Rel BlockUndoMatch r.undoWritten r'.undoWritten
  blockundo : Option.Rel BlockUndoMatch r.blockundo r'.blockundo

variable {view : V} {view' : W}

theorem ConnectMatch.failed (h : ViewMatch view view') (e : Option ConnectError) (pindex : CBlockIndex) :
    ConnectMatch (⟨e, view, pindex, none, none⟩ : ConnectResult V) ⟨e, view', pindex, none, none⟩ :=
  ⟨rfl, h, rfl, Option.Rel.none, Option.Rel.none⟩

theorem ViewMatch.recordBlock (h : ViewMatch view view') (io : ConnectIO) (ptr : BlockPtr)
    (pindex : CBlockIndex) {undo undo' : CBlockUndo} (hundo : BlockUndoMatch undo undo') :
    ConnectMatch (recordBlock cons io ptr pindex view undo)
      (recordBlock cons io ptr pindex view' undo') := by
  have hbest := h.setBestBlock ptr
  have hsome : Option.Rel BlockUndoMatch (some undo) (some undo') := Option.Rel.some hundo
  rw [Coins.recordBlock, Coins.recordBlock]
  dsimp only
  split_ifs
  all_goals first
    | exact ⟨rfl, h, rfl, Option.Rel.none, hsome⟩
    | exact ⟨rfl, h, rfl, hsome, hsome⟩
    | exact ⟨rfl, hbest, rfl, Option.Rel.none, hsome⟩
    | exact ⟨rfl, hbest, rfl, hsome, hsome⟩

/-- `ConnectBlock` does not tell two views of the same coins apart. -/
theorem ViewMatch.connectBlock (h : ViewMatch view view') (io : ConnectIO)
    (mapBlockIndex : BlockPtr → Option CBlockIndex) (block : CBlock) (ptr : BlockPtr)
    (pindex : CBlockIndex) (fJustCheck : Bool) :
    ConnectMatch (connectBlock cons io mapBlockIndex block ptr pindex view fJustCheck)
      (connectBlock cons io mapBlockIndex block ptr pindex view' fJustCheck) := by
  -- the rule against a known transaction with unspent outputs asks for visible coins
  have hbip30 : (block.vtx.any fun tx => (getCoins view' (cons.ext.txHash tx)).any fun coins =>
      !coins.isPruned) = block.vtx.any fun tx => (getCoins view (cons.ext.txHash tx)).any
        fun coins => !coins.isPruned := by
    congr 1
    ext1 tx
    rw [← visible_isSome, ← visible_isSome]
    exact congrArg Option.isSome (h.coins.visible_eq (cons.ext.txHash tx))
  rw [Coins.connectBlock, Coins.connectBlock]
  dsimp only
  split
  · exact ConnectMatch.failed h _ _
  rw [h.best, hbip30]
  by_cases hprev : pindex.pprev ≠ getBestBlock view
  · rw [if_pos hprev, if_pos hprev]
    exact ConnectMatch.failed h _ _
  rw [if_neg hprev, if_neg hprev]
  by_cases hgenesis : block.getHash cons.ext = cons.hashGenesisBlock
  · rw [if_pos hgenesis, if_pos hgenesis]
    exact ConnectMatch.failed (h.setBestBlock ptr) _ _
  rw [if_neg hgenesis, if_neg hgenesis]
  by_cases hdup : (!bip30Exempt pindex && block.vtx.any fun tx =>
      (getCoins view (cons.ext.txHash tx)).any fun coins => !coins.isPruned) = true
  · rw [if_pos hdup, if_pos hdup]
    exact ConnectMatch.failed h _ _
  rw [if_neg hdup, if_neg hdup]
  split
  · exact ConnectMatch.failed h _ _
  rename_i pprev _
  generalize henv : (LoopEnv.mk pindex.nHeight _ _ _ _) = env
  -- both loops start from empty sums
  have hstart : LoopMatch (⟨view, [], 0, 0, 0, 0, []⟩ : BlockLoop V) ⟨view', [], 0, 0, 0, 0, []⟩ :=
    ⟨h, List.Forall₂.nil, rfl, rfl, rfl, rfl, rfl⟩
  obtain ⟨herr,hloop⟩ : TurnMatch (connectTxs cons env block.vtx ⟨view, [], 0, 0, 0, 0, []⟩)
      (connectTxs cons env block.vtx ⟨view', [], 0, 0, 0, 0, []⟩) :=
    hstart.connectTxs env block.vtx
  generalize connectTxs cons env block.vtx ⟨view, [], 0, 0, 0, 0, []⟩ = r at herr hloop
  generalize connectTxs cons env block.vtx ⟨view', [], 0, 0, 0, 0, []⟩ = r' at herr hloop
  obtain ⟨e,s⟩ := r
  obtain ⟨e',s'⟩ := r'
  obtain rfl : e' = e := herr
  have hview : ViewMatch s.view s'.view := hloop.view
  have hundo : BlockUndoMatch ⟨s.vtxundo⟩ ⟨s'.vtxundo⟩ := hloop.vtxundo
  cases e' with
  | some e => exact ConnectMatch.failed hview _ _
  | none =>
    dsimp only
    rw [hloop.nValueIn, hloop.nValueOut, hloop.nFees, hloop.checks]
    generalize (if fJustCheck = true then pindex else _) = pindex
    by_cases hwrite : (!fJustCheck && !io.writeMoneySupply) = true
    · rw [if_pos hwrite, if_pos hwrite]
      exact ConnectMatch.failed hview _ _
    rw [if_neg hwrite, if_neg hwrite]
    cases block.vtx.head? with
    | none => exact ConnectMatch.failed hview _ _
    | some coinbase =>
      dsimp only
      by_cases hlimit : coinbase.getValueOut.getD 0 > getBlockValue cons.target pindex.nBits s.nFees-
          coinbase.getMinFee cons.fees 1 false .block+minTxFee
      · rw [if_pos hlimit, if_pos hlimit]
        exact ConnectMatch.failed hview _ _
      rw [if_neg hlimit, if_neg hlimit]
      by_cases hscripts : (!s.checks.all (CScriptCheck.run cons.ext)) = true
      · rw [if_pos hscripts, if_pos hscripts]
        exact ConnectMatch.failed hview _ _
      rw [if_neg hscripts, if_neg hscripts]
      cases fJustCheck with
      | true => exact ⟨rfl, hview, rfl, Option.Rel.none, Option.Rel.some hundo⟩
      | false => exact hview.recordBlock io ptr _ hundo

end Connect

section Disconnect
variable {V W : Type} [CCoinsView V] [CCoinsView W] {u : V} {w : W}
  {txHash : CTransaction → Uint256} {nHeight : ℕ}

/-- Undo data that fits an entry fits the matching one, and gives matching coins. -/
theorem restore_match {entry entry' : Option CCoins} (h : EntryMatch entry entry') {n : ℕ}
    {undo : CTxInUndo} (hfits : (CCoins.restore entry n undo).1 = true) :
    (CCoins.restore entry' n undo).1 = true ∧
      CoinMatch (CCoins.restore entry n undo).2 (CCoins.restore entry' n undo).2 := by
  have hpruned : (entry'.getD CCoins.empty).isPruned = (entry.getD CCoins.empty).isPruned := by
    -- a pruned entry and none at all are restored alike
    have hgone (entry : Option CCoins) :
        (entry.getD CCoins.empty).isPruned = (live entry).isNone := by
      cases entry with
      | none => rfl
      | some c =>
        cases hp : c.isPruned with
        | true =>
          rw [live_none_of_pruned hp]
          exact hp
        | false =>
          rw [live_some_iff.mpr ⟨rfl, hp⟩]
          exact hp
    rw [hgone, hgone, Bool.eq_iff_iff, Option.isNone_iff_eq_none, Option.isNone_iff_eq_none]
    exact h.none_iff.symm
  by_cases hheight : undo.nHeight ≠ 0
  · simp only [CCoins.restore, if_pos hheight] at hfits ⊢
    rw [hpruned]
    exact ⟨hfits, CoinMatch.refl _⟩
  · simp only [CCoins.restore, if_neg hheight, Bool.and_eq_true, Bool.not_eq_true'] at hfits ⊢
    obtain ⟨hlive,havail⟩ := hfits
    cases hentry : entry with
    | none =>
      rw [hentry] at hlive
      cases hlive
    | some c =>
      rw [hentry] at hlive havail h
      obtain ⟨c',rfl,hmatch⟩ := h.of_live (live_some_iff.mpr ⟨rfl, hlive⟩)
      simp only [Option.getD_some] at havail ⊢
      refine ⟨⟨hmatch.isPruned.trans hlive, ?_⟩, hmatch.fCoinBase, ?_, hmatch.nHeight, hmatch.nVersion⟩
      · rw [CCoins.isAvailable, hmatch.vout, ← CCoins.isAvailable]
        exact havail
      · dsimp only
        rw [hmatch.vout]

theorem ViewMatch.restoreInputs (h : ViewMatch u w) (vin : List CTxIn) (undos : List CTxInUndo)
    (hclean : (restoreInputs u vin undos).1 = true) : (restoreInputs w vin undos).1 = true ∧
      ViewMatch (restoreInputs u vin undos).2 (restoreInputs w vin undos).2 := by
  induction vin generalizing undos with
  | nil =>
    simp only [Coins.restoreInputs]
    exact ⟨trivial, h⟩
  | cons txin vin ih =>
    cases undos with
    | nil =>
      simp only [Coins.restoreInputs]
      exact ⟨trivial, h⟩
    | cons undo undos =>
      rw [Coins.restoreInputs] at hclean ⊢
      rw [Coins.restoreInputs]
      simp only [Bool.and_eq_true] at hclean ⊢
      obtain ⟨hrest,hmatch⟩ := ih undos hclean.1
      obtain ⟨hfits,hcoins⟩ := restore_match (hmatch.coins txin.prevout.hash) hclean.2
      exact ⟨⟨hrest, hfits⟩, hmatch.setCoins _ hcoins.entry⟩

theorem ViewMatch.removeOutputs (h : ViewMatch u w) {tx : CTransaction} (hc : tx.Checked)
    (hclean : (removeOutputs txHash nHeight u tx).1 = true) :
    (removeOutputs txHash nHeight w tx).1 = true ∧
      ViewMatch (removeOutputs txHash nHeight u tx).2 (removeOutputs txHash nHeight w tx).2 := by
  refine ⟨?_, h.setCoins _ (EntryMatch.refl _)⟩
  simp only [Coins.removeOutputs, Bool.and_eq_true, decide_eq_true_eq] at hclean ⊢
  obtain ⟨hsome,heq⟩ := hclean
  obtain ⟨c,hentry⟩ := Option.isSome_iff_exists.mp hsome
  rw [hentry, Option.getD_some] at heq
  have hout : c.vout = (CCoins.ofTx tx nHeight).vout := by
    rw [← heq]
    split_ifs <;> rfl
  have hlive : c.isPruned = false := by
    rw [CCoins.isPruned, hout]
    exact ofTx_live hc nHeight
  have hmatch := h.coins (txHash tx)
  rw [hentry] at hmatch
  obtain ⟨c',hentry',hcoins⟩ := hmatch.of_live (live_some_iff.mpr ⟨rfl, hlive⟩)
  rw [hentry', Option.getD_some]
  refine ⟨rfl, ?_⟩
  split_ifs at heq ⊢ with hneg
  · rw [← heq, hcoins.fCoinBase, hcoins.vout, hcoins.nHeight]
  · rw [← heq]
    apply hcoins.eq_of_version
    rw [← heq] at hneg
    exact not_lt.mp hneg

/-- The verdicts are the same and the views still match, if the first call found nothing wrong. -/
structure DisconnectMatch (r : DisconnectResult V) (r' : DisconnectResult W) : Prop where
  error : r'.error = r.error
  fClean : r'.fClean = true
  view : ViewMatch r.view r'.view

theorem ViewMatch.disconnectTxs (h : ViewMatch u w) {vtx : List CTransaction}
    (hchecked : ∀ tx ∈ vtx, tx.Checked) (vtxundo : List CTxUndo)
    (hclean : (disconnectTxs txHash nHeight u vtx vtxundo).fClean = true) :
    DisconnectMatch (disconnectTxs txHash nHeight u vtx vtxundo)
      (disconnectTxs txHash nHeight w vtx vtxundo) := by
  induction vtx generalizing vtxundo with
  | nil =>
    simp only [Coins.disconnectTxs]
    exact ⟨rfl, rfl, h⟩
  | cons tx vtx ih =>
    cases vtxundo with
    | nil =>
      simp only [Coins.disconnectTxs]
      exact ⟨rfl, rfl, h⟩
    | cons txundo vtxundo =>
      have hvtx : ∀ tx ∈ vtx, tx.Checked := fun tx htx => hchecked tx (List.mem_cons_of_mem _ htx)
      rw [Coins.disconnectTxs] at hclean ⊢
      rw [Coins.disconnectTxs]
      dsimp only at hclean ⊢
      -- the later transactions are taken back first
      by_cases herr : (Coins.disconnectTxs txHash nHeight u vtx vtxundo).error.isSome = true
      · rw [if_pos herr] at hclean ⊢
        have hrest := ih hvtx vtxundo hclean
        rw [hrest.error, if_pos herr]
        exact hrest
      rw [if_neg herr] at hclean ⊢
      by_cases hlen : txundo.vprevout.length ≠ tx.vin.length
      · rw [if_pos hlen] at hclean ⊢
        simp only [Bool.and_eq_true] at hclean
        have hrest := ih hvtx vtxundo hclean.1
        obtain ⟨hsame,hview⟩ := hrest.view.removeOutputs (hchecked tx List.mem_cons_self) hclean.2
        rw [hrest.error, if_neg herr, if_pos hlen]
        exact ⟨rfl, by rw [hrest.fClean, hsame]; rfl, hview⟩
      · rw [if_neg hlen] at hclean ⊢
        simp only [Bool.and_eq_true] at hclean
        have hrest := ih hvtx vtxundo hclean.1.1
        obtain ⟨hsame,hview⟩ := hrest.view.removeOutputs (hchecked tx List.mem_cons_self) hclean.1.2
        obtain ⟨hfits,hview'⟩ := hview.restoreInputs tx.vin txundo.vprevout hclean.2
        rw [hrest.error, if_neg herr, if_neg hlen]
        exact ⟨rfl, by rw [hrest.fClean, hsame, hfits]; rfl, hview'⟩

/-- A clean `DisconnectBlock` does not tell two views of the same coins apart. -/
theorem ViewMatch.disconnectBlock {cons : Consensus} (h : ViewMatch u w) {block : CBlock}
    (hchecked : ∀ tx ∈ block.vtx, tx.Checked) (ptr : BlockPtr) (pindex : CBlockIndex)
    (blockUndo : Option CBlockUndo)
    (hclean : (disconnectBlock cons block ptr pindex blockUndo u).fClean = true) :
    DisconnectMatch (disconnectBlock cons block ptr pindex blockUndo u)
      (disconnectBlock cons block ptr pindex blockUndo w) := by
  rw [Coins.disconnectBlock.eq_def] at hclean
  rw [Coins.disconnectBlock.eq_def, Coins.disconnectBlock.eq_def, h.best]
  by_cases hbest : getBestBlock u ≠ some ptr
  · rw [if_pos hbest, if_pos hbest]
    exact ⟨rfl, rfl, h⟩
  rw [if_neg hbest] at hclean
  rw [if_neg hbest, if_neg hbest]
  by_cases hundo : (!pindex.nStatus.haveUndo) = true
  · rw [if_pos hundo, if_pos hundo]
    exact ⟨rfl, rfl, h⟩
  rw [if_neg hundo] at hclean
  rw [if_neg hundo, if_neg hundo]
  cases blockUndo with
  | none => exact ⟨rfl, rfl, h⟩
  | some undo =>
    dsimp only at hclean ⊢
    by_cases hlen : undo.vtxundo.length+1 ≠ block.vtx.length
    · rw [if_pos hlen, if_pos hlen]
      exact ⟨rfl, rfl, h⟩
    rw [if_neg hlen] at hclean
    rw [if_neg hlen, if_neg hlen]
    cases hvtx : block.vtx with
    | nil => exact ⟨rfl, rfl, h⟩
    | cons tx vtx =>
      rw [hvtx] at hchecked hclean
      dsimp only at hclean ⊢
      have hrestchecked : ∀ tx ∈ vtx, tx.Checked := fun tx htx =>
        hchecked tx (List.mem_cons_of_mem _ htx)
      by_cases herr : (Coins.disconnectTxs cons.ext.txHash pindex.nHeight u vtx
          undo.vtxundo).error.isSome = true
      · rw [if_pos herr] at hclean ⊢
        have hrest := h.disconnectTxs hrestchecked undo.vtxundo hclean
        rw [hrest.error, if_pos herr]
        exact hrest
      rw [if_neg herr] at hclean ⊢
      simp only [Bool.and_eq_true] at hclean
      have hrest := h.disconnectTxs hrestchecked undo.vtxundo hclean.1
      obtain ⟨hsame,hview⟩ := hrest.view.removeOutputs (hchecked tx List.mem_cons_self) hclean.2
      rw [hrest.error, if_neg herr]
      refine ⟨rfl, by rw [hrest.fClean, hsame]; rfl, ?_⟩
      cases pindex.pprev with
      | none => exact hview
      | some pprev => exact hview.setBestBlock pprev

end Disconnect

section Best
variable {V : Type} [CCoinsView V] {cons : Consensus}

theorem updateStep_best (env : LoopEnv) (tx : CTransaction) (s : BlockLoop V) :
    getBestBlock (updateStep cons env tx s).2.view = getBestBlock s.view := by
  rw [updateStep]
  split
  · rfl
  · rename_i view txundo hupdate
    exact updateCoins_best hupdate

theorem checkStep_best (env : LoopEnv) (tx : CTransaction) (s : BlockLoop V) :
    getBestBlock (checkStep cons env tx s).2.view = getBestBlock s.view := by
  rw [checkStep]
  by_cases hsig : s.nSigOps > maxBlockSigOps
  · rw [if_pos hsig]
  rw [if_neg hsig]
  dsimp only
  cases tx.getValueOut with
  | none => rfl
  | some nTxValueOut =>
    dsimp only
    cases checkInputs cons.ext cons.fees s.view tx env.nSpendHeight env.fScriptChecks env.flags
        cons.fScriptCheckThreads with
    | error e => rfl
    | ok vChecks => exact updateStep_best env tx _

theorem connectTx_best (env : LoopEnv) (tx : CTransaction) (s : BlockLoop V) :
    getBestBlock (connectTx cons env tx s).2.view = getBestBlock s.view := by
  rw [connectTx]
  dsimp only
  by_cases hsig : s.nSigOps+tx.getLegacySigOpCount > maxBlockSigOps
  · rw [if_pos hsig]
  rw [if_neg hsig]
  by_cases hcb : tx.isCoinBase = true
  · rw [if_pos hcb]
    cases tx.getValueOut with
    | none => rfl
    | some nTxValueOut => exact updateStep_best env tx _
  rw [if_neg hcb]
  by_cases hin : (!haveInputs s.view tx) = true
  · rw [if_pos hin]
  rw [if_neg hin]
  cases env.fStrictPayToScriptHash with
  | true => exact checkStep_best env tx _
  | false => exact checkStep_best env tx _

theorem connectTxs_best (env : LoopEnv) (vtx : List CTransaction) (s : BlockLoop V) :
    getBestBlock (connectTxs cons env vtx s).2.view = getBestBlock s.view := by
  induction vtx generalizing s with
  | nil => rfl
  | cons tx vtx ih =>
    have hturn : getBestBlock (connectTx cons env tx s).2.view = getBestBlock s.view :=
      connectTx_best env tx s
    rw [connectTxs]
    generalize connectTx cons env tx s = r at hturn
    obtain ⟨e,s1⟩ := r
    cases e with
    | none => exact (ih s1).trans hturn
    | some e => exact hturn

theorem recordBlock_best (io : ConnectIO) (ptr : BlockPtr) (pindex : CBlockIndex) (view : V)
    (blockundo : CBlockUndo) :
    getBestBlock (recordBlock cons io ptr pindex view blockundo).view = getBestBlock view ∨
      getBestBlock (recordBlock cons io ptr pindex view blockundo).view = some ptr := by
  rw [recordBlock]
  dsimp only
  split_ifs
  all_goals first
    | exact Or.inl rfl
    | exact Or.inr (getBestBlock_setBestBlock _ _)

/-- `ConnectBlock` leaves the best block alone or makes the block the best one; the latter not in a
dry run, except for the genesis block. -/
theorem connectBlock_best (io : ConnectIO) (mapBlockIndex : BlockPtr → Option CBlockIndex)
    (block : CBlock) (ptr : BlockPtr) (pindex : CBlockIndex) (view : V) (fJustCheck : Bool) :
    getBestBlock (connectBlock cons io mapBlockIndex block ptr pindex view fJustCheck).view =
        getBestBlock view ∨
      getBestBlock (connectBlock cons io mapBlockIndex block ptr pindex view fJustCheck).view = some ptr ∧
        (fJustCheck = false ∨ block.getHash cons.ext = cons.hashGenesisBlock) := by
  rw [connectBlock]
  dsimp only
  split
  · exact Or.inl rfl
  by_cases hprev : pindex.pprev ≠ getBestBlock view
  · rw [if_pos hprev]
    exact Or.inl rfl
  rw [if_neg hprev]
  by_cases hgenesis : block.getHash cons.ext = cons.hashGenesisBlock
  · rw [if_pos hgenesis]
    exact Or.inr ⟨getBestBlock_setBestBlock _ _, Or.inr hgenesis⟩
  rw [if_neg hgenesis]
  by_cases hdup : (!bip30Exempt pindex && block.vtx.any fun tx =>
      (getCoins view (cons.ext.txHash tx)).any fun coins => !coins.isPruned) = true
  · rw [if_pos hdup]
    exact Or.inl rfl
  rw [if_neg hdup]
  split
  · exact Or.inl rfl
  rename_i pprev _
  generalize henv : (LoopEnv.mk pindex.nHeight _ _ _ _) = env
  -- the loop never sets the best block
  have hloop : getBestBlock (connectTxs cons env block.vtx ⟨view, [], 0, 0, 0, 0, []⟩).2.view =
      getBestBlock view := connectTxs_best env block.vtx _
  generalize connectTxs cons env block.vtx ⟨view, [], 0, 0, 0, 0, []⟩ = r at hloop
  obtain ⟨e,s⟩ := r
  cases e with
  | some e => exact Or.inl hloop
  | none =>
    dsimp only at hloop ⊢
    generalize (if fJustCheck = true then pindex else _) = pindex
    by_cases hwrite : (!fJustCheck && !io.writeMoneySupply) = true
    · rw [if_pos hwrite]
      exact Or.inl hloop
    rw [if_neg hwrite]
    cases block.vtx.head? with
    | none => exact Or.inl hloop
    | some coinbase =>
      dsimp only
      by_cases hlimit : coinbase.getValueOut.getD 0 > getBlockValue cons.target pindex.nBits s.nFees-
          coinbase.getMinFee cons.fees 1 false .block+minTxFee
      · rw [if_pos hlimit]
        exact Or.inl hloop
      rw [if_neg hlimit]
      by_cases hscripts : (!s.checks.all (CScriptCheck.run cons.ext)) = true
      · rw [if_pos hscripts]
        exact Or.inl hloop
      rw [if_neg hscripts]
      cases fJustCheck with
      | true => exact Or.inl hloop
      | false =>
        obtain hkeep | hset := recordBlock_best io ptr pindex s.view ⟨s.vtxundo⟩
        · exact Or.inl (hkeep.trans hloop)
        · exact Or.inr ⟨hset, Or.inl rfl⟩

theorem removeOutputs_best (txHash : CTransaction → Uint256) (nHeight : ℕ) (view : V)
    (tx : CTransaction) :
    getBestBlock (removeOutputs txHash nHeight view tx).2 = getBestBlock view :=
  getBestBlock_setCoins _ _ _

theorem restoreInputs_best (view : V) (vin : List CTxIn) (undos : List CTxInUndo) :
    getBestBlock (restoreInputs view vin undos).2 = getBestBlock view := by
  induction vin generalizing undos with
  | nil => simp only [restoreInputs]
  | cons txin vin ih =>
    cases undos with
    | nil => simp only [restoreInputs]
    | cons undo undos => exact (getBestBlock_setCoins _ _ _).trans (ih undos)

theorem disconnectTxs_best (txHash : CTransaction → Uint256) (nHeight : ℕ) (view : V)
    (vtx : List CTransaction) (vtxundo : List CTxUndo) :
    getBestBlock (disconnectTxs txHash nHeight view vtx vtxundo).view = getBestBlock view := by
  induction vtx generalizing vtxundo with
  | nil => simp only [disconnectTxs]
  | cons tx vtx ih =>
    cases vtxundo with
    | nil => simp only [disconnectTxs]
    | cons txundo vtxundo =>
      have hrest : getBestBlock (disconnectTxs txHash nHeight view vtx vtxundo).view =
          getBestBlock view := ih vtxundo
      rw [disconnectTxs]
      dsimp only
      split_ifs
      · exact hrest
      · exact (removeOutputs_best txHash nHeight _ tx).trans hrest
      · exact (restoreInputs_best _ _ _).trans ((removeOutputs_best txHash nHeight _ tx).trans hrest)

/-- `DisconnectBlock` leaves the best block alone or makes the block before it the best one. -/
theorem disconnectBlock_best (block : CBlock) (ptr : BlockPtr) (pindex : CBlockIndex)
    (blockUndo : Option CBlockUndo) (view : V) :
    getBestBlock (disconnectBlock cons block ptr pindex blockUndo view).view = getBestBlock view ∨
      ∃ pprev, pindex.pprev = some pprev ∧
        getBestBlock (disconnectBlock cons block ptr pindex blockUndo view).view = some pprev := by
  rw [disconnectBlock.eq_def]
  by_cases hbest : getBestBlock view ≠ some ptr
  · rw [if_pos hbest]
    exact Or.inl rfl
  rw [if_neg hbest]
  by_cases hundo : (!pindex.nStatus.haveUndo) = true
  · rw [if_pos hundo]
    exact Or.inl rfl
  rw [if_neg hundo]
  cases blockUndo with
  | none => exact Or.inl rfl
  | some undo =>
    dsimp only
    by_cases hlen : undo.vtxundo.length+1 ≠ block.vtx.length
    · rw [if_pos hlen]
      exact Or.inl rfl
    rw [if_neg hlen]
    cases block.vtx with
    | nil => exact Or.inl rfl
    | cons tx vtx =>
      have hrest : getBestBlock (disconnectTxs cons.ext.txHash pindex.nHeight view vtx
          undo.vtxundo).view = getBestBlock view := disconnectTxs_best _ _ _ _ _
      dsimp only
      split_ifs
      · exact Or.inl hrest
      · cases pindex.pprev with
        | none => exact Or.inl ((removeOutputs_best _ pindex.nHeight _ tx).trans hrest)
        | some pprev => exact Or.inr ⟨pprev, rfl, getBestBlock_setBestBlock _ _⟩

end Best
end Candypool.Coins
