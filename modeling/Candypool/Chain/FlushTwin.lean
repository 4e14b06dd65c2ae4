import Candypool.Chain.Consistency

/-! Two nodes that make the same calls and differ in when they write the coin cache out. Their
coins look the same throughout, so chain selection does the same in both. The memory pool can tell
them apart: it asks whether a transaction has an entry, and a fully spent or disconnected one keeps
an empty entry in the cache until the cache is written out. -/
namespace Candypool.Chain
open Candypool.Prime Candypool.Core Candypool.Coins Candypool.Lib

section Accept
variable {cons : Consensus} {tip tip' : Utxo} {tx : CTransaction}

/-- The transactions `accept` asks for: the one that came and those its inputs spend from. -/
def askedFor (cons : Consensus) (tx : CTransaction) : List Uint256 :=
  cons.ext.txHash tx :: tx.vin.map fun txin => txin.prevout.hash

/-- An entry all of whose outputs are spent or taken back. -/
def isEmptyEntry (entry : Option CCoins) : Bool := entry.any CCoins.isPruned

/-- What `accept` asks for has an empty entry in both tips or in none. -/
def EmptyAlike (cons : Consensus) (tip tip' : Utxo) (tx : CTransaction) : Prop :=
  ∀ txid ∈ askedFor cons tx, isEmptyEntry (tip' txid) = isEmptyEntry (tip txid)

/-- The two tips answer alike for everything `accept` asks for. -/
def SameAnswers (cons : Consensus) (tip tip' : Utxo) (tx : CTransaction) : Prop :=
  ∀ txid ∈ askedFor cons tx, (tip' txid).isSome = (tip txid).isSome ∧
    visible (tip' txid) = visible (tip txid)

theorem isSome_eq_visible (entry : Option CCoins) :
    entry.isSome = ((visible entry).isSome || isEmptyEntry entry) := by
  cases entry with
  | none => rfl
  | some coins =>
    cases hp : coins.isPruned with
    | true => rw [isEmptyEntry, Option.any_some, hp, Bool.or_true, Option.isSome_some]
    | false => rw [visible_of_live hp, Option.isSome_some, Option.isSome_some, Bool.true_or]

theorem EmptyAlike.sameAnswers (h : EmptyAlike cons tip tip' tx)
    (hv : visibleCoins tip' = visibleCoins tip) : SameAnswers cons tip tip' tx := by
  intro txid hmem
  have hseen : visible (tip' txid) = visible (tip txid) := congrFun hv txid
  refine ⟨?_, hseen⟩
  rw [isSome_eq_visible, isSome_eq_visible (tip txid), hseen, h txid hmem]

/-- The view over the pool answers alike, too. -/
theorem SameAnswers.view (h : SameAnswers cons tip tip' tx) (pool : CTxMemPool) :
    SameAnswers cons (pool.view tip) (pool.view tip') tx := by
  intro txid hmem
  obtain ⟨hsome,hseen⟩ := h txid hmem
  rw [CTxMemPool.view, CTxMemPool.view]
  cases htip : tip txid with
  | none =>
    rw [htip] at hsome
    have htip' : tip' txid = none := by
      rw [← Option.not_isSome_iff_eq_none, hsome]
      exact Bool.false_ne_true
    rw [htip']
    exact ⟨rfl, rfl⟩
  | some coins =>
    rw [htip] at hsome hseen
    obtain ⟨coins',htip'⟩ := Option.isSome_iff_exists.mp hsome
    rw [htip'] at hseen ⊢
    exact ⟨rfl, hseen⟩

theorem SameAnswers.inputs (h : SameAnswers cons tip tip' tx) : SameInputs tip tip' tx := by
  intro txin hmem
  exact (h _ (List.mem_cons_of_mem _ (List.mem_map_of_mem hmem))).2

theorem SameAnswers.anyMissing (h : SameAnswers cons tip tip' tx) :
    (tx.vin.any fun txin => (tip' txin.prevout.hash).isNone) =
      tx.vin.any fun txin => (tip txin.prevout.hash).isNone := by
  rw [Bool.eq_iff_iff, List.any_eq_true, List.any_eq_true]
  have hone : ∀ txin ∈ tx.vin, (tip' txin.prevout.hash).isNone = (tip txin.prevout.hash).isNone := by
    intro txin hmem
    have hsome := (h _ (List.mem_cons_of_mem _ (List.mem_map_of_mem hmem))).1
    rw [← Option.not_isSome, ← Option.not_isSome, hsome]
  constructor
  · rintro ⟨txin,hmem,hnone⟩
    exact ⟨txin, hmem, (hone txin hmem).symm.trans hnone⟩
  · rintro ⟨txin,hmem,hnone⟩
    exact ⟨txin, hmem, (hone txin hmem).trans hnone⟩

theorem SameAnswers.acceptInputs (h : SameAnswers cons tip tip' tx) (io : AcceptIO)
    (nSpendHeight : ℤ) (fLimitFree : Bool) :
    Chain.acceptInputs cons io tip' nSpendHeight tx fLimitFree =
      Chain.acceptInputs cons io tip nSpendHeight tx fLimitFree := by
  rw [Chain.acceptInputs, Chain.acceptInputs, (h _ List.mem_cons_self).1, h.anyMissing,
    haveInputs_visible h.inputs]
  by_cases hknown : (tip (cons.ext.txHash tx)).isSome = true
  · rw [if_pos hknown, if_pos hknown]
  rw [if_neg hknown, if_neg hknown]
  by_cases hmissing : (tx.vin.any fun txin => (tip txin.prevout.hash).isNone) = true
  · rw [if_pos hmissing, if_pos hmissing]
  rw [if_neg hmissing, if_neg hmissing]
  cases hin : haveInputs tip tx with
  | false => rfl
  | true =>
    have hvalue : getValueIn tip' tx = getValueIn tip tx := by
      by_cases hcb : tx.isCoinBase = true
      · rw [getValueIn, getValueIn, if_pos hcb, if_pos hcb]
      · rw [Bool.not_eq_true] at hcb
        exact getValueIn_visible h.inputs hin hcb
    rw [hvalue, checkInputs_visible cons.ext cons.fees h.inputs]

/-- `accept` gives the same verdict, leaves the same pool and reports the same missing inputs. -/
theorem SameAnswers.accept (h : SameAnswers cons tip tip' tx) (io : AcceptIO) (nSpendHeight : ℤ)
    (pool : CTxMemPool) (fCheckInputs fLimitFree : Bool) :
    Chain.accept cons io tip' nSpendHeight pool tx fCheckInputs fLimitFree =
        Chain.accept cons io tip nSpendHeight pool tx fCheckInputs fLimitFree ∧
      missingInputs cons io tip' pool tx fCheckInputs =
        missingInputs cons io tip pool tx fCheckInputs := by
  have hview := h.view pool
  constructor
  · rw [Chain.accept, Chain.accept, hview.acceptInputs]
  · rw [missingInputs, missingInputs, (hview _ List.mem_cons_self).1, hview.anyMissing]

/-- Without a look at the inputs the coins do not matter. -/
theorem accept_unchecked (io : AcceptIO) (nSpendHeight : ℤ) (pool : CTxMemPool) (fLimitFree : Bool) :
    accept cons io tip' nSpendHeight pool tx false fLimitFree =
        accept cons io tip nSpendHeight pool tx false fLimitFree ∧
      missingInputs cons io tip' pool tx false = missingInputs cons io tip pool tx false := by
  rw [accept, accept, missingInputs, missingInputs]
  exact ⟨rfl, rfl⟩

/-- A transaction whose entry is there, be it empty, is refused. -/
theorem accept_known (h : (tip (cons.ext.txHash tx)).isSome = true) (io : AcceptIO)
    (nSpendHeight : ℤ) (pool : CTxMemPool) (fLimitFree : Bool) :
    accept cons io tip nSpendHeight pool tx true fLimitFree = none := by
  have hview : (pool.view tip (cons.ext.txHash tx)).isSome = true := by
    obtain ⟨coins,hcoins⟩ := Option.isSome_iff_exists.mp h
    rw [CTxMemPool.view, hcoins]
    rfl
  have hrefused : acceptInputs cons io (pool.view tip) nSpendHeight tx fLimitFree = false := by
    rw [acceptInputs, if_pos hview]
  rw [accept, hrefused]
  split_ifs <;> first
    | rfl
    | contradiction

end Accept

section Node
variable {W : Type} {s s' : NodeState W}

/-- The two nodes are the same but for the coins, where they are kept and their undo data. -/
def SameNode (s s' : NodeState W) : Prop :=
  ∃ pcoinsdbview cacheCoins undoFile, s' = { s with
    pcoinsdbview := pcoinsdbview, cacheCoins := cacheCoins, undoFile := undoFile }

theorem SameNode.refl (s : NodeState W) : SameNode s s := ⟨_, _, _, rfl⟩

theorem SameNode.chainFile (h : SameNode s s') : s'.chainFile = s.chainFile := by
  obtain ⟨_,_,_,rfl⟩ := h
  rfl

theorem SameNode.readBlock (h : SameNode s s') (cons : Consensus) (io : ChainIO) (p : BlockPtr)
    (pindex : CBlockIndex) : s'.readBlock cons io p pindex = s.readBlock cons io p pindex := by
  obtain ⟨_,_,_,rfl⟩ := h
  rfl

theorem SameNode.invalidChainFound (h : SameNode s s') (p : BlockPtr) :
    SameNode (s.invalidChainFound p) (s'.invalidChainFound p) := by
  obtain ⟨_,_,_,rfl⟩ := h
  rw [NodeState.invalidChainFound, NodeState.invalidChainFound]
  dsimp only
  split_ifs <;> exact ⟨_, _, _, rfl⟩

theorem SameNode.markFailed (h : SameNode s s') (l : List BlockPtr) :
    SameNode (Chain.markFailed s l) (Chain.markFailed s' l) := by
  induction l generalizing s s' with
  | nil => exact h
  | cons p l ih =>
    apply ih
    obtain ⟨_,_,_,rfl⟩ := h
    exact ⟨_, _, _, rfl⟩

theorem SameNode.insertIndex (h : SameNode s s') (cons : Consensus) (block : CBlock) :
    SameNode (Chain.insertIndex cons s block) (Chain.insertIndex cons s' block) := by
  obtain ⟨_,_,_,rfl⟩ := h
  exact ⟨_, _, _, rfl⟩

/-- A failed block is treated alike if it is not on the main chain. -/
theorem SameNode.connectFailed (h : SameNode s s')
    (nested : NodeState W → ChainExit × NodeState W) (pindexNew : BlockPtr) {p : BlockPtr}
    (e : ConnectError) (hnext : nextOf s.mapBlockIndex p = none) :
    (Chain.connectFailed nested pindexNew p e s').1 = (Chain.connectFailed nested pindexNew p e s).1 ∧
      SameNode (Chain.connectFailed nested pindexNew p e s).2
        (Chain.connectFailed nested pindexNew p e s').2 := by
  have hnext' : nextOf s'.mapBlockIndex p = none := by
    obtain ⟨_,_,_,rfl⟩ := h
    exact hnext
  -- without a successor the nested call is never made
  rw [@connectFailed_nested W nested (fun s => (.ok, s)) pindexNew p e s hnext,
    @connectFailed_nested W nested (fun s => (.ok, s)) pindexNew p e s' hnext']
  rw [Chain.connectFailed, Chain.connectFailed]
  by_cases he : e.isInvalid = true
  swap
  · rw [if_neg he, if_neg he]
    exact ⟨rfl, h⟩
  rw [if_pos he, if_pos he]
  obtain ⟨_,_,_,h1⟩ := h.invalidChainFound pindexNew
  rw [invalidBlockFound, invalidBlockFound]
  -- the states once the failed block is marked
  generalize hs1 : ({ s.invalidChainFound pindexNew with
    mapBlockIndex := modifyIndex (s.invalidChainFound pindexNew).mapBlockIndex p fun pindex =>
      { pindex with nStatus := { pindex.nStatus with failedValid := true } }
    setBlockIndexValid := (s.invalidChainFound pindexNew).setBlockIndexValid.filter (· ≠ p) } :
    NodeState W) = s1
  generalize hs1' : ({ s'.invalidChainFound pindexNew with
    mapBlockIndex := modifyIndex (s'.invalidChainFound pindexNew).mapBlockIndex p fun pindex =>
      { pindex with nStatus := { pindex.nStatus with failedValid := true } }
    setBlockIndexValid := (s'.invalidChainFound pindexNew).setBlockIndexValid.filter (· ≠ p) } :
    NodeState W) = s1'
  have hsame1 : SameNode s1 s1' := by
    rw [← hs1, ← hs1', h1]
    exact ⟨_, _, _, rfl⟩
  obtain ⟨_,_,_,h2⟩ := hsame1.invalidChainFound p
  rw [h2]
  dsimp only
  split_ifs <;> exact ⟨rfl, _, _, _, rfl⟩

/-- What a `ConnectBlock` call leaves in the two nodes. -/
theorem SameNode.connected (h : SameNode s s') (cons : Consensus) (sync : WalletSync W)
    (p : BlockPtr) (block : CBlock) {r r' : ConnectResult CCoinsViewCache} (hr : SameVerdict r r') :
    SameNode (s.connected cons sync p block r) (s'.connected cons sync p block r') := by
  obtain ⟨_,_,_,rfl⟩ := h
  rw [NodeState.connected, NodeState.connected, hr.error, hr.pindex, hr.blockundo]
  exact ⟨_, _, _, rfl⟩

end Node

section Loops
variable {W : Type} {cons : Consensus} {sync : WalletSync W} {io io' : ChainIO}
  {s s' : NodeState W} {best f : BlockPtr}

/-- The outcomes of two calls that may differ in the flush to the database. -/
def SameButFlush (io io' : ChainIO) : Prop :=
  ∃ fFlush checkDiskSpace flush, io' = { io with
    fFlush := fFlush, checkDiskSpace := checkDiskSpace, flush := flush }

/-- The view after the blocks down to `f` were taken back: it holds the coins of the chain that
ends there, and an entry for every transaction that is to come back to the pool. -/
structure TakenBack (cons : Consensus) (s : NodeState W) (f : BlockPtr) (view : CCoinsViewCache)
    (vResurrect : List CTransaction) : Prop where
  temp : Temp s view
  best : getBestBlock view = some f
  coins : ∃ u, Replays cons s.chainFile f u ∧ u.Match (getCoins view)
  known : ∀ tx ∈ vResurrect, (getCoins view (cons.ext.txHash tx)).isSome = true

theorem known_setBestBlock (txid : Uint256) (view : CCoinsViewCache) (p : BlockPtr)
    (h : (getCoins view txid).isSome = true) :
    (getCoins (setBestBlock view p) txid).isSome = true := h

theorem TakenBack.step {p q : BlockPtr} {view : CCoinsViewCache} {vResurrect : List CTransaction}
    {pindex : CBlockIndex} {block : CBlock} {r : DisconnectResult CCoinsViewCache}
    (hl : LedgerAt cons s best) (h : TakenBack cons s p view vResurrect)
    (hparent : parentOf s.mapBlockIndex p = some q)
    (hstep : DisconnectStep cons io s p view pindex block r) :
    TakenBack cons s q r.view (resurrectQueue cons pindex block ++ vResurrect) := by
  obtain ⟨htemp,hbest⟩ := disconnectStep_temp hparent h.temp hstep
  refine ⟨htemp, hbest, hstep.ledger hl hparent h.coins, fun tx hmem => ?_⟩
  rcases List.mem_append.mp hmem with hmem | hmem
  · exact disconnectBlock_known hstep.result hstep.ok (resurrectQueue_mem hmem)
  · exact disconnectBlock_closed (known_closed _) (known_setBestBlock _) hstep.result hstep.ok
      (h.known tx hmem)

/-- Whether a block can be taken back depends on its undo data alone. -/
theorem TakenBack.disconnect {p q : BlockPtr} {view : CCoinsViewCache}
    {vResurrect : List CTransaction} {pindex : CBlockIndex} {block : CBlock}
    (hl : LedgerAt cons s best) (h : TakenBack cons s p view vResurrect)
    (hparent : parentOf s.mapBlockIndex p = some q) (hentry : s.mapBlockIndex p = some pindex)
    (hread : s.readBlock cons io p pindex = some block)
    {r : DisconnectResult CCoinsViewCache}
    (hr : disconnectBlock cons block p pindex (s.readUndo io p) view = r) :
    (r.error.isSome || !r.fClean) = !(pindex.nStatus.haveUndo && io.readUndo p) := by
  cases hgood : pindex.nStatus.haveUndo && io.readUndo p with
  | true =>
    rw [Bool.and_eq_true] at hgood
    obtain ⟨view',hdisc,-⟩ := disconnectBlock_ledger hl hparent h.coins hentry hread h.best hgood.1
      hgood.2
    rw [hr] at hdisc
    rw [hdisc]
    rfl
  | false =>
    have herr : r.error ≠ none := by
      intro hok
      obtain ⟨-,hhave,undo,_,_,hundo,-⟩ := disconnectBlock_ok hr hok
      rw [NodeState.readUndo] at hundo
      split_ifs at hundo with hio
      rw [hhave, hio] at hgood
      cases hgood
    rw [Option.isSome_iff_ne_none.mpr herr]
    rfl

/-- The loop over the disconnected blocks fails in both runs, or succeeds in both and leaves the
same transactions to resurrect. -/
theorem disconnectLoop_twin (hl : LedgerAt cons s best) (hl' : LedgerAt cons s' best)
    (hsame : SameNode s s') (hio : SameButFlush io io') {b : BlockPtr} {ps : List BlockPtr}
    (hpath : Path (parentOf s.mapBlockIndex) b ps f) {view view' : CCoinsViewCache}
    {vResurrect : List CTransaction} (h : TakenBack cons s b view vResurrect)
    (h' : TakenBack cons s' b view' vResurrect) :
    (∃ exit, disconnectLoop cons io s ps view vResurrect = .error exit ∧
      disconnectLoop cons io' s' ps view' vResurrect = .error exit) ∨
    ∃ view1 view1' vResurrect1, disconnectLoop cons io s ps view vResurrect =
        .ok (view1,vResurrect1) ∧
      disconnectLoop cons io' s' ps view' vResurrect = .ok (view1',vResurrect1) ∧
      TakenBack cons s f view1 vResurrect1 ∧ TakenBack cons s' f view1' vResurrect1 := by
  -- both nodes have one index
  have hmap : s'.mapBlockIndex = s.mapBlockIndex := by
    obtain ⟨_,_,_,rfl⟩ := hsame
    rfl
  induction hpath generalizing view view' vResurrect with
  | nil a => exact Or.inr ⟨view, view', vResurrect, rfl, rfl, h, h'⟩
  | @cons p q f ps hparent hrest ih =>
    obtain ⟨pindex,hp,-⟩ := Option.bind_eq_some_iff.mp hparent
    have hp' : s'.mapBlockIndex p = some pindex := by rw [hmap, hp]
    have hread : s'.readBlock cons io' p pindex = s.readBlock cons io p pindex := by
      obtain ⟨_,_,_,rfl⟩ := hio
      exact hsame.readBlock cons _ p pindex
    have hundo : io'.readUndo p = io.readUndo p := by
      obtain ⟨_,_,_,rfl⟩ := hio
      rfl
    rw [disconnectLoop, disconnectLoop, hp, hp']
    dsimp only
    rw [hread]
    cases hblock : s.readBlock cons io p pindex with
    | none => exact Or.inl ⟨.readBlock, rfl, rfl⟩
    | some block =>
      rw [hblock] at hread
      dsimp only
      -- both take the block back, or both fail
      generalize hr : disconnectBlock cons block p pindex (s.readUndo io p) view = r
      generalize hr' : disconnectBlock cons block p pindex (s'.readUndo io' p) view' = r'
      have hparent' : parentOf s'.mapBlockIndex p = some q := by rw [hmap, hparent]
      have hfail := h.disconnect hl hparent hp hblock hr
      have hfail' := h'.disconnect hl' hparent' hp' hread hr'
      rw [hundo] at hfail'
      rw [hfail, hfail']
      by_cases hbad : (!(pindex.nStatus.haveUndo && io.readUndo p)) = true
      · rw [if_pos hbad, if_pos hbad]
        exact Or.inl ⟨.disconnect, rfl, rfl⟩
      rw [if_neg hbad, if_neg hbad]
      rw [Bool.not_eq_true] at hbad
      rw [hbad, Bool.or_eq_false_iff, Option.isSome_eq_false_iff, Option.isNone_iff_eq_none,
        Bool.not_eq_false'] at hfail hfail'
      exact ih (h.step hl hparent ⟨hp, hblock, hr, hfail.1, hfail.2⟩)
        (h'.step hl' hparent' ⟨hp', hread, hr', hfail'.1, hfail'.2⟩)

/-- A call that has come to block `f`, with entries for the transactions to resurrect. -/
def KnownAt (cons : Consensus) (s : NodeState W) (vResurrect : List CTransaction) (f : BlockPtr)
    (s1 : NodeState W) (view : CCoinsViewCache) : Prop :=
  ViewAt s f s1 view ∧ ∀ tx ∈ vResurrect, (getCoins view (cons.ext.txHash tx)).isSome = true

theorem KnownAt.connected {vResurrect : List CTransaction} {p : BlockPtr} {s1 : NodeState W}
    {view : CCoinsViewCache} {pindex : CBlockIndex} {block : CBlock}
    {r : ConnectResult CCoinsViewCache} (h : KnownAt cons s vResurrect f s1 view)
    (hstep : ConnectStep cons io s1 p view pindex block r) (hok : r.error = none) :
    KnownAt cons s vResurrect p (s1.connected cons sync p block r) r.view := by
  refine ⟨h.1.connected hstep hok, fun tx hmem => ?_⟩
  exact connectBlock_closed (known_closed _) (known_setBestBlock _) hstep.result hok (h.2 tx hmem)

/-- The two loops over the connected blocks end alike. -/
structure SameEnd (cons : Consensus) (s s' : NodeState W) (vResurrect : List CTransaction)
    (pindexNew : BlockPtr) (c c' : ConnectLoop W) : Prop where
  exit : c'.exit = c.exit
  node : SameNode c.node c'.node
  vDelete : c'.vDelete = c.vDelete
  view : c.exit = .ok → visibleCoins c'.view = visibleCoins c.view
  reached : c.exit = .ok → KnownAt cons s vResurrect pindexNew c.node c.view
  reached' : c.exit = .ok → KnownAt cons s' vResurrect pindexNew c'.node c'.view

theorem connectLoop_twin (hio : SameButFlush io io')
    (nested : NodeState W → ChainExit × NodeState W) {parent : BlockPtr → Option BlockPtr}
    {pindexNew : BlockPtr} {ps : List BlockPtr} (hdown : Down parent f ps pindexNew)
    (hps : ∀ p ∈ ps, (s.mapBlockIndex p).isSome = true ∧ nextOf s.mapBlockIndex p = none)
    {s1 s1' : NodeState W} {view view' : CCoinsViewCache} {vResurrect : List CTransaction}
    (hsame : SameNode s1 s1') (hview : visibleCoins view' = visibleCoins view)
    (h : KnownAt cons s vResurrect f s1 view) (h' : KnownAt cons s' vResurrect f s1' view')
    (vDelete : List CTransaction) : SameEnd cons s s' vResurrect pindexNew
      (connectLoop cons sync nested io pindexNew ps s1 view vDelete)
      (connectLoop cons sync nested io' pindexNew ps s1' view' vDelete) := by
  induction hdown generalizing s1 s1' view view' vDelete with
  | nil a => exact ⟨rfl, hsame, rfl, fun _ => hview, fun _ => h, fun _ => h'⟩
  | @cons f p pindexNew ps hparent hrest ih =>
    obtain ⟨hmem,hnext⟩ := hps p List.mem_cons_self
    obtain ⟨pindex,hp⟩ := Option.isSome_iff_exists.mp ((h.1.1.tree.isSome p).trans hmem)
    have hmap : s1'.mapBlockIndex = s1.mapBlockIndex := by
      obtain ⟨_,_,_,rfl⟩ := hsame
      rfl
    have hp' : s1'.mapBlockIndex p = some pindex := by rw [hmap, hp]
    have hread : s1'.readBlock cons io' p pindex = s1.readBlock cons io p pindex := by
      obtain ⟨_,_,_,rfl⟩ := hio
      exact hsame.readBlock cons _ p pindex
    have hconnect : io'.connect p = io.connect p := by
      obtain ⟨_,_,_,rfl⟩ := hio
      rfl
    rw [connectLoop, connectLoop, hp, hp']
    dsimp only
    rw [hread]
    cases hblock : s1.readBlock cons io p pindex with
    | none =>
      have hbad : ChainExit.readBlock ≠ .ok := by decide
      exact ⟨rfl, hsame, rfl, fun hok => absurd hok hbad, fun hok => absurd hok hbad,
        fun hok => absurd hok hbad⟩
    | some block =>
      rw [hblock] at hread
      dsimp only
      rw [hconnect, hmap]
      -- the verdict depends on the visible coins alone
      have hverdict : SameVerdict
          (connectBlock cons (io.connect p) s1.mapBlockIndex block p pindex view false)
          (connectBlock cons (io.connect p) s1.mapBlockIndex block p pindex view' false) :=
        connectBlock_visible _ _ _ _ _ hview (h'.1.2.2.2.trans h.1.2.2.2.symm)
      generalize hr : connectBlock cons (io.connect p) s1.mapBlockIndex block p pindex view false = r
        at hverdict
      generalize hr' : connectBlock cons (io.connect p) s1.mapBlockIndex block p pindex view' false =
        r' at hverdict
      have hsame1 := hsame.connected cons sync p block hverdict
      rw [hverdict.error]
      cases herr : r.error with
      | some e =>
        -- the failed block is in no main chain, so it has no successor
        have hnext1 : nextOf (s1.connected cons sync p block r).mapBlockIndex p = none := by
          rw [(connected_same hp hr).1.next, h.1.1.next, hnext]
        obtain ⟨hexit,hnode⟩ := hsame1.connectFailed nested pindexNew e hnext1
        have hbad : (connectFailed nested pindexNew p e (s1.connected cons sync p block r)).1 ≠
            .ok := by
          obtain ⟨w,hw⟩ : ∃ w, connectFailed nested pindexNew p e
            (s1.connected cons sync p block r) = (.connect e, _) := connectFailed_eq hnext1
          rw [hw]
          intro hok
          cases hok
        exact ⟨hexit, hnode, rfl, fun hok => absurd hok hbad, fun hok => absurd hok hbad,
          fun hok => absurd hok hbad⟩
      | none =>
        have hr1 : connectBlock cons (io'.connect p) s1'.mapBlockIndex block p pindex view' false =
            r' := by rw [hconnect, hmap, hr']
        exact ih (fun q hq => hps q (List.mem_cons_of_mem _ hq)) hsame1 (hverdict.view herr)
          (h.connected ⟨hp, hblock, hr⟩ herr)
          (h'.connected ⟨hp', hread, hr1⟩ (hverdict.error.trans herr)) _

end Loops

section Memory
variable {W : Type} {cons : Consensus} {sync : WalletSync W} {io io' : ChainIO}
  {s s' : NodeState W}

/-- The pool decides alike about a transaction whose inputs are looked at: the tips answer alike,
or both have an entry for it. -/
def Agrees (cons : Consensus) (tip tip' : Utxo) (tx : CTransaction) : Prop :=
  SameAnswers cons tip tip' tx ∨
    (tip (cons.ext.txHash tx)).isSome = true ∧ (tip' (cons.ext.txHash tx)).isSome = true

theorem Agrees.accept {tip tip' : Utxo} {tx : CTransaction} (h : Agrees cons tip tip' tx)
    (io : AcceptIO) (nSpendHeight : ℤ) (pool : CTxMemPool) (fLimitFree : Bool) :
    Chain.accept cons io tip' nSpendHeight pool tx true fLimitFree =
      Chain.accept cons io tip nSpendHeight pool tx true fLimitFree := by
  rcases h with h | ⟨h,h'⟩
  · exact (h.accept io nSpendHeight pool true fLimitFree).1
  · rw [accept_known h, accept_known h']

theorem rel_isSome {α : Type} {r : α → α → Prop} {a b : Option α} (h : Option.Rel r a b) :
    b.isSome = a.isSome := by
  cases h <;> rfl

/-- A transaction the pool decides alike about is taken in both nodes or in none. -/
theorem SameNode.acceptToMemoryPool (h : SameNode s s')
    (hbest : getBestBlock s'.pcoinsTip = getBestBlock s.pcoinsTip) {io : AcceptIO}
    {tx : CTransaction} {fCheckInputs fLimitFree : Bool}
    (haccept : ∀ nSpendHeight, accept cons io s'.pcoinsTip.coinsOf nSpendHeight s.mempool tx
        fCheckInputs fLimitFree =
      accept cons io s.pcoinsTip.coinsOf nSpendHeight s.mempool tx fCheckInputs fLimitFree) :
    Option.Rel SameNode (s.acceptToMemoryPool cons sync io tx fCheckInputs fLimitFree)
      (s'.acceptToMemoryPool cons sync io tx fCheckInputs fLimitFree) := by
  have hmap : s'.mapBlockIndex = s.mapBlockIndex ∧ s'.mempool = s.mempool := by
    obtain ⟨_,_,_,rfl⟩ := h
    exact ⟨rfl, rfl⟩
  rw [NodeState.acceptToMemoryPool, NodeState.acceptToMemoryPool, hbest, hmap.1, hmap.2, haccept]
  cases accept cons io s.pcoinsTip.coinsOf _ s.mempool tx fCheckInputs fLimitFree with
  | none => exact Option.Rel.none
  | some mempool =>
    obtain ⟨_,_,_,rfl⟩ := h
    exact Option.Rel.some ⟨_, _, _, rfl⟩

/-- The verdicts of the pool on the transactions that are to come back, one after the other. -/
def resurrectVerdicts (cons : Consensus) (sync : WalletSync W) (io : ChainIO) :
    NodeState W → List CTransaction → List Bool
  | _, [] => []
  | s, tx :: vResurrect =>
    (s.acceptToMemoryPool cons sync (io.accept tx) tx true false).isSome ::
      resurrectVerdicts cons sync io (s.resurrect cons sync io tx) vResurrect

theorem SameNode.resurrect {tx : CTransaction} (h : SameNode s s') (hio : SameButFlush io io')
    (haccept : Option.Rel SameNode (s.acceptToMemoryPool cons sync (io.accept tx) tx true false)
      (s'.acceptToMemoryPool cons sync (io.accept tx) tx true false)) :
    SameNode (s.resurrect cons sync io tx) (s'.resurrect cons sync io' tx) := by
  obtain ⟨_,_,_,rfl⟩ := hio
  rw [NodeState.resurrect, NodeState.resurrect]
  dsimp only
  generalize s.acceptToMemoryPool cons sync (io.accept tx) tx true false = a,
    s'.acceptToMemoryPool cons sync (io.accept tx) tx true false = a' at haccept
  cases haccept with
  | some hsame => exact hsame
  | none =>
    obtain ⟨_,_,_,rfl⟩ := h
    exact ⟨_, _, _, rfl⟩

/-- The loop over the transactions to resurrect. -/
theorem resurrect_twin (h : SameNode s s') (hio : SameButFlush io io')
    (hbest : getBestBlock s'.pcoinsTip = getBestBlock s.pcoinsTip) {vResurrect : List CTransaction}
    (hagree : ∀ tx ∈ vResurrect, Agrees cons s.pcoinsTip.coinsOf s'.pcoinsTip.coinsOf tx) :
    SameNode (vResurrect.foldl (fun s tx => s.resurrect cons sync io tx) s)
        (vResurrect.foldl (fun s tx => s.resurrect cons sync io' tx) s') ∧
      resurrectVerdicts cons sync io' s' vResurrect =
        resurrectVerdicts cons sync io s vResurrect := by
  induction vResurrect generalizing s s' with
  | nil => exact ⟨h, rfl⟩
  | cons tx vResurrect ih =>
    have haccept : Option.Rel SameNode
        (s.acceptToMemoryPool cons sync (io.accept tx) tx true false)
        (s'.acceptToMemoryPool cons sync (io.accept tx) tx true false) :=
      h.acceptToMemoryPool hbest fun nSpendHeight =>
        (hagree tx List.mem_cons_self).accept _ nSpendHeight _ _
    have hnext := h.resurrect hio haccept
    -- the coins of the tips stay as they are
    obtain ⟨_,_,hs1⟩ : ∃ mempool wallet, s.resurrect cons sync io tx = _ := resurrect_eq io s tx
    obtain ⟨_,_,hs1'⟩ : ∃ mempool wallet, s'.resurrect cons sync io' tx = _ := resurrect_eq io' s' tx
    have hrest := ih hnext (by rw [hs1, hs1']; exact hbest)
      (by rw [hs1, hs1']; exact fun tx' hmem => hagree tx' (List.mem_cons_of_mem _ hmem))
    refine ⟨hrest.1, ?_⟩
    have hverdict : io'.accept = io.accept := by
      obtain ⟨_,_,_,rfl⟩ := hio
      rfl
    rw [resurrectVerdicts, resurrectVerdicts, hrest.2, hverdict]
    congr 1
    exact rel_isSome haccept

theorem updateMemory_twin (h : SameNode s s') (hio : SameButFlush io io') {p : BlockPtr}
    (hbest : s.pindexTip = some p) (vDisconnect vConnect : List BlockPtr)
    {vResurrect : List CTransaction} (vDelete : List CTransaction) (pindexNew : BlockPtr)
    (hagree : ∀ tx ∈ vResurrect, Agrees cons s.pcoinsTip.coinsOf s'.pcoinsTip.coinsOf tx) :
    SameNode (updateMemory cons sync io s vDisconnect vConnect vResurrect vDelete pindexNew)
        (updateMemory cons sync io' s' vDisconnect vConnect vResurrect vDelete pindexNew) ∧
      resurrectVerdicts cons sync io'
          { s' with mapBlockIndex := NodeState.relink s'.mapBlockIndex vDisconnect vConnect }
          vResurrect =
        resurrectVerdicts cons sync io
          { s with mapBlockIndex := NodeState.relink s.mapBlockIndex vDisconnect vConnect }
          vResurrect := by
  -- the chain is linked again before any transaction is offered to the pool
  generalize hs1 : ({ s with mapBlockIndex := NodeState.relink s.mapBlockIndex vDisconnect vConnect } :
    NodeState W) = s1
  generalize hs1' : ({ s' with
    mapBlockIndex := NodeState.relink s'.mapBlockIndex vDisconnect vConnect } : NodeState W) = s1'
  have hsame1 : SameNode s1 s1' := by
    obtain ⟨_,_,_,rfl⟩ := h
    rw [← hs1, ← hs1']
    exact ⟨_, _, _, rfl⟩
  have htip1 : s1.pindexTip = some p := by rw [← hs1, hbest]
  -- both caches name the new tip
  have hbest1 : getBestBlock s1'.pcoinsTip = getBestBlock s1.pcoinsTip := by
    have htip1' : s1'.pindexTip = some p := by
      obtain ⟨_,_,_,rfl⟩ := hsame1
      exact htip1
    change s1'.pindexTip.or _ = s1.pindexTip.or _
    rw [htip1, htip1']
    rfl
  have hagree1 : ∀ tx ∈ vResurrect, Agrees cons s1.pcoinsTip.coinsOf s1'.pcoinsTip.coinsOf tx := by
    rw [← hs1, ← hs1']
    exact hagree
  obtain ⟨hfold,hverdicts⟩ := @resurrect_twin W cons sync io io' s1 s1' hsame1 hio hbest1 vResurrect
    hagree1
  refine ⟨?_, hverdicts⟩
  rw [updateMemory, updateMemory, hs1, hs1']
  obtain ⟨_,_,_,hfold⟩ := hfold
  rw [hfold]
  exact ⟨_, _, _, rfl⟩

end Memory

section Flush
variable {W : Type} {cons : Consensus} {io io' : ChainIO} {s s' : NodeState W}

/-- The database holds no empty entry. -/
def Swept (db : CCoinsViewDB) : Prop :=
  ∀ txid, isEmptyEntry (db.coins txid) = false

theorem batchWrite_swept {db : CCoinsViewDB} (h : Swept db) (mapCoins : Utxo)
    (pindex : Option BlockPtr) : Swept (db.batchWrite mapCoins pindex) := by
  intro txid
  dsimp only [CCoinsViewDB.batchWrite]
  cases mapCoins txid with
  | none => exact h txid
  | some coins =>
    dsimp only
    split_ifs with hpruned
    · rfl
    · rw [Bool.not_eq_true] at hpruned
      exact hpruned

variable {c c' : ConnectLoop W} {vResurrect : List CTransaction} {pindexNew : BlockPtr}

theorem flushed_swept (h : Swept c.node.pcoinsdbview) :
    Swept (c.flushed io).pcoinsdbview := by
  rw [ConnectLoop.flushed]
  split_ifs
  · exact batchWrite_swept h _ _
  · exact h

theorem KnownAt.flushed_visible (h : KnownAt cons s vResurrect pindexNew c.node c.view) :
    visibleCoins (c.flushed io).pcoinsTip = visibleCoins c.view :=
  visible_flushed h.1.1 h.1.2.2.1

/-- Whether the cache was written out shows in the coins and nowhere else. -/
theorem KnownAt.flushed_eq (h : KnownAt cons s vResurrect pindexNew c.node c.view) :
    ∃ pcoinsdbview cacheCoins, c.flushed io = { c.node with
      pcoinsdbview := pcoinsdbview, cacheCoins := cacheCoins, pindexTip := some pindexNew } := by
  obtain ⟨-,-,htemp,hbest⟩ := h.1
  have htip : c.view.pindexTip = some pindexNew := htemp.best.trans hbest
  rw [ConnectLoop.flushed, ← htip]
  split_ifs <;> exact ⟨_, _, rfl⟩

/-- The pool decides alike about what comes back if both runs write the cache out, or neither
does. -/
theorem SameEnd.agrees (h : SameEnd cons s s' vResurrect pindexNew c c') (hexit : c.exit = .ok)
    (hswept : Swept c.node.pcoinsdbview)
    (hswept' : Swept c'.node.pcoinsdbview) (hflush : io'.fFlush = io.fFlush)
    {tx : CTransaction} (hmem : tx ∈ vResurrect) :
    Agrees cons (c.flushed io).pcoinsTip.coinsOf (c'.flushed io').pcoinsTip.coinsOf tx := by
  have hk := h.reached hexit
  have hk' := h.reached' hexit
  rw [Agrees]
  by_cases hwrite : io.fFlush = true
  · -- the caches are empty, and the databases hold no empty entry
    left
    have hvisible : visibleCoins (c'.flushed io').pcoinsTip.coinsOf =
        visibleCoins (c.flushed io).pcoinsTip.coinsOf :=
      (hk'.flushed_visible.trans (h.view hexit)).trans hk.flushed_visible.symm
    apply EmptyAlike.sameAnswers _ hvisible
    intro txid _
    rw [ConnectLoop.flushed, ConnectLoop.flushed, if_pos hwrite, if_pos (hflush.trans hwrite)]
    exact (batchWrite_swept hswept' _ c'.view.pindexTip txid).trans
      (batchWrite_swept hswept _ c.view.pindexTip txid).symm
  · -- the entries left by the disconnected blocks are in the caches
    right
    have hwrite' : ¬ io'.fFlush = true := by rw [hflush]; exact hwrite
    rw [ConnectLoop.flushed, ConnectLoop.flushed, if_neg hwrite, if_neg hwrite']
    constructor
    · have hcoins := congrFun (flushView_tip hk.1.1 hk.1.2.2.1).1 (cons.ext.txHash tx)
      exact (congrArg Option.isSome hcoins).trans (hk.2 tx hmem)
    · have hcoins := congrFun (flushView_tip hk'.1.1 hk'.1.2.2.1).1 (cons.ext.txHash tx)
      exact (congrArg Option.isSome hcoins).trans (hk'.2 tx hmem)

theorem SameEnd.flushed (h : SameEnd cons s s' vResurrect pindexNew c c') (hexit : c.exit = .ok) :
    SameNode (c.flushed io) (c'.flushed io') := by
  obtain ⟨_,_,hflushed⟩ : ∃ pcoinsdbview cacheCoins, c.flushed io = _ :=
    (h.reached hexit).flushed_eq
  obtain ⟨_,_,hflushed'⟩ : ∃ pcoinsdbview cacheCoins, c'.flushed io' = _ :=
    (h.reached' hexit).flushed_eq
  obtain ⟨_,_,_,hnode⟩ := h.node
  rw [hflushed, hflushed', hnode]
  exact ⟨_, _, _, rfl⟩

end Flush

section SetBest
variable {W : Type} {cons : Consensus} {sync : WalletSync W} {io io' : ChainIO}
  {nested : NodeState W → ChainExit × NodeState W} {s s' : NodeState W} {best pindexNew : BlockPtr}

/-- Two nodes at one tip that differ in where their coins are kept. -/
structure Twin (cons : Consensus) (s s' : NodeState W) (best : BlockPtr) : Prop where
  ledger : LedgerAt cons s best
  ledger' : LedgerAt cons s' best
  same : SameNode s s'
  swept : Swept s.pcoinsdbview
  swept' : Swept s'.pcoinsdbview

/-- Coins of one replay look the same. -/
theorem visible_of_replays {cf : ChainFile} (hroot : cf.parent cons.hashGenesisBlock = none)
    {f : BlockPtr} {view view' : CCoinsViewCache}
    (h : ∃ u, Replays cons cf f u ∧ u.Match (getCoins view))
    (h' : ∃ u, Replays cons cf f u ∧ u.Match (getCoins view')) :
    visibleCoins view' = visibleCoins view := by
  obtain ⟨u,hu,hm⟩ := h
  obtain ⟨u',hu',hm'⟩ := h'
  obtain rfl := hu.unique hroot hu'
  ext1 txid
  exact (hm' txid).visible_eq.trans (hm txid).visible_eq.symm

theorem Twin.visible (h : Twin cons s s' best) :
    visibleCoins s'.pcoinsTip = visibleCoins s.pcoinsTip := by
  have hcoins := h.ledger'.coins
  rw [h.same.chainFile] at hcoins
  exact visible_of_replays h.ledger.tip.tree.root_parent h.ledger.coins hcoins

theorem Twin.bestBlock (h : Twin cons s s' best) :
    getBestBlock s'.pcoinsTip = getBestBlock s.pcoinsTip :=
  h.ledger'.tip.coins.trans h.ledger.tip.coins.symm

/-- The transactions a switch of the chain to `pindexNew` takes out of the chain and brings back
to the pool. -/
def resurrectable (cons : Consensus) (s : NodeState W) (pindexNew : BlockPtr) : List CTransaction :=
  ((findBranches s.mapBlockIndex s.pindexBest pindexNew).map fun branches =>
    branches.1.flatMap (queueOf cons s)).getD []

theorem LedgerAt.takenBack (h : LedgerAt cons s best) : TakenBack cons s best s.newView [] :=
  ⟨newView_temp h.tip.coins, (newView_best s).trans h.tip.coins, h.coins,
    fun _ hmem => absurd hmem List.not_mem_nil⟩

/-- The verdicts of the pool on the transactions a `SetBestChain` call brings back. -/
def setBestVerdicts (cons : Consensus) (sync : WalletSync W)
    (nested : NodeState W → ChainExit × NodeState W) (io : ChainIO) (pindexNew : BlockPtr)
    (s : NodeState W) : List Bool :=
  match findBranches s.mapBlockIndex (getBestBlock s.newView) pindexNew with
  | none => []
  | some (vDisconnect,vConnect) =>
    match disconnectLoop cons io s vDisconnect s.newView [] with
    | .error _ => []
    | .ok (view,vResurrect) =>
      let c := connectLoop cons sync nested io pindexNew vConnect s view []
      if c.exit ≠ .ok || (io.fFlush && !(io.checkDiskSpace && io.flush)) then []
      else
        let s := c.flushed io
        resurrectVerdicts cons sync io
          { s with mapBlockIndex := NodeState.relink s.mapBlockIndex vDisconnect vConnect } vResurrect

/-- What a call whose connecting loop failed leaves. -/
theorem setBestChain_failed {vDisconnect vConnect : List BlockPtr} {view : CCoinsViewCache}
    {vResurrect : List CTransaction} {c : ConnectLoop W}
    (hfind : findBranches s.mapBlockIndex (getBestBlock s.newView) pindexNew =
      some (vDisconnect,vConnect))
    (hdisc : disconnectLoop cons io s vDisconnect s.newView [] = .ok (view,vResurrect))
    (hc : connectLoop cons sync nested io pindexNew vConnect s view [] = c) (hexit : c.exit ≠ .ok) :
    setBestChain cons sync nested io pindexNew s = (c.exit,c.node) ∧
      setBestVerdicts cons sync nested io pindexNew s = [] := by
  rw [setBestChain, setBestVerdicts, hfind]
  dsimp only
  rw [hdisc]
  dsimp only
  rw [hc]
  constructor
  · split
    · contradiction
    · rfl
  · simp [hexit]

/-- What a call leaves that comes as far as the database and can write it. -/
theorem setBestChain_pushed {vDisconnect vConnect : List BlockPtr} {view : CCoinsViewCache}
    {vResurrect : List CTransaction} {c : ConnectLoop W}
    (hfind : findBranches s.mapBlockIndex (getBestBlock s.newView) pindexNew =
      some (vDisconnect,vConnect))
    (hdisc : disconnectLoop cons io s vDisconnect s.newView [] = .ok (view,vResurrect))
    (hc : connectLoop cons sync nested io pindexNew vConnect s view [] = c) (hexit : c.exit = .ok)
    (hio : io.Flushes) :
    setBestChain cons sync nested io pindexNew s = (.ok, updateMemory cons sync io (c.flushed io)
        vDisconnect vConnect vResurrect c.vDelete pindexNew) ∧
      setBestVerdicts cons sync nested io pindexNew s = resurrectVerdicts cons sync io
        { c.flushed io with mapBlockIndex :=
            NodeState.relink (c.flushed io).mapBlockIndex vDisconnect vConnect } vResurrect := by
  rw [setBestChain, setBestVerdicts, hfind]
  dsimp only
  rw [hdisc]
  dsimp only
  rw [hc]
  have hwrite : (io.fFlush && !(io.checkDiskSpace && io.flush)) = false := by
    cases hflush : io.fFlush with
    | false => rfl
    | true =>
      obtain ⟨hspace,hdone⟩ := hio hflush
      rw [hspace, hdone]
      rfl
  constructor
  · rw [hexit]
    exact pushView_flushes hio
  · simp only [hexit, hwrite]
    rfl

theorem LedgerAt.of_failed (h : LedgerAt cons s best)
    (hnew : (s.mapBlockIndex pindexNew).isSome = true) {exit : ChainExit} {s1 : NodeState W}
    (hset : setBestChain cons sync nested io pindexNew s = (exit,s1)) (hio : io.Flushes)
    (hexit : exit ≠ .ok) : SameChain s s1 ∧ LedgerAt cons s1 best := by
  rcases setBestChain_ledger h hnew hset with ⟨hok,-⟩ | ⟨-,hsame,hledger⟩ | ⟨hfail,-⟩
  · exact absurd hok hexit
  · exact ⟨hsame, hledger⟩
  · exact absurd hio hfail

theorem LedgerAt.of_pushed (h : LedgerAt cons s best)
    (hnew : (s.mapBlockIndex pindexNew).isSome = true) {s1 : NodeState W}
    (hset : setBestChain cons sync nested io pindexNew s = (.ok,s1)) :
    LedgerAt cons s1 pindexNew := by
  rcases setBestChain_ledger h hnew hset with ⟨-,hledger,-⟩ | ⟨hearly,-⟩ | ⟨-,hexit,-⟩
  · exact hledger
  · rcases hearly with hexit | hexit | ⟨e,hexit⟩ <;> cases hexit
  · rcases hexit with hexit | hexit <;> cases hexit

/-- `SetBestChain` in two nodes that differ in where their coins are kept: it ends alike, and the
pool decides alike about what comes back, if the two calls write the cache out alike or nothing
comes back. -/
theorem setBestChain_twin (h : Twin cons s s' best)
    (hnew : (s.mapBlockIndex pindexNew).isSome = true) (hio : SameButFlush io io')
    (hflush : io.Flushes) (hflush' : io'.Flushes)
    (halike : io'.fFlush = io.fFlush ∨ resurrectable cons s pindexNew = []) :
    (∃ best', Twin cons (setBestChain cons sync nested io pindexNew s).2
      (setBestChain cons sync nested io' pindexNew s').2 best') ∧
    setBestVerdicts cons sync nested io' pindexNew s' =
      setBestVerdicts cons sync nested io pindexNew s := by
  have htip := h.ledger.tip
  have hmap : s'.mapBlockIndex = s.mapBlockIndex := by
    obtain ⟨_,_,_,rfl⟩ := h.same
    exact rfl
  obtain ⟨f,vDisconnect,vConnect,hfind,hpath,hdown,hconnect⟩ :=
    findBranches_spec htip.tree htip.mem hnew
  have hfound : findBranches s.mapBlockIndex (getBestBlock s.newView) pindexNew =
      some (vDisconnect,vConnect) := by
    rw [newView_best, htip.coins, hfind]
  have hfound' : findBranches s'.mapBlockIndex (getBestBlock s'.newView) pindexNew =
      some (vDisconnect,vConnect) := by
    rw [newView_best, h.ledger'.tip.coins, hmap, hfind]
  rcases disconnectLoop_twin h.ledger h.ledger' h.same hio hpath h.ledger.takenBack
      h.ledger'.takenBack with ⟨exit,hdisc,hdisc'⟩ | ⟨view,view',vResurrect,hdisc,hdisc',hback,hback'⟩
  · -- a block could not be taken back, and nothing has happened
    rw [setBestChain, setBestChain, setBestVerdicts, setBestVerdicts, hfound, hfound']
    dsimp only
    rw [hdisc, hdisc']
    exact ⟨⟨best, h⟩, rfl⟩
  have hview : visibleCoins view' = visibleCoins view := by
    have hcoins := hback'.coins
    rw [h.same.chainFile] at hcoins
    exact visible_of_replays htip.tree.root_parent hback.coins hcoins
  have hps : ∀ p ∈ vConnect, (s.mapBlockIndex p).isSome = true ∧ nextOf s.mapBlockIndex p = none :=
    fun p hp => ⟨(hconnect p hp).mem, (hconnect p hp).nextOf_none htip.next⟩
  have hend : SameEnd cons s s' vResurrect pindexNew
      (connectLoop cons sync nested io pindexNew vConnect s view [])
      (connectLoop cons sync nested io' pindexNew vConnect s' view' []) :=
    connectLoop_twin hio nested hdown hps h.same hview
      ⟨⟨SameChain.refl s, SameFlags.refl s, hback.temp, hback.best⟩, hback.known⟩
      ⟨⟨SameChain.refl s', SameFlags.refl s', hback'.temp, hback'.best⟩, hback'.known⟩ []
  generalize hc : connectLoop cons sync nested io pindexNew vConnect s view [] = c at hend
  generalize hc' : connectLoop cons sync nested io' pindexNew vConnect s' view' [] = c' at hend
  have hnew' : (s'.mapBlockIndex pindexNew).isSome = true := by rw [hmap, hnew]
  by_cases hexit : c.exit = .ok
  swap
  · obtain ⟨hset,hverdicts⟩ := setBestChain_failed hfound hdisc hc hexit
    obtain ⟨hset',hverdicts'⟩ := setBestChain_failed hfound' hdisc' hc' (hend.exit ▸ hexit)
    obtain ⟨hsame,hledger⟩ := h.ledger.of_failed hnew hset hflush hexit
    obtain ⟨hsame',hledger'⟩ := h.ledger'.of_failed hnew' hset' hflush' (hend.exit ▸ hexit)
    rw [hset, hset', hverdicts, hverdicts']
    refine ⟨⟨best, hledger, hledger', hend.node, ?_, ?_⟩, rfl⟩
    · rw [hsame.pcoinsdbview]
      exact h.swept
    · rw [hsame'.pcoinsdbview]
      exact h.swept'
  obtain ⟨hset,hverdicts⟩ := setBestChain_pushed hfound hdisc hc hexit hflush
  obtain ⟨hset',hverdicts'⟩ := setBestChain_pushed hfound' hdisc' hc' (hend.exit.trans hexit) hflush'
  have hswept : Swept c.node.pcoinsdbview := by
    rw [(hend.reached hexit).1.1.pcoinsdbview]
    exact h.swept
  have hswept' : Swept c'.node.pcoinsdbview := by
    rw [(hend.reached' hexit).1.1.pcoinsdbview]
    exact h.swept'
  have hagree : ∀ tx ∈ vResurrect,
      Agrees cons (c.flushed io).pcoinsTip.coinsOf (c'.flushed io').pcoinsTip.coinsOf tx := by
    intro tx hmem
    rcases halike with heq | hnone
    · exact hend.agrees hexit hswept hswept' heq hmem
    · have hqueued := disconnectLoop_queue hpath hdisc tx hmem
      rw [resurrectable, htip.pindexBest, hfind] at hnone
      change vDisconnect.flatMap (queueOf cons s) = [] at hnone
      rw [hnone] at hqueued
      cases hqueued
  obtain ⟨_,_,hflushed⟩ : ∃ pcoinsdbview cacheCoins, c.flushed io = _ :=
    (hend.reached hexit).flushed_eq
  have hptr : (c.flushed io).pindexTip = some pindexNew := by rw [hflushed]
  obtain ⟨hnode,hsameVerdicts⟩ := @updateMemory_twin W cons sync io io' _ _ (hend.flushed hexit) hio _ hptr
    vDisconnect vConnect vResurrect c.vDelete pindexNew hagree
  rw [hend.vDelete] at hset'
  rw [hset, hset', hverdicts, hverdicts']
  refine ⟨⟨pindexNew, ?_, ?_, hnode, ?_, ?_⟩, hsameVerdicts⟩
  · exact h.ledger.of_pushed hnew hset
  · exact h.ledger'.of_pushed hnew' hset'
  · rw [updateMemory_db]
    exact flushed_swept hswept
  · rw [updateMemory_db]
    exact flushed_swept hswept'

end SetBest

namespace ChainCall

/-- The two calls are the same but for the flush to the database. -/
inductive SameBut : ChainCall → ChainCall → Prop
  | refl (c : ChainCall) : SameBut c c
  | setBestChain (pindexNew : BlockPtr) {io io' : ChainIO} (same : SameButFlush io io') :
      SameBut (.setBestChain pindexNew io) (.setBestChain pindexNew io')

section Defs
variable {W : Type} (cons : Consensus) (sync : WalletSync W)
  (nested : NodeState W → ChainExit × NodeState W)

/-- The verdict of every `accept` that is called, and `*pfMissingInputs` where it is asked for. -/
def verdicts (s : NodeState W) : ChainCall → List (Bool × Option Bool)
  | .newBlock _ => []
  | .setBestChain p io => (setBestVerdicts cons sync nested io p s).map fun verdict => (verdict, none)
  | .markFailed _ _ => []
  | .accept tx fCheckInputs fLimitFree io =>
    [((s.acceptToMemoryPool cons sync io tx fCheckInputs fLimitFree).isSome,
      some (missingInputs cons io s.pcoinsTip.coinsOf s.mempool tx fCheckInputs))]

/-- When the pool cannot tell the two runs apart at a call: no block is exempt from the overwrite
rule, a `SetBestChain` that writes the cache out in one run only has nothing to resurrect, and
what an `accept` asks for has an empty entry in both tips or in none. -/
def Alike (s s' : NodeState W) : ChainCall → ChainCall → Prop
  | .newBlock block, _ => bip30Exempt (newIndex cons s.mapBlockIndex block) = false
  | .setBestChain p io, .setBestChain _ io' => io'.fFlush = io.fFlush ∨ resurrectable cons s p = []
  | .accept tx fCheckInputs _ _, _ => fCheckInputs = true →
    EmptyAlike cons s.pcoinsTip.coinsOf s'.pcoinsTip.coinsOf tx
  | _, _ => True

end Defs

end ChainCall

/-- Two runs from `start` that make the same calls and may differ in when the cache is written
out, with the verdicts of the pool in each. The calls meet `ok`. -/
inductive TwinRuns {W : Type} (cons : Consensus) (sync : WalletSync W)
    (nested : NodeState W → ChainExit × NodeState W)
    (ok : NodeState W → NodeState W → ChainCall → ChainCall → Prop) (start : NodeState W) :
    NodeState W → NodeState W → List (Bool × Option Bool) → List (Bool × Option Bool) → Prop
  | start : TwinRuns cons sync nested ok start start start [] []
  | step {s s' : NodeState W} {log log' : List (Bool × Option Bool)} (c c' : ChainCall)
      (rest : TwinRuns cons sync nested ok start s s' log log') (called : c.Called cons s)
      (same : c.SameBut c') (flushes : c.Flushes) (flushes' : c'.Flushes) (meets : ok s s' c c') :
      TwinRuns cons sync nested ok start (c.exec cons sync nested s) (c'.exec cons sync nested s')
        (log ++ c.verdicts cons sync nested s) (log' ++ c'.verdicts cons sync nested s')

section Runs
variable {W : Type} {cons : Consensus} {sync : WalletSync W}
  {nested : NodeState W → ChainExit × NodeState W} {s s' : NodeState W} {best : BlockPtr}

theorem Twin.accept (h : Twin cons s s' best) {io : AcceptIO} {tx : CTransaction}
    {fCheckInputs fLimitFree : Bool} (halike : fCheckInputs = true →
      EmptyAlike cons s.pcoinsTip.coinsOf s'.pcoinsTip.coinsOf tx) :
    Twin cons ((s.acceptToMemoryPool cons sync io tx fCheckInputs fLimitFree).getD s)
        ((s'.acceptToMemoryPool cons sync io tx fCheckInputs fLimitFree).getD s') best ∧
      (s'.acceptToMemoryPool cons sync io tx fCheckInputs fLimitFree).isSome =
        (s.acceptToMemoryPool cons sync io tx fCheckInputs fLimitFree).isSome ∧
      missingInputs cons io s'.pcoinsTip.coinsOf s'.mempool tx fCheckInputs =
        missingInputs cons io s.pcoinsTip.coinsOf s.mempool tx fCheckInputs := by
  have hpool : s'.mempool = s.mempool := by
    obtain ⟨_,_,_,hs'⟩ := h.same
    rw [hs']
  -- the coins the pool reads are the visible ones
  have hanswer : ∀ nSpendHeight, Chain.accept cons io s'.pcoinsTip.coinsOf nSpendHeight s.mempool tx
        fCheckInputs fLimitFree =
      Chain.accept cons io s.pcoinsTip.coinsOf nSpendHeight s.mempool tx fCheckInputs fLimitFree ∧
      missingInputs cons io s'.pcoinsTip.coinsOf s.mempool tx fCheckInputs =
        missingInputs cons io s.pcoinsTip.coinsOf s.mempool tx fCheckInputs := by
    intro nSpendHeight
    cases fCheckInputs with
    | false => exact accept_unchecked io nSpendHeight s.mempool fLimitFree
    | true =>
      exact ((halike rfl).sameAnswers h.visible).accept io nSpendHeight s.mempool true fLimitFree
  have hrel : Option.Rel SameNode
      (s.acceptToMemoryPool cons sync io tx fCheckInputs fLimitFree)
      (s'.acceptToMemoryPool cons sync io tx fCheckInputs fLimitFree) :=
    h.same.acceptToMemoryPool h.bestBlock fun nSpendHeight => (hanswer nSpendHeight).1
  -- both accept the transaction, or both refuse it
  have hsame : SameNode ((s.acceptToMemoryPool cons sync io tx fCheckInputs fLimitFree).getD s)
      ((s'.acceptToMemoryPool cons sync io tx fCheckInputs fLimitFree).getD s') := by
    generalize s.acceptToMemoryPool cons sync io tx fCheckInputs fLimitFree = a,
      s'.acceptToMemoryPool cons sync io tx fCheckInputs fLimitFree = a' at hrel
    cases hrel with
    | none => exact h.same
    | some hsame => exact hsame
  obtain ⟨_,_,hs1⟩ : ∃ mempool wallet,
    (s.acceptToMemoryPool cons sync io tx fCheckInputs fLimitFree).getD s = _ :=
    acceptToMemoryPool_eq io s tx fCheckInputs fLimitFree
  obtain ⟨_,_,hs1'⟩ : ∃ mempool wallet,
    (s'.acceptToMemoryPool cons sync io tx fCheckInputs fLimitFree).getD s' = _ :=
    acceptToMemoryPool_eq io s' tx fCheckInputs fLimitFree
  refine ⟨?_, rel_isSome hrel, by rw [hpool]; exact (hanswer 0).2⟩
  rw [hs1, hs1'] at hsame ⊢
  exact ⟨h.ledger.of_pool, h.ledger'.of_pool, hsame, h.swept, h.swept'⟩

theorem Twin.markFailed (h : Twin cons s s' best) (l : List BlockPtr) (p : BlockPtr) :
    Twin cons ((Chain.markFailed s l).invalidChainFound p)
      ((Chain.markFailed s' l).invalidChainFound p) best := by
  have hmarked := (markFailed_spec l s).invalidChainFound p
  have hmarked' := (markFailed_spec l s').invalidChainFound p
  refine ⟨h.ledger.marked hmarked, h.ledger'.marked hmarked',
    (h.same.markFailed l).invalidChainFound p, ?_, ?_⟩
  · rw [hmarked.same.pcoinsdbview]
    exact h.swept
  · rw [hmarked'.same.pcoinsdbview]
    exact h.swept'

theorem Twin.insert (h : Twin cons s s' best) {block : CBlock}
    (hnew : s.mapBlockIndex (block.getHash cons.ext) = none)
    (hprev : (s.mapBlockIndex block.hashPrevBlock).isSome = true)
    (hexempt : bip30Exempt (newIndex cons s.mapBlockIndex block) = false) :
    Twin cons (insertIndex cons s block) (insertIndex cons s' block) best := by
  have hmap : s'.mapBlockIndex = s.mapBlockIndex := by
    obtain ⟨_,_,_,hs'⟩ := h.same
    rw [hs']
  refine ⟨h.ledger.insert hnew hprev hexempt, h.ledger'.insert ?_ ?_ ?_, h.same.insertIndex cons block,
    h.swept, h.swept'⟩
  · rw [hmap, hnew]
  · rw [hmap, hprev]
  · rw [hmap, hexempt]

/-- One call in both runs. -/
theorem Twin.step (h : Twin cons s s' best) {c c' : ChainCall} (called : c.Called cons s)
    (same : c.SameBut c') (flushes : c.Flushes) (flushes' : c'.Flushes)
    (halike : ChainCall.Alike cons s s' c c') :
    (∃ best', Twin cons (c.exec cons sync nested s) (c'.exec cons sync nested s') best') ∧
      c'.verdicts cons sync nested s' = c.verdicts cons sync nested s := by
  have hset : ∀ p io io', (s.mapBlockIndex p).isSome = true → SameButFlush io io' → io.Flushes →
      io'.Flushes → (io'.fFlush = io.fFlush ∨ resurrectable cons s p = []) →
      (∃ best', Twin cons (setBestChain cons sync nested io p s).2
        (setBestChain cons sync nested io' p s').2 best') ∧
      (setBestVerdicts cons sync nested io' p s').map (fun verdict => (verdict,(none : Option Bool))) =
        (setBestVerdicts cons sync nested io p s).map fun verdict => (verdict,none) := by
    intro p io io' hp hio hflush hflush' hcond
    obtain ⟨htwin,hverdicts⟩ := @setBestChain_twin W cons sync io io' nested s s' best p h hp hio
      hflush hflush' hcond
    exact ⟨htwin, by rw [hverdicts]⟩
  cases same with
  | setBestChain p hio => exact hset p _ _ called hio flushes flushes' halike
  | refl =>
    cases c with
    | newBlock block => exact ⟨⟨best, h.insert called.1 called.2 halike⟩, rfl⟩
    | setBestChain p io => exact hset p io io called ⟨_, _, _, rfl⟩ flushes flushes' (Or.inl rfl)
    | markFailed l p => exact ⟨⟨best, h.markFailed l p⟩, rfl⟩
    | accept tx fCheckInputs fLimitFree io =>
      obtain ⟨htwin,hverdict,hmissing⟩ := @Twin.accept W cons sync s s' best h io tx fCheckInputs
        fLimitFree halike
      refine ⟨⟨best, htwin⟩, ?_⟩
      rw [ChainCall.verdicts, ChainCall.verdicts, hverdict, hmissing]

end Runs

section Main
variable {W : Type} (cons : Consensus) (sync : WalletSync W)
  (nested : NodeState W → ChainExit × NodeState W) (genesis : CBlock) (wallet : W)

/-- In two runs whose calls are alike the pool gives the same verdicts, reports the same missing
inputs and holds the same transactions, whenever either of them writes its cache out. -/
theorem flush_unseen_by_pool (s s' : NodeState W) (log log' : List (Bool × Option Bool))
    (h : TwinRuns cons sync nested (ChainCall.Alike cons) (loadedGenesis cons genesis wallet)
      s s' log log') : log' = log ∧ s'.mempool = s.mempool := by
  have hinv : (∃ best, Twin cons s s' best) ∧ log' = log := by
    induction h with
    | start =>
      have hledger : LedgerAt cons (loadedGenesis cons genesis wallet) cons.hashGenesisBlock :=
        loadedGenesis_ledger genesis wallet
      exact ⟨⟨_, hledger, hledger, SameNode.refl _, fun _ => rfl, fun _ => rfl⟩, rfl⟩
    | step c c' _ called same flushes flushes' meets ih =>
      obtain ⟨⟨best,htwin⟩,hlog⟩ := ih
      obtain ⟨hnext,hverdicts⟩ := htwin.step called same flushes flushes' meets
      exact ⟨hnext, by rw [hlog, hverdicts]⟩
  obtain ⟨⟨best,htwin⟩,hlog⟩ := hinv
  obtain ⟨_,_,_,hs'⟩ := htwin.same
  exact ⟨hlog, by rw [hs']⟩

end Main

section TestNet

/-- A branch of two blocks beside the first block of the test network. -/
def rivalBlock1 : CBlock :=
  ⟨⟨2, testGenesisHash, testTx2Id, 1400000040, 0x05000000, 8, 70428634316040⟩, [testTx2]⟩

def rivalHash1 : Uint256 := 0x609c74a9c98de7a0dd967c8fdc8799b26806f797170832dd303bb467f040a280

def rivalBlock2 : CBlock :=
  ⟨⟨2, rivalHash1, testTx3Id, 1400000100, 0x05000000, 367, 25954401402930⟩, [testTx3]⟩

def rivalHash2 : Uint256 := 0xbd481f37288f0b9c5596283f3d39f457ff315d459fcd550cbbcc618e65a02617

/-- A transaction that spends the coinbase of the first block. -/
def spendingTx : CTransaction :=
  ⟨1, [⟨⟨testTx0Id, 0⟩, [0x51], 2^32-1⟩], [⟨29*coin, testScript⟩], 0⟩

def spendingTxId : Uint256 := 0x3c0ecbdda0064860f5004d6f2b3bc32f587eed6d1ada3bc118dbc6ba5e39940d

def rivalExternals : Externals where
  txHash tx := if tx = testTx2 then testTx2Id else if tx = testTx3 then testTx3Id
    else if tx = spendingTx then spendingTxId else testExternals.txHash tx
  blockHash header := if header = rivalBlock1.toCBlockHeader then rivalHash1
    else if header = rivalBlock2.toCBlockHeader then rivalHash2 else testExternals.blockHash header
  nodeHash := testExternals.nodeHash
  verifyScript := testExternals.verifyScript

def rivalNet : Consensus := { testNet with ext := rivalExternals }

def rivalStart : NodeState Unit := loadedGenesis rivalNet testGenesis ()

def rivalOutcome (fFlush : Bool) : ChainIO := { testChainOutcome true with fFlush := fFlush }

def rivalCall (s : NodeState Unit) (c : ChainCall) : NodeState Unit :=
  c.exec rivalNet noWallet (fun s => (.ok, s)) s

/-- The node after the first block, whose coins were or were not written out. -/
def rivalState1 (fFlush : Bool) : NodeState Unit :=
  rivalCall (rivalCall rivalStart (.newBlock testBlockA)) (.setBestChain testHashA (rivalOutcome fFlush))

/-- The node after the chain went over to the other branch. -/
def rivalState2 (fFlush : Bool) : NodeState Unit :=
  rivalCall (rivalCall (rivalCall (rivalState1 true) (.newBlock rivalBlock1)) (.newBlock rivalBlock2))
    (.setBestChain rivalHash2 (rivalOutcome fFlush))

def spendingCall : ChainCall := .accept spendingTx true false ⟨true, true, false⟩

theorem rivalOutcome_same (fFlush fFlush' : Bool) :
    SameButFlush (rivalOutcome fFlush) (rivalOutcome fFlush') := ⟨fFlush', true, true, rfl⟩

theorem rivalOutcome_flushes (fFlush : Bool) : (rivalOutcome fFlush).Flushes := fun _ => ⟨rfl, rfl⟩

/-- The first block arrives, and the first run may leave its coins in the cache. -/
theorem rival_run1 {ok : NodeState Unit → NodeState Unit → ChainCall → ChainCall → Prop}
    (fFlush : Bool) (hnew : ok rivalStart rivalStart (.newBlock testBlockA) (.newBlock testBlockA))
    (hset : ok (rivalCall rivalStart (.newBlock testBlockA))
      (rivalCall rivalStart (.newBlock testBlockA)) (.setBestChain testHashA (rivalOutcome fFlush))
      (.setBestChain testHashA (rivalOutcome true))) :
    ∃ log log', TwinRuns rivalNet noWallet (fun s => (.ok, s)) ok rivalStart (rivalState1 fFlush)
      (rivalState1 true) log log' ∧ log = [] ∧ log' = [] := by
  refine ⟨_, _, TwinRuns.step _ _ (TwinRuns.step (.newBlock testBlockA) _ TwinRuns.start ?_
    (ChainCall.SameBut.refl _) trivial trivial hnew) ?_ (ChainCall.SameBut.setBestChain _ (rivalOutcome_same fFlush true))
    (rivalOutcome_flushes fFlush) (rivalOutcome_flushes true) hset, ?_, ?_⟩
  · exact ⟨by decide +kernel, by decide +kernel⟩
  · change ((rivalCall rivalStart (.newBlock testBlockA)).mapBlockIndex testHashA).isSome = true
    decide +kernel
  · cases fFlush <;> decide +kernel
  · decide +kernel

theorem flush_unseen_by_pool_testNet :
    spendingCall.verdicts rivalNet noWallet (fun s => (.ok, s)) (rivalState1 true) =
        spendingCall.verdicts rivalNet noWallet (fun s => (.ok, s)) (rivalState1 false) ∧
      ((rivalState1 false).cacheCoins testTx0Id).isSome = true ∧
      (rivalState1 true).cacheCoins testTx0Id = none := by
  obtain ⟨log,log',hrun,hlog,hlog'⟩ : ∃ log log', TwinRuns rivalNet noWallet (fun s => (.ok, s))
      (ChainCall.Alike rivalNet) rivalStart (rivalState1 false) (rivalState1 true) log log' ∧
      log = [] ∧ log' = [] := by
    apply rival_run1
    · change bip30Exempt (newIndex rivalNet rivalStart.mapBlockIndex testBlockA) = false
      decide +kernel
    · right
      decide +kernel
  have hempty : EmptyAlike rivalNet (rivalState1 false).pcoinsTip.coinsOf
      (rivalState1 true).pcoinsTip.coinsOf spendingTx := by
    intro txid hmem
    have hasked : askedFor rivalNet spendingTx = [spendingTxId,testTx0Id] := by decide +kernel
    rw [hasked, List.mem_cons, List.mem_singleton] at hmem
    rcases hmem with rfl | rfl
    · decide +kernel
    · decide +kernel
  have hnext := TwinRuns.step spendingCall spendingCall hrun trivial (ChainCall.SameBut.refl _) trivial
    trivial fun _ => hempty
  obtain ⟨hverdicts,-⟩ := flush_unseen_by_pool rivalNet noWallet (fun s => (.ok, s)) testGenesis () _ _
    _ _ hnext
  rw [hlog, hlog'] at hverdicts
  exact ⟨hverdicts, by decide +kernel, by decide +kernel⟩

/-- The chain leaves the first block, and its coinbase keeps an empty entry in a cache that is not
written out. A transaction that spends it is an orphan where the cache was written out, and where
it was not it is refused for good. -/
theorem flush_seen_by_pool : ∃ log log', TwinRuns rivalNet noWallet (fun s => (.ok, s))
    (fun _ _ _ _ => True) rivalStart (rivalCall (rivalState2 true) spendingCall)
    (rivalCall (rivalState2 false) spendingCall) log log' ∧
    log = [(false,some true)] ∧ log' = [(false,some false)] := by
  obtain ⟨log,log',hrun,hlog,hlog'⟩ : ∃ log log', TwinRuns rivalNet noWallet (fun s => (.ok, s))
      (fun _ _ _ _ => True) rivalStart (rivalState1 true) (rivalState1 true) log log' ∧
      log = [] ∧ log' = [] := rival_run1 true trivial trivial
  subst hlog hlog'
  have hrun1 := TwinRuns.step (.newBlock rivalBlock1) _ hrun
    ⟨by decide +kernel, by decide +kernel⟩ (ChainCall.SameBut.refl _) trivial trivial trivial
  have hrun2 := TwinRuns.step (.newBlock rivalBlock2) _ hrun1
    ⟨by decide +kernel, by decide +kernel⟩ (ChainCall.SameBut.refl _) trivial trivial trivial
  have hmem : ((rivalCall (rivalCall (rivalState1 true) (.newBlock rivalBlock1))
      (.newBlock rivalBlock2)).mapBlockIndex rivalHash2).isSome = true := by decide +kernel
  have hrun3 := TwinRuns.step (.setBestChain rivalHash2 (rivalOutcome true)) _ hrun2 hmem
    (ChainCall.SameBut.setBestChain _ (rivalOutcome_same true false)) (rivalOutcome_flushes true)
    (rivalOutcome_flushes false) trivial
  refine ⟨_, _, TwinRuns.step spendingCall spendingCall hrun3 trivial (ChainCall.SameBut.refl _)
    trivial trivial trivial, ?_, ?_⟩
  · decide +kernel
  · decide +kernel

end TestNet

end Candypool.Chain
