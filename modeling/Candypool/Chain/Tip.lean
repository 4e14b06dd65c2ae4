import Candypool.Chain.Frame
import Candypool.Coins.Visible

/-! The tip of the chain. In a run in which every write of the coin database succeeds, the coins,
the globals of the tip and the links of the index name the same best block, whatever else fails.
-/
namespace Candypool.Chain
open Candypool.Prime Candypool.Core Candypool.Coins Candypool.Lib

section Flush
variable {W : Type}

/-- A view over the coins of the tip that has asked for its best block. -/
def Temp (s : NodeState W) (view : CCoinsViewCache) : Prop :=
  view.base = s.pcoinsTip.coinsOf ∧ view.pindexTip.isSome = true

theorem temp_closed (s : NodeState W) : CoinClosed (Temp s) := fun _ _ _ h => h

theorem temp_setBestBlock (s : NodeState W) (view : CCoinsViewCache) (p : BlockPtr)
    (h : Temp s view) : Temp s (setBestBlock view p) := ⟨h.1, rfl⟩

theorem Temp.best {s : NodeState W} {view : CCoinsViewCache} (h : Temp s view) :
    view.pindexTip = getBestBlock view := by
  obtain ⟨p,hp⟩ := Option.isSome_iff_exists.mp h.2
  change view.pindexTip = view.pindexTip.or view.baseBest
  rw [hp]
  rfl

theorem newView_temp {s : NodeState W} {best : BlockPtr} (h : getBestBlock s.pcoinsTip = some best) :
    Temp s s.newView := by
  refine ⟨rfl, ?_⟩
  change (getBestBlock s.pcoinsTip).isSome = true
  rw [h]
  rfl

theorem newView_best (s : NodeState W) : getBestBlock s.newView = getBestBlock s.pcoinsTip := by
  change (getBestBlock s.pcoinsTip).or (getBestBlock s.pcoinsTip) = _
  rw [Option.or_self]

/-- Flushing the view makes its coins and its best block those of the tip. -/
theorem flushView_tip {s s' : NodeState W} {view : CCoinsViewCache} (hsame : SameChain s s')
    (h : Temp s view) :
    getCoins (s'.flushView view).pcoinsTip = getCoins view ∧
      getBestBlock (s'.flushView view).pcoinsTip = getBestBlock view := by
  constructor
  · have hcoins := CCoinsViewCache.coinsOf_batchWrite s'.pcoinsTip view.cacheCoins view.pindexTip
    rw [hsame.pcoinsTip, ← h.1] at hcoins
    rw [← hsame.pcoinsTip] at hcoins
    exact hcoins
  · change view.pindexTip.or _ = _
    rw [h.best]
    obtain ⟨p,hp⟩ := Option.isSome_iff_exists.mp h.2
    rw [← h.best, hp]
    rfl

end Flush

section Memory
variable {W : Type} {cons : Consensus} {sync : WalletSync W}

/-- Resurrecting a transaction changes the pool and the wallets. -/
theorem resurrect_eq (io : ChainIO) (s : NodeState W) (tx : CTransaction) :
    ∃ mempool wallet, s.resurrect cons sync io tx =
      { s with mempool := mempool, wallet := wallet } := by
  rw [NodeState.resurrect]
  split
  · rename_i s' h
    obtain ⟨mempool,-,rfl⟩ := Option.map_eq_some_iff.mp h
    exact ⟨_, _, rfl⟩
  · exact ⟨_, s.wallet, rfl⟩

theorem resurrect_foldl (io : ChainIO) (vResurrect : List CTransaction) (s : NodeState W) :
    ∃ mempool wallet, vResurrect.foldl (fun s tx => s.resurrect cons sync io tx) s =
      { s with mempool := mempool, wallet := wallet } := by
  induction vResurrect generalizing s with
  | nil => exact ⟨s.mempool, s.wallet, rfl⟩
  | cons tx vResurrect ih =>
    obtain ⟨mempool,wallet,h⟩ : ∃ mempool wallet, s.resurrect cons sync io tx = _ :=
      resurrect_eq io s tx
    obtain ⟨mempool',wallet',h'⟩ := ih (s.resurrect cons sync io tx)
    rw [List.foldl_cons, h', h]
    exact ⟨mempool', wallet', rfl⟩

/-- The state `updateMemory` leaves. -/
theorem updateMemory_eq (io : ChainIO) (s s1 : NodeState W) (vDisconnect vConnect : List BlockPtr)
    (vResurrect vDelete : List CTransaction) (pindexNew : BlockPtr)
    (hs1 : vResurrect.foldl (fun s tx => s.resurrect cons sync io tx)
      { s with mapBlockIndex := NodeState.relink s.mapBlockIndex vDisconnect vConnect } = s1) :
    updateMemory cons sync io s vDisconnect vConnect vResurrect vDelete pindexNew =
      { s with
        mapBlockIndex := NodeState.relink s.mapBlockIndex vDisconnect vConnect
        mempool := s1.mempool.deleteAll cons.ext.txHash vDelete
        wallet := s1.wallet
        hashBestChain := ((NodeState.relink s.mapBlockIndex vDisconnect vConnect pindexNew).bind
          CBlockIndex.phashBlock).getD 0
        pindexBest := some pindexNew
        nBestHeight := heightOf (NodeState.relink s.mapBlockIndex vDisconnect vConnect) pindexNew
        nBestChainWork :=
          workOf (NodeState.relink s.mapBlockIndex vDisconnect vConnect) pindexNew } := by
  obtain ⟨mempool,wallet,h⟩ : ∃ mempool wallet, vResurrect.foldl _ _ = _ :=
    @resurrect_foldl W cons sync io vResurrect
      { s with mapBlockIndex := NodeState.relink s.mapBlockIndex vDisconnect vConnect }
  rw [hs1] at h
  rw [updateMemory, hs1, h]
  rfl

theorem updateMemory_db (io : ChainIO) (s : NodeState W) (vDisconnect vConnect : List BlockPtr)
    (vResurrect vDelete : List CTransaction) (pindexNew : BlockPtr) :
    (updateMemory cons sync io s vDisconnect vConnect vResurrect vDelete pindexNew).pcoinsdbview =
      s.pcoinsdbview := by
  rw [updateMemory_eq io s _ vDisconnect vConnect vResurrect vDelete pindexNew rfl]

end Memory

/-- Everything that names the best block names `best`. -/
structure TipAt {W : Type} (cons : Consensus) (s : NodeState W) (best : BlockPtr) : Prop where
  tree : TreeOk cons.hashGenesisBlock s.mapBlockIndex
  hash : ∀ p pindex, s.mapBlockIndex p = some pindex → pindex.phashBlock = some p
  candidates : ∀ p ∈ s.setBlockIndexValid, (s.mapBlockIndex p).map isFailed = some false
  mem : (s.mapBlockIndex best).isSome = true
  coins : getBestBlock s.pcoinsTip = some best
  pindexBest : s.pindexBest = some best
  hashBestChain : s.hashBestChain = best
  nBestHeight : s.nBestHeight = heightOf s.mapBlockIndex best
  nBestChainWork : s.nBestChainWork = workOf s.mapBlockIndex best
  next : NextFor s.mapBlockIndex best

/-- The two writes between the flush of the view and the update of the tip succeed when they are
made. -/
def ChainIO.Flushes (io : ChainIO) : Prop :=
  io.fFlush = true → io.checkDiskSpace = true ∧ io.flush = true

section Rule
variable {W : Type} {cons : Consensus} {sync : WalletSync W} {io : ChainIO}
  {nested : NodeState W → ChainExit × NodeState W} {pindexNew best : BlockPtr} {s : NodeState W}

/-- The invariant rule of `SetBestChain`: `I` is kept by the loop over the disconnected blocks,
`K` by the loop over the connected ones, and `J` holds after a block that did not connect. What
is left when both loops are done is the second half of the function. -/
theorem setBestChain_rule (htip : TipAt cons s best)
    (hnew : (s.mapBlockIndex pindexNew).isSome = true)
    {I : BlockPtr → CCoinsViewCache → List CTransaction → Prop}
    {K : List CTransaction → BlockPtr → NodeState W → CCoinsViewCache → List CTransaction → Prop}
    {J : ChainExit → NodeState W → Prop} (hI : I best s.newView [])
    (hdisconnect : ∀ p q view vResurrect pindex block r, Anc (parentOf s.mapBlockIndex) best p →
      parentOf s.mapBlockIndex p = some q → I p view vResurrect →
      DisconnectStep cons io s p view pindex block r →
      I q r.view (resurrectQueue cons pindex block ++ vResurrect))
    (hK : ∀ f view vResurrect, Anc (parentOf s.mapBlockIndex) best f → I f view vResurrect →
      K vResurrect f s view [])
    (hsame : ∀ vResurrect f s' view vDelete, K vResurrect f s' view vDelete →
      SameTree s.mapBlockIndex s'.mapBlockIndex ∧
        nextOf s'.mapBlockIndex = nextOf s.mapBlockIndex)
    (hread : ∀ vResurrect f s' view vDelete, K vResurrect f s' view vDelete → J .readBlock s')
    (hfail : ∀ vResurrect f s' view vDelete p pindex block r e w,
      OnBranch s.mapBlockIndex best pindexNew p → parentOf s.mapBlockIndex p = some f →
      K vResurrect f s' view vDelete → ConnectStep cons io s' p view pindex block r →
      r.error = some e →
      J (.connect e) (if e.isInvalid then markInvalid (s'.connected cons sync p block r) p w
        else s'.connected cons sync p block r))
    (hstep : ∀ vResurrect f s' view vDelete p pindex block r,
      OnBranch s.mapBlockIndex best pindexNew p → parentOf s.mapBlockIndex p = some f →
      K vResurrect f s' view vDelete → ConnectStep cons io s' p view pindex block r →
      r.error = none → K vResurrect p (s'.connected cons sync p block r) r.view (vDelete ++ block.vtx))
    {exit : ChainExit} {s' : NodeState W}
    (h : setBestChain cons sync nested io pindexNew s = (exit,s')) :
    ((exit = .readBlock ∨ exit = .disconnect) ∧ s' = s) ∨
    ((exit = .readBlock ∨ ∃ e, exit = .connect e) ∧ J exit s') ∨
    ∃ f vDisconnect vConnect vResurrect c,
      Path (parentOf s.mapBlockIndex) best vDisconnect f ∧
      Down (parentOf s.mapBlockIndex) f vConnect pindexNew ∧
      (∀ p ∈ vConnect, OnBranch s.mapBlockIndex best pindexNew p) ∧
      K vResurrect pindexNew c.node c.view c.vDelete ∧
      pushView cons sync io vDisconnect vConnect vResurrect pindexNew c = (exit,s') := by
  obtain ⟨f,vDisconnect,vConnect,hfind,hpath,hdown,hconnect⟩ :=
    findBranches_spec htip.tree htip.mem hnew
  rw [setBestChain, newView_best, htip.coins, hfind] at h
  dsimp only at h
  generalize hres : disconnectLoop cons io s vDisconnect s.newView [] = res at h
  rcases disconnectLoop_rule hpath (fun p q view vResurrect pindex block r hp =>
      hdisconnect p q view vResurrect pindex block r (hpath.anc_of_mem hp)) hI hres with
    ⟨view,vResurrect,rfl,hI'⟩ | rfl | rfl
  · dsimp only at h
    generalize hc : connectLoop cons sync nested io pindexNew vConnect s view [] = c at h
    have hloop := connectLoop_rule (I := K vResurrect) (J := J)
      (fun f s' view vDelete p hp hk => ?_) (hread vResurrect)
      (fun f s' view vDelete p pindex block r e w hp =>
        hfail vResurrect f s' view vDelete p pindex block r e w (hconnect p hp))
      (fun f s' view vDelete p pindex block r hp =>
        hstep vResurrect f s' view vDelete p pindex block r (hconnect p hp))
      hdown (hK f view vResurrect hpath.anc hI') hc
    · rcases hloop with ⟨hexit,hk⟩ | ⟨hexit,hj⟩
      · rw [hexit] at h
        exact Or.inr (Or.inr ⟨f, vDisconnect, vConnect, vResurrect, c, hpath, hdown,
          hconnect, hk, h⟩)
      · rcases hexit with hexit | ⟨e,hexit⟩
        · rw [hexit] at h hj
          obtain ⟨rfl,rfl⟩ := Prod.mk.inj h
          exact Or.inr (Or.inl ⟨Or.inl rfl, hj⟩)
        · rw [hexit] at h hj
          obtain ⟨rfl,rfl⟩ := Prod.mk.inj h
          exact Or.inr (Or.inl ⟨Or.inr ⟨e, rfl⟩, hj⟩)
    · obtain ⟨htree,hnext⟩ := hsame vResurrect f s' view vDelete hk
      refine ⟨(htree.isSome p).trans (hconnect p hp).mem, ?_⟩
      rw [hnext]
      exact (hconnect p hp).nextOf_none htip.next
  · obtain ⟨rfl,rfl⟩ := Prod.mk.inj h
    exact Or.inl ⟨Or.inl rfl, rfl⟩
  · obtain ⟨rfl,rfl⟩ := Prod.mk.inj h
    exact Or.inl ⟨Or.inr rfl, rfl⟩

end Rule

section Push
variable {W : Type} {cons : Consensus} {sync : WalletSync W} {io : ChainIO}
  {pindexNew best : BlockPtr} {s : NodeState W} {c : ConnectLoop W}

/-- A flush to the database keeps the coins, up to the versions it cannot hold. -/
theorem flushTip_match {u : Utxo} (s : NodeState W) (h : u.Match (getCoins s.pcoinsTip)) :
    u.Match (getCoins s.flushTip.pcoinsTip) := by
  intro txid
  have hentry := h txid
  change EntryMatch (u txid) ((s.cacheCoins txid).or (s.pcoinsdbview.coins txid)) at hentry
  change EntryMatch (u txid) ((s.pcoinsdbview.batchWrite s.cacheCoins s.pindexTip).coins txid)
  dsimp only [CCoinsViewDB.batchWrite]
  cases hcache : s.cacheCoins txid with
  | none =>
    rw [hcache] at hentry
    exact hentry
  | some coins =>
    rw [hcache] at hentry
    change EntryMatch (u txid) (some coins) at hentry
    dsimp only
    split_ifs with hpruned
    · exact EntryMatch.of_none (hentry.none_iff.mpr (live_none_of_pruned hpruned)) rfl
    · -- a live entry comes back with the version its bytes can hold
      rw [Bool.not_eq_true] at hpruned
      obtain ⟨c,hc,hm⟩ := hentry.of_live_right (live_some_iff.mpr ⟨rfl, hpruned⟩)
      have hstored := storedVersion_match coins
      have hm' : CoinMatch c { coins with nVersion := storedVersion coins.nVersion } := by
        refine ⟨hm.fCoinBase, hm.vout, hm.nHeight, fun hv => ?_⟩
        have hv' := hm.nVersion hv
        exact (hstored.nVersion (by rw [hv']; exact hv)).trans hv'
      obtain ⟨hu,-⟩ := live_some_iff.mp hc
      rw [hu]
      exact hm'.entry

/-- What the second half of `SetBestChain` leaves of the node its loops made. -/
structure Pushed (cons : Consensus) (c : ConnectLoop W) (s' : NodeState W) : Prop where
  kept : ∀ {β : Type} (g : CBlockIndex → β), (∀ pindex next, g { pindex with pnext := next } =
    g pindex) → ∀ p, (s'.mapBlockIndex p).map g = (c.node.mapBlockIndex p).map g
  set : s'.setBlockIndexValid = c.node.setBlockIndexValid
  blockFile : s'.blockFile = c.node.blockFile
  undoFile : s'.undoFile = c.node.undoFile
  coins : ∀ u : Utxo, u.Match (getCoins c.view) → u.Match (getCoins s'.pcoinsTip)
  deleted : ∀ tx ∈ c.vDelete, s'.mempool.mapTx.lookup (cons.ext.txHash tx) = none

theorem Pushed.tree {s' : NodeState W} (h : Pushed cons c s') :
    SameTree c.node.mapBlockIndex s'.mapBlockIndex := h.kept fixed fun _ _ => rfl

theorem Pushed.flags {s' : NodeState W} (h : Pushed cons c s') : SameFlags c.node s' :=
  ⟨h.set, h.kept isFailed fun _ _ => rfl⟩

/-- When a database write fails, the second half stops after the coins went to the tip. -/
theorem pushView_stops {vDisconnect vConnect : List BlockPtr} {vResurrect : List CTransaction}
    (hio : ¬ io.Flushes) {exit : ChainExit} {s' : NodeState W}
    (h : pushView cons sync io vDisconnect vConnect vResurrect pindexNew c = (exit,s')) :
    (exit = .diskSpace ∨ exit = .flush) ∧ s' = c.node.flushView c.view := by
  rw [ ChainIO.Flushes, Classical.not_imp] at hio
  obtain ⟨hflush,hwrite⟩ := hio
  rw [pushView, hflush] at h
  by_cases hspace : io.checkDiskSpace = true
  · have hfail : io.flush = false := by
      rw [← Bool.not_eq_true]
      exact fun hok => hwrite ⟨hspace, hok⟩
    rw [hspace, hfail] at h
    obtain ⟨rfl,rfl⟩ := Prod.mk.inj h
    exact ⟨Or.inr rfl, rfl⟩
  · rw [Bool.not_eq_true] at hspace
    rw [hspace] at h
    obtain ⟨rfl,rfl⟩ := Prod.mk.inj h
    exact ⟨Or.inl rfl, rfl⟩

/-- The node after the coins went to the database, or were left in the cache. -/
def ConnectLoop.flushed (io : ChainIO) (c : ConnectLoop W) : NodeState W :=
  if io.fFlush then (c.node.flushView c.view).flushTip else c.node.flushView c.view

theorem pushView_flushes {vDisconnect vConnect : List BlockPtr} {vResurrect : List CTransaction}
    (hio : io.Flushes) : pushView cons sync io vDisconnect vConnect vResurrect pindexNew c =
      (.ok, updateMemory cons sync io (c.flushed io) vDisconnect vConnect vResurrect c.vDelete
        pindexNew) := by
  rw [pushView, ConnectLoop.flushed]
  by_cases hflush : io.fFlush = true
  · obtain ⟨hspace,hwrite⟩ := hio hflush
    simp [hflush, hspace, hwrite]
  · simp [hflush]

/-- A flush to the database cannot be seen in the coins. -/
theorem flushTip_visible (s : NodeState W) :
    visibleCoins s.flushTip.pcoinsTip = visibleCoins s.pcoinsTip := by
  ext1 txid
  exact (flushTip_match s (Utxo.Match.refl (getCoins s.pcoinsTip)) txid).visible_eq

theorem visible_flushed (hsame : SameChain s c.node) (htemp : Temp s c.view) :
    visibleCoins (c.flushed io).pcoinsTip = visibleCoins c.view := by
  have hview : visibleCoins (c.node.flushView c.view).pcoinsTip = visibleCoins c.view := by
    ext1 txid
    exact congrArg visible (congrFun (flushView_tip hsame htemp).1 txid)
  rw [ConnectLoop.flushed]
  split_ifs
  · rw [flushTip_visible, hview]
  · exact hview

/-- When the database writes succeed, the second half makes the new block the tip. -/
theorem pushView_spec {f : BlockPtr} {vDisconnect vConnect : List BlockPtr}
    {vResurrect : List CTransaction} (htip : TipAt cons s best) (hio : io.Flushes)
    (hnew : (s.mapBlockIndex pindexNew).isSome = true)
    (hpath : Path (parentOf s.mapBlockIndex) best vDisconnect f)
    (hdown : Down (parentOf s.mapBlockIndex) f vConnect pindexNew)
    (hconnect : ∀ p ∈ vConnect, OnBranch s.mapBlockIndex best pindexNew p)
    (hsame : SameChain s c.node)
    (hcandidates : ∀ p ∈ c.node.setBlockIndexValid,
      (c.node.mapBlockIndex p).map isFailed = some false)
    (htemp : Temp s c.view) (hbest : getBestBlock c.view = some pindexNew) {exit : ChainExit}
    {s' : NodeState W}
    (h : pushView cons sync io vDisconnect vConnect vResurrect pindexNew c = (exit,s')) :
    exit = .ok ∧ TipAt cons s' pindexNew ∧ Pushed cons c s' := by
  obtain ⟨hcoins,hview⟩ := flushView_tip hsame htemp
  rw [pushView_flushes hio] at h
  generalize hs1 : c.flushed io = s1 at h
  rw [ConnectLoop.flushed] at hs1
  have hmap : s1.mapBlockIndex = c.node.mapBlockIndex := by
    rw [← hs1]
    split_ifs <;> rfl
  have hrest : s1.setBlockIndexValid = c.node.setBlockIndexValid ∧
      s1.blockFile = c.node.blockFile ∧ s1.undoFile = c.node.undoFile ∧
      s1.pindexTip = c.view.pindexTip := by
    rw [← hs1]
    split_ifs <;> exact ⟨rfl, rfl, rfl, rfl⟩
  obtain ⟨hset,hfile,hundo,hptr⟩ := hrest
  -- the flush hands the view's coins to the tip
  have hmatch : ∀ u : Utxo, u.Match (getCoins c.view) → u.Match (getCoins s1.pcoinsTip) := by
    intro u hu
    rw [← hcoins] at hu
    rw [← hs1]
    split_ifs
    · exact flushTip_match _ hu
    · exact hu
  obtain ⟨rfl,rfl⟩ := Prod.mk.inj h
  generalize hs2 : vResurrect.foldl (fun s tx => s.resurrect cons sync io tx)
    { s1 with mapBlockIndex := NodeState.relink s1.mapBlockIndex vDisconnect vConnect } = s2
  rw [updateMemory_eq io s1 s2 vDisconnect vConnect vResurrect c.vDelete pindexNew hs2, hmap]
  -- linking again changes only the successors
  have htree : SameTree s.mapBlockIndex
      (NodeState.relink c.node.mapBlockIndex vDisconnect vConnect) :=
    hsame.tree.trans (relink_same vDisconnect vConnect)
  have htree' := hsame.tree.treeOk htip.tree
  have hlinks := hsame.tree.parentOf
  -- until it is linked again, the index has the successors of the old main chain
  have hnext : NextFor c.node.mapBlockIndex best := by
    intro p q
    rw [hsame.next, hlinks]
    exact htip.next p q
  have hhash : ∀ p pindex, NodeState.relink c.node.mapBlockIndex vDisconnect vConnect p =
      some pindex → pindex.phashBlock = some p := by
    intro p pindex hp
    have hread := htree.read CBlockIndex.phashBlock (fun _ => rfl) p
    rw [hp] at hread
    obtain ⟨pindex',hp',hhash⟩ := Option.map_eq_some_iff.mp hread.symm
    rw [← hhash]
    exact htip.hash p pindex' hp'
  refine ⟨rfl, ⟨htree.treeOk htip.tree, hhash, ?_, ?_, ?_, rfl, ?_, rfl, rfl, ?_⟩, ?_⟩
  · intro p hp
    rw [hset] at hp
    exact (relink_map isFailed (fun _ _ => rfl) vDisconnect vConnect p).trans (hcandidates p hp)
  · exact (htree.isSome pindexNew).trans hnew
  · change s1.pindexTip.or _ = _
    rw [hptr, htemp.best, hbest]
    rfl
  · obtain ⟨pindex,hp⟩ := Option.isSome_iff_exists.mp ((htree.isSome pindexNew).trans hnew)
    change ((NodeState.relink c.node.mapBlockIndex vDisconnect vConnect pindexNew).bind
      CBlockIndex.phashBlock).getD 0 = pindexNew
    rw [hp, Option.bind_some, hhash pindexNew pindex hp]
    rfl
  · apply relink_next htree' hlinks hpath hdown _ _ hnext
    · rw [hsame.tree.isSome]
      exact htip.mem
    · intro p hp
      rw [hsame.tree.isSome]
      exact (hconnect p hp).mem
  · refine ⟨fun g hg p => relink_map g hg vDisconnect vConnect p, hset, hfile, hundo, ?_, ?_⟩
    · intro u hu
      have hu1 := hmatch u hu
      exact hu1
    · intro tx htx
      exact deleteAll_lookup htx _

end Push

section SetBest
variable {W : Type} {cons : Consensus} {sync : WalletSync W} {io : ChainIO}
  {nested : NodeState W → ChainExit × NodeState W} {pindexNew best : BlockPtr}
  {s s' : NodeState W}

theorem SameFlags.candidates (h : SameFlags s s')
    (hs : ∀ p ∈ s.setBlockIndexValid, (s.mapBlockIndex p).map isFailed = some false) :
    ∀ p ∈ s'.setBlockIndexValid, (s'.mapBlockIndex p).map isFailed = some false := by
  intro p hp
  rw [h.set] at hp
  exact (h.failed p).trans (hs p hp)

theorem Flagged.candidates {q : BlockPtr} (h : Flagged q s s')
    (hs : ∀ p ∈ s.setBlockIndexValid, (s.mapBlockIndex p).map isFailed = some false) :
    ∀ p ∈ s'.setBlockIndexValid, (s'.mapBlockIndex p).map isFailed = some false := by
  intro p hp
  rw [h.set, List.mem_filter, decide_eq_true_eq] at hp
  exact (h.others p hp.2).trans (hs p hp.1)

/-- The tip stays where it was if the chain state does. -/
theorem TipAt.of_same (h : TipAt cons s best) (hsame : SameChain s s')
    (hcandidates : ∀ p ∈ s'.setBlockIndexValid,
      (s'.mapBlockIndex p).map isFailed = some false) : TipAt cons s' best where
  tree := hsame.tree.treeOk h.tree
  hash := by
    intro p pindex hp
    have hread := hsame.tree.read CBlockIndex.phashBlock (fun _ => rfl) p
    rw [hp] at hread
    obtain ⟨pindex',hp',hhash⟩ := Option.map_eq_some_iff.mp hread.symm
    rw [← hhash]
    exact h.hash p pindex' hp'
  candidates := hcandidates
  mem := (hsame.tree.isSome best).trans h.mem
  coins := by rw [hsame.pcoinsTip]; exact h.coins
  pindexBest := hsame.pindexBest.trans h.pindexBest
  hashBestChain := hsame.hashBestChain.trans h.hashBestChain
  nBestHeight := by rw [hsame.nBestHeight, hsame.tree.heightOf]; exact h.nBestHeight
  nBestChainWork := by rw [hsame.nBestChainWork, hsame.tree.workOf]; exact h.nBestChainWork
  next := by
    intro p q
    rw [hsame.next, hsame.tree.parentOf]
    exact h.next p q

/-- The pool and the wallets have no part in it. -/
theorem TipAt.of_pool {mempool : CTxMemPool} {wallet : W} (h : TipAt cons s best) :
    TipAt cons { s with mempool := mempool, wallet := wallet } best :=
  ⟨h.tree, h.hash, h.candidates, h.mem, h.coins, h.pindexBest, h.hashBestChain, h.nBestHeight,
    h.nBestChainWork, h.next⟩

/-- Which block a call has found invalid: none, or one on the branch it was to connect. -/
def Blamed (best pindexNew : BlockPtr) (exit : ChainExit) (s s' : NodeState W) : Prop :=
  (SameFlags s s' ∧ ∀ e, exit = .connect e → e.isInvalid = false) ∨
    ∃ e p, exit = .connect e ∧ e.isInvalid = true ∧
      OnBranch s.mapBlockIndex best pindexNew p ∧ Flagged p s s'

theorem Blamed.candidates {exit : ChainExit} (h : Blamed best pindexNew exit s s')
    (hs : ∀ p ∈ s.setBlockIndexValid, (s.mapBlockIndex p).map isFailed = some false) :
    ∀ p ∈ s'.setBlockIndexValid, (s'.mapBlockIndex p).map isFailed = some false := by
  rcases h with ⟨hflags,-⟩ | ⟨e,p,-,-,-,hflagged⟩
  · exact hflags.candidates hs
  · exact hflagged.candidates hs

/-- What the call has after the blocks down to `f` and up to it: a view at `f` over an unchanged
chain state. -/
def ViewAt (s : NodeState W) (f : BlockPtr) (s' : NodeState W) (view : CCoinsViewCache) : Prop :=
  SameChain s s' ∧ SameFlags s s' ∧ Temp s view ∧ getBestBlock view = some f

theorem ViewAt.connected {f p : BlockPtr} {view : CCoinsViewCache} {pindex : CBlockIndex}
    {block : CBlock} {r : ConnectResult CCoinsViewCache} (h : ViewAt s f s' view)
    (hstep : ConnectStep cons io s' p view pindex block r) (hok : r.error = none) :
    ViewAt s p (s'.connected cons sync p block r) r.view := by
  obtain ⟨hsame,hflags,htemp,-⟩ := h
  obtain ⟨hsame',hflags'⟩ := connected_same hstep.entry hstep.result
  exact ⟨hsame.trans hsame', hflags.trans hflags',
    connectBlock_closed (temp_closed s) (temp_setBestBlock s) hstep.result hok htemp,
    connectBlock_best hstep.result hok⟩

theorem ViewAt.failed {f p : BlockPtr} {view : CCoinsViewCache} {pindex : CBlockIndex}
    {block : CBlock} {r : ConnectResult CCoinsViewCache} {e : ConnectError} (w : Uint256)
    (h : ViewAt s f s' view) (hp : OnBranch s.mapBlockIndex best pindexNew p)
    (hstep : ConnectStep cons io s' p view pindex block r) {s'' : NodeState W}
    (hs'' : (if e.isInvalid then markInvalid (s'.connected cons sync p block r) p w
      else s'.connected cons sync p block r) = s'') :
    SameChain s s'' ∧ Blamed best pindexNew (.connect e) s s'' := by
  obtain ⟨hsame,hflags,-,-⟩ := h
  obtain ⟨hsame',hflags'⟩ := connected_same hstep.entry hstep.result
  rw [← hs'']
  by_cases he : e.isInvalid = true
  · rw [if_pos he]
    obtain ⟨hmark,hflagged⟩ := markInvalid_same (s'.connected cons sync p block r) p w
    exact ⟨(hsame.trans hsame').trans hmark,
      Or.inr ⟨e, p, rfl, he, hp, (hflags.trans hflags').flagged hflagged⟩⟩
  · rw [if_neg he]
    refine ⟨hsame.trans hsame', Or.inl ⟨hflags.trans hflags', fun e' heq => ?_⟩⟩
    obtain rfl := ChainExit.connect.inj heq
    exact Bool.not_eq_true _ ▸ he

theorem disconnectStep_temp {p q : BlockPtr} {view : CCoinsViewCache} {pindex : CBlockIndex}
    {block : CBlock} {r : DisconnectResult CCoinsViewCache}
    (hparent : parentOf s.mapBlockIndex p = some q) (htemp : Temp s view)
    (hstep : DisconnectStep cons io s p view pindex block r) :
    Temp s r.view ∧ getBestBlock r.view = some q := by
  have hprev : pindex.pprev = some q := by
    rw [parentOf, hstep.entry] at hparent
    exact hparent
  exact ⟨disconnectBlock_closed (temp_closed s) (temp_setBestBlock s) hstep.result hstep.ok htemp,
    disconnectBlock_best hprev hstep.result hstep.ok⟩

/-- `ConnectBestBlock` is not called again from a call that starts in a consistent state. -/
theorem setBestChain_nested {nested' : NodeState W → ChainExit × NodeState W}
    (htip : TipAt cons s best) (hnew : (s.mapBlockIndex pindexNew).isSome = true) :
    setBestChain cons sync nested io pindexNew s = setBestChain cons sync nested' io pindexNew s := by
  obtain ⟨f,vDisconnect,vConnect,hfind,-,-,hconnect⟩ := findBranches_spec htip.tree htip.mem hnew
  rw [setBestChain, setBestChain, newView_best, htip.coins, hfind]
  have hnext : ∀ p ∈ vConnect, nextOf s.mapBlockIndex p = none :=
    fun p hp => (hconnect p hp).nextOf_none htip.next
  dsimp only
  split
  · rfl
  · rename_i view vResurrect _
    rw [connectLoop_nested hnext view []]

/-- The exits of `SetBestChain` before it touches the tip. -/
def ChainExit.Early (exit : ChainExit) : Prop :=
  exit = .readBlock ∨ exit = .disconnect ∨ ∃ e, exit = .connect e

theorem ChainExit.early_of_disconnect {exit : ChainExit}
    (h : exit = .readBlock ∨ exit = .disconnect) : exit.Early := by
  rcases h with h | h
  · exact Or.inl h
  · exact Or.inr (Or.inl h)

theorem ChainExit.early_of_connect {exit : ChainExit}
    (h : exit = .readBlock ∨ ∃ e, exit = .connect e) : exit.Early := by
  rcases h with h | h
  · exact Or.inl h
  · exact Or.inr (Or.inr h)

/-- No entry of the index is one of the two blocks that may overwrite a transaction. -/
def NoneExempt (m : BlockPtr → Option CBlockIndex) : Prop :=
  ∀ p pindex, m p = some pindex → bip30Exempt pindex = false

theorem SameTree.noneExempt {m m' : BlockPtr → Option CBlockIndex} (h : SameTree m m')
    (hm : NoneExempt m) : NoneExempt m' := by
  intro p pindex hp
  have hread := h.read bip30Exempt (fun _ => rfl) p
  rw [hp] at hread
  obtain ⟨pindex',hp',heq⟩ := Option.map_eq_some_iff.mp hread.symm
  rw [← heq]
  exact hm p pindex' hp'

theorem ConnectStep.getHash {p : BlockPtr} {view : CCoinsViewCache} {pindex : CBlockIndex}
    {block : CBlock} {r : ConnectResult CCoinsViewCache}
    (h : ConnectStep cons io s p view pindex block r) (hhash : pindex.phashBlock = some p) :
    block.getHash cons.ext = p := by
  have hread := h.read
  rw [NodeState.readBlock] at hread
  split_ifs at hread
  obtain ⟨-,heq⟩ := Option.filter_eq_some_iff.mp hread
  rw [hhash, beq_iff_eq] at heq
  exact Option.some.inj heq

/-- What is known of the entry and the block of a turn of the loop. -/
theorem ConnectStep.facts {f p : BlockPtr} {view : CCoinsViewCache} {pindex : CBlockIndex}
    {block : CBlock} {r : ConnectResult CCoinsViewCache} (htip : TipAt cons s best) (hexempt : NoneExempt s.mapBlockIndex)
    (hsame : SameChain s s') (hmem : (s.mapBlockIndex p).isSome = true)
    (hparent : parentOf s.mapBlockIndex p = some f)
    (h : ConnectStep cons io s' p view pindex block r) :
    pindex.phashBlock = some p ∧ p ≠ cons.hashGenesisBlock ∧
      heightOf s.mapBlockIndex p = pindex.nHeight ∧ 0 < pindex.nHeight ∧
      bip30Exempt pindex = false ∧ pindex.pprev = some f ∧ s.blockFile p = some block := by
  have htree := htip.tree
  obtain ⟨pindex0,hp0⟩ := Option.isSome_iff_exists.mp hmem
  obtain ⟨pindex',hp',hfixed⟩ := hsame.tree.entry hp0
  obtain rfl := Option.some.inj (hp'.symm.trans h.entry)
  -- the entry agrees with the one the call began with in all that is asked for
  have hread {β : Type} (g : CBlockIndex → β) (hg : ∀ i, g (fixed i) = g i) :
      g pindex' = g pindex0 := by
    rw [← hg pindex', hfixed, hg]
  have hheight : heightOf s.mapBlockIndex p = pindex'.nHeight := by
    rw [heightOf, hp0, hread CBlockIndex.nHeight fun _ => rfl]
    rfl
  refine ⟨?_, ?_, hheight, ?_, ?_, ?_, ?_⟩
  · rw [hread CBlockIndex.phashBlock fun _ => rfl]
    exact htip.hash p pindex0 hp0
  · intro heq
    rw [heq, htree.root_parent] at hparent
    cases hparent
  · have hup := (htree.of_parent hmem hparent).2
    omega
  · rw [hread bip30Exempt fun _ => rfl]
    exact hexempt p pindex0 hp0
  · rw [hread CBlockIndex.pprev fun _ => rfl]
    rw [parentOf, hp0] at hparent
    exact hparent
  · have hfile := h.read
    rw [NodeState.readBlock] at hfile
    split_ifs at hfile
    obtain ⟨hfile,-⟩ := Option.filter_eq_some_iff.mp hfile
    rw [← hsame.blockFile]
    exact hfile

/-- The coins of a view went to a node with the tip `best`, and nothing else was written. -/
def CoinsMoved (cons : Consensus) (best : BlockPtr) (s s' : NodeState W) : Prop :=
  ∃ node view, TipAt cons node best ∧ SameTree s.mapBlockIndex node.mapBlockIndex ∧
    s' = node.flushView view

theorem CoinsMoved.pindexBest (h : CoinsMoved cons best s s') : s'.pindexBest = some best := by
  obtain ⟨node,view,htip,-,rfl⟩ := h
  exact htip.pindexBest

theorem CoinsMoved.tree (h : CoinsMoved cons best s s') :
    SameTree s.mapBlockIndex s'.mapBlockIndex := by
  obtain ⟨node,view,-,htree,rfl⟩ := h
  exact htree

/-- The tip is where it was unless the coins are at another block. -/
theorem CoinsMoved.tip (h : CoinsMoved cons best s s') (hcoins : getBestBlock s'.pcoinsTip = some best) :
    TipAt cons s' best := by
  obtain ⟨node,view,htip,-,rfl⟩ := h
  exact ⟨htip.tree, htip.hash, htip.candidates, htip.mem, hcoins, htip.pindexBest,
    htip.hashBestChain, htip.nBestHeight, htip.nBestChainWork, htip.next⟩

/-- How `SetBestChain` ends: the new block is the tip, or the chain state is what it was, or a
database write failed after the coins had moved. -/
theorem setBestChain_tip (htip : TipAt cons s best)
    (hnew : (s.mapBlockIndex pindexNew).isSome = true) {exit : ChainExit}
    (h : setBestChain cons sync nested io pindexNew s = (exit,s')) :
    (exit = .ok ∧ TipAt cons s' pindexNew ∧ SameTree s.mapBlockIndex s'.mapBlockIndex ∧
      SameFlags s s' ∧ s'.blockFile = s.blockFile) ∨
    (exit.Early ∧ SameChain s s' ∧ Blamed best pindexNew exit s s') ∨
    (¬ io.Flushes ∧ (exit = .diskSpace ∨ exit = .flush) ∧ CoinsMoved cons best s s') := by
  have hrule := setBestChain_rule htip hnew
    (I := fun f view _ => Temp s view ∧ getBestBlock view = some f)
    (K := fun _ f s' view _ => ViewAt s f s' view)
    (J := fun exit s' => SameChain s s' ∧ Blamed best pindexNew exit s s')
    ⟨newView_temp htip.coins, (newView_best s).trans htip.coins⟩
    (fun p q view _ pindex block r _ hparent hI hstep => disconnectStep_temp hparent hI.1 hstep)
    (fun f view _ _ hI => ⟨SameChain.refl s, SameFlags.refl s, hI.1, hI.2⟩)
    (fun _ f s' view _ hK => ⟨hK.1.tree, hK.1.next⟩)
    (fun _ f s' view _ hK => ⟨hK.1, Or.inl ⟨hK.2.1, fun e he => by cases he⟩⟩)
    (fun _ f s' view _ p pindex block r e w hp _ hK hstep _ => hK.failed w hp hstep rfl)
    (fun _ f s' view _ p pindex block r _ _ hK hstep hok => hK.connected hstep hok) h
  rcases hrule with ⟨hexit,rfl⟩ | ⟨hexit,hsame,hblamed⟩ |
    ⟨f,vDisconnect,vConnect,vResurrect,c,hpath,hdown,hconnect,hK,hpush⟩
  · refine Or.inr (Or.inl ⟨ChainExit.early_of_disconnect hexit, SameChain.refl s',
      Or.inl ⟨SameFlags.refl s', ?_⟩⟩)
    intro e he
    rw [he] at hexit
    rcases hexit with hexit | hexit <;> cases hexit
  · exact Or.inr (Or.inl ⟨ChainExit.early_of_connect hexit, hsame, hblamed⟩)
  · obtain ⟨hsame,hflags,htemp,hbest⟩ := hK
    by_cases hio : io.Flushes
    swap
    · obtain ⟨hexit,hs'⟩ := pushView_stops hio hpush
      have htip' := htip.of_same hsame (hflags.candidates htip.candidates)
      exact Or.inr (Or.inr ⟨hio, hexit, c.node, c.view, htip', hsame.tree, hs'⟩)
    obtain ⟨rfl,htip',hpushed⟩ := pushView_spec htip hio hnew hpath hdown hconnect hsame
      (hflags.candidates htip.candidates) htemp hbest hpush
    exact Or.inl ⟨rfl, htip', hsame.tree.trans hpushed.tree, hflags.trans hpushed.flags,
      hpushed.blockFile.trans hsame.blockFile⟩

end SetBest

end Candypool.Chain
