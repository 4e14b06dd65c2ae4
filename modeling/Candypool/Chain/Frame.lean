import Candypool.Chain.SetBestChain
import Candypool.Coins.RoundTrip

/-! What the two loops of `SetBestChain` can change: which fields of the node, which parts of an
index entry, and which part of their view. -/
namespace Candypool.Chain
open Candypool.Prime Candypool.Core Candypool.Coins Candypool.Lib

section Views
variable {V : Type} [CCoinsView V] {P : V → Prop} {txHash : CTransaction → Uint256} {nHeight : ℕ}

/-- A property of views that no write of coins can break. -/
def CoinClosed (P : V → Prop) : Prop := ∀ view txid coins, P view → P (setCoins view txid coins)

/-- An entry that is there is never taken out, it is only emptied. -/
theorem known_closed (txid : Uint256) :
    CoinClosed fun view : V => (getCoins view txid).isSome = true := by
  intro view txid' coins hsome
  rw [getCoins_setCoins]
  by_cases heq : txid = txid'
  · rw [heq, Function.update_self]
    rfl
  · rw [Function.update_of_ne heq]
    exact hsome

theorem spendInputs_closed (hP : CoinClosed P) {view view' : V} {vin : List CTxIn}
    {undos : List CTxInUndo} (h : spendInputs view vin = some (view',undos)) (hv : P view) :
    P view' := by
  induction vin generalizing view undos with
  | nil =>
    obtain ⟨rfl,-⟩ := Prod.mk.inj (Option.some.inj h)
    exact hv
  | cons txin vin ih =>
    obtain ⟨view1,undo,undos',h1,h2,-⟩ := spendInputs_cons h
    obtain ⟨c,c',-,-,rfl⟩ := spendInput_eq_some h1
    exact ih h2 (hP _ _ _ hv)

theorem updateCoins_closed (hP : CoinClosed P) {view view' : V} {tx : CTransaction}
    {txhash : Uint256} {txundo : CTxUndo}
    (h : updateCoins view tx nHeight txhash = some (view',txundo)) (hv : P view) : P view' := by
  obtain ⟨view1,hspend,rfl⟩ := updateCoins_eq_some h
  apply hP
  rw [markSpent] at hspend
  split_ifs at hspend
  · obtain ⟨rfl,-⟩ := Prod.mk.inj (Option.some.inj hspend)
    exact hv
  · exact spendInputs_closed hP hspend hv

theorem updateTxs_closed (hP : CoinClosed P) {view view' : V} {vtx : List CTransaction}
    {vtxundo : List CTxUndo} (h : updateTxs txHash nHeight view vtx = some (view',vtxundo))
    (hv : P view) : P view' := by
  induction vtx generalizing view vtxundo with
  | nil =>
    obtain ⟨rfl,-⟩ := Prod.mk.inj (Option.some.inj h)
    exact hv
  | cons tx vtx ih =>
    obtain ⟨view1,txundo,vtxundo',h1,h2,-⟩ := updateTxs_cons h
    exact ih h2 (updateCoins_closed hP h1 hv)

theorem updateBlock_closed (hP : CoinClosed P) {view view' : V} {vtx : List CTransaction}
    {blockundo : CBlockUndo} (h : updateBlock txHash nHeight view vtx = some (view',blockundo))
    (hv : P view) : P view' := by
  cases vtx with
  | nil =>
    obtain ⟨rfl,-⟩ := Prod.mk.inj (Option.some.inj h)
    exact hv
  | cons tx vtx =>
    obtain ⟨view1,txundo,h1,h2⟩ := updateBlock_cons h
    exact updateTxs_closed hP h2 (updateCoins_closed hP h1 hv)

theorem restoreInputs_closed (hP : CoinClosed P) (vin : List CTxIn) (undos : List CTxInUndo)
    {view : V} (hv : P view) : P (restoreInputs view vin undos).2 := by
  induction vin generalizing undos with
  | nil => cases undos <;> exact hv
  | cons txin vin ih =>
    cases undos with
    | nil => exact hv
    | cons undo undos => exact hP _ _ _ (ih undos)

theorem disconnectTxs_closed (hP : CoinClosed P) (vtx : List CTransaction) (vtxundo : List CTxUndo)
    {view : V} (hv : P view) : P (disconnectTxs txHash nHeight view vtx vtxundo).view := by
  induction vtx generalizing vtxundo with
  | nil => cases vtxundo <;> exact hv
  | cons tx vtx ih =>
    cases vtxundo with
    | nil => exact hv
    | cons txundo vtxundo =>
      rw [disconnectTxs]
      split_ifs
      · exact ih vtxundo
      · exact hP _ _ _ (ih vtxundo)
      · exact restoreInputs_closed hP _ _ (hP _ _ _ (ih vtxundo))

/-- A transaction of the loop leaves an entry behind, if only an empty one. -/
theorem disconnectTxs_known {view : V} {vtx : List CTransaction} {vtxundo : List CTxUndo}
    (hlength : vtxundo.length = vtx.length)
    (hok : (disconnectTxs txHash nHeight view vtx vtxundo).error = none) :
    ∀ tx ∈ vtx, (getCoins (disconnectTxs txHash nHeight view vtx vtxundo).view
      (txHash tx)).isSome = true := by
  induction vtx generalizing vtxundo with
  | nil =>
    intro tx hmem
    cases hmem
  | cons tx vtx ih =>
    cases vtxundo with
    | nil => cases hlength
    | cons txundo vtxundo =>
      rw [disconnectTxs] at hok ⊢
      split_ifs at hok ⊢ with herr hlen
      · rw [hok] at herr
        cases herr
      intro tx' hmem
      apply restoreInputs_closed (known_closed (txHash tx'))
      rcases List.mem_cons.mp hmem with rfl | hmem
      · change (getCoins (setCoins _ _ _) _).isSome = true
        rw [getCoins_setCoins, Function.update_self]
        rfl
      · apply known_closed
        apply ih _ _ tx' hmem
        · exact Nat.succ.inj hlength
        · simpa using herr

section Disconnect
variable {cons : Consensus} {block : CBlock} {ptr : BlockPtr} {pindex : CBlockIndex}
  {blockUndo : Option CBlockUndo} {view : V} {r : DisconnectResult V}

/-- What a `DisconnectBlock` call without an error has found and done. -/
theorem disconnectBlock_ok (hr : disconnectBlock cons block ptr pindex blockUndo view = r)
    (hok : r.error = none) :
    getBestBlock view = some ptr ∧ pindex.nStatus.haveUndo = true ∧ ∃ undo tx vtx,
      blockUndo = some undo ∧ block.vtx = tx :: vtx ∧ undo.vtxundo.length = vtx.length ∧
      (disconnectTxs cons.ext.txHash pindex.nHeight view vtx undo.vtxundo).error = none ∧
      r.fClean = ((disconnectTxs cons.ext.txHash pindex.nHeight view vtx undo.vtxundo).fClean &&
        (removeOutputs cons.ext.txHash pindex.nHeight (disconnectTxs cons.ext.txHash
          pindex.nHeight view vtx undo.vtxundo).view tx).1) ∧
      r.view = (match pindex.pprev with
        | none => (removeOutputs cons.ext.txHash pindex.nHeight (disconnectTxs cons.ext.txHash
            pindex.nHeight view vtx undo.vtxundo).view tx).2
        | some pprev => setBestBlock (removeOutputs cons.ext.txHash pindex.nHeight (disconnectTxs
            cons.ext.txHash pindex.nHeight view vtx undo.vtxundo).view tx).2 pprev) := by
  rw [disconnectBlock.eq_def] at hr
  -- each check that fails leaves with an error, which the caller has excluded
  split at hr
  · rw [← hr] at hok
    cases hok
  rename_i hbest
  split at hr
  · rw [← hr] at hok
    cases hok
  rename_i hhave
  split at hr
  · rw [← hr] at hok
    cases hok
  rename_i undo
  split at hr
  · rw [← hr] at hok
    cases hok
  rename_i hlength
  split at hr
  · rw [← hr] at hok
    cases hok
  rename_i tx vtx hvtx
  dsimp only at hr
  split at hr
  · rename_i herr
    rw [hr, hok] at herr
    cases herr
  · rename_i herr
    refine ⟨not_not.mp hbest, by simpa using hhave, undo, tx, vtx, rfl, hvtx, ?_, ?_, ?_, ?_⟩
    · rw [not_not, hvtx, List.length_cons] at hlength
      omega
    · simpa using herr
    · subst hr
      rfl
    · subst hr
      rfl

/-- A block that was disconnected leaves the view at its parent. -/
theorem disconnectBlock_best {pprev : BlockPtr} (hprev : pindex.pprev = some pprev)
    (hr : disconnectBlock cons block ptr pindex blockUndo view = r) (hok : r.error = none) :
    getBestBlock r.view = some pprev := by
  obtain ⟨-,-,undo,tx,vtx,-,-,-,-,-,hview⟩ := disconnectBlock_ok hr hok
  rw [hview, hprev]
  exact getBestBlock_setBestBlock _ _

theorem disconnectBlock_closed (hP : CoinClosed P)
    (hbest : ∀ view p, P view → P (setBestBlock view p))
    (hr : disconnectBlock cons block ptr pindex blockUndo view = r) (hok : r.error = none)
    (hv : P view) : P r.view := by
  obtain ⟨-,-,undo,tx,vtx,-,-,-,-,-,hview⟩ := disconnectBlock_ok hr hok
  have hrest : P (disconnectTxs cons.ext.txHash pindex.nHeight view vtx undo.vtxundo).view :=
    disconnectTxs_closed hP vtx undo.vtxundo hv
  rw [hview]
  cases pindex.pprev with
  | none => exact hP _ _ _ hrest
  | some pprev => exact hbest _ _ (hP _ _ _ hrest)

/-- After a block was disconnected every transaction of it has an entry. -/
theorem disconnectBlock_known (hr : disconnectBlock cons block ptr pindex blockUndo view = r)
    (hok : r.error = none) {tx : CTransaction} (hmem : tx ∈ block.vtx) :
    (getCoins r.view (cons.ext.txHash tx)).isSome = true := by
  obtain ⟨-,-,undo,coinbase,vtx,-,hvtx,hlength,herr,-,hview⟩ := disconnectBlock_ok hr hok
  have hknown : (getCoins (removeOutputs cons.ext.txHash pindex.nHeight (disconnectTxs
      cons.ext.txHash pindex.nHeight view vtx undo.vtxundo).view coinbase).2
      (cons.ext.txHash tx)).isSome = true := by
    rw [hvtx] at hmem
    rcases List.mem_cons.mp hmem with rfl | hmem
    · change (getCoins (setCoins _ _ _) _).isSome = true
      rw [getCoins_setCoins, Function.update_self]
      rfl
    · apply known_closed
      exact disconnectTxs_known hlength herr tx hmem
  rw [hview]
  cases pindex.pprev with
  | none => exact hknown
  | some pprev =>
    dsimp only
    rw [getCoins_setBestBlock]
    exact hknown

end Disconnect

section Connect
variable {cons : Consensus} {io : ConnectIO} {mapBlockIndex : BlockPtr → Option CBlockIndex}
  {block : CBlock} {ptr : BlockPtr} {pindex : CBlockIndex} {view : V} {r : ConnectResult V}

/-- A block that was connected is the best block of the view. -/
theorem connectBlock_best (hr : connectBlock cons io mapBlockIndex block ptr pindex view false = r)
    (hok : r.error = none) : getBestBlock r.view = some ptr := by
  rcases connectBlock_cases hr with ⟨herr,-⟩ | ⟨-,-,-,rfl⟩ | ⟨pprev,s,-,hrecord⟩
  · exact absurd hok herr
  · exact getBestBlock_setBestBlock _ _
  · obtain ⟨-,hdone,-⟩ := recordBlock_effect hrecord.symm
    rw [(hdone hok).1]
    exact getBestBlock_setBestBlock _ _

theorem connectBlock_closed (hP : CoinClosed P)
    (hbest : ∀ view p, P view → P (setBestBlock view p))
    (hr : connectBlock cons io mapBlockIndex block ptr pindex view false = r) (hok : r.error = none)
    (hv : P view) : P r.view := by
  rcases connectBlock_cases hr with ⟨herr,-⟩ | ⟨-,-,-,rfl⟩ | ⟨pprev,s,hvalid,hrecord⟩
  · exact absurd hok herr
  · exact hbest _ _ hv
  · obtain ⟨-,hdone,-⟩ := recordBlock_effect hrecord.symm
    rw [(hdone hok).1]
    exact hbest _ _ (updateBlock_closed hP hvalid.update hv)

/-- `ConnectBlock` writes the money supply, the validity level and the undo flag of its entry. -/
theorem connectBlock_index
    (hr : connectBlock cons io mapBlockIndex block ptr pindex view false = r) :
    ∃ nMoneySupply validLevel haveUndo, r.pindex = { pindex with
      nMoneySupply := nMoneySupply
      nStatus := { pindex.nStatus with validLevel := validLevel, haveUndo := haveUndo } } := by
  rcases connectBlock_cases hr with ⟨-,-,-,m,hm⟩ | ⟨-,-,-,rfl⟩ | ⟨pprev,s,-,hrecord⟩
  · exact ⟨m, pindex.nStatus.validLevel, pindex.nStatus.haveUndo, hm⟩
  · exact ⟨pindex.nMoneySupply, pindex.nStatus.validLevel, pindex.nStatus.haveUndo, rfl⟩
  · obtain ⟨-,-,level,haveUndo,hpindex,-⟩ := recordBlock_effect hrecord.symm
    exact ⟨_, level, haveUndo, hpindex⟩

end Connect

end Views

section Index

/-- The part of an index entry that is written once and for all. -/
def fixed (pindex : CBlockIndex) : CBlockIndex :=
  { pindex with pnext := none, nMoneySupply := 0, nStatus := ⟨0, false, false, false, false⟩ }

/-- The same entries with the same parents, heights, works and headers. -/
def SameTree (m m' : BlockPtr → Option CBlockIndex) : Prop :=
  ∀ p, (m' p).map fixed = (m p).map fixed

theorem bind_eq_of_map {α β : Type} {x y : Option α} {f : α → Option β}
    (h : x.map f = y.map f) : x.bind f = y.bind f := by
  have hjoin := congrArg Option.join h
  cases x <;> cases y <;> exact hjoin

variable {m m' : BlockPtr → Option CBlockIndex}

theorem SameTree.refl (m : BlockPtr → Option CBlockIndex) : SameTree m m := fun _ => rfl

theorem SameTree.trans {m'' : BlockPtr → Option CBlockIndex} (h : SameTree m m')
    (h' : SameTree m' m'') : SameTree m m'' := fun p => (h' p).trans (h p)

/-- What is read off the fixed part of an entry is the same in both. -/
theorem SameTree.read {β : Type} (h : SameTree m m') (f : CBlockIndex → β)
    (hf : ∀ pindex, f (fixed pindex) = f pindex) (p : BlockPtr) : (m' p).map f = (m p).map f := by
  have heq := congrArg (Option.map f) (h p)
  rw [Option.map_map, Option.map_map] at heq
  have hcomp : f ∘ fixed = f := funext hf
  rwa [hcomp] at heq

theorem SameTree.parentOf (h : SameTree m m') : parentOf m' = parentOf m := by
  ext1 p
  exact bind_eq_of_map (h.read CBlockIndex.pprev (fun _ => rfl) p)

theorem SameTree.heightOf (h : SameTree m m') : heightOf m' = heightOf m := by
  ext1 p
  rw [Chain.heightOf, Chain.heightOf, h.read CBlockIndex.nHeight (fun _ => rfl) p]

theorem SameTree.workOf (h : SameTree m m') : workOf m' = workOf m := by
  ext1 p
  rw [Chain.workOf, Chain.workOf, h.read CBlockIndex.nChainWork (fun _ => rfl) p]

theorem SameTree.isSome (h : SameTree m m') (p : BlockPtr) : (m' p).isSome = (m p).isSome := by
  have heq := congrArg Option.isSome (h p)
  rwa [Option.isSome_map, Option.isSome_map] at heq

/-- The entry of a tree that has the same fixed part. -/
theorem SameTree.entry (h : SameTree m m') {p : BlockPtr} {pindex : CBlockIndex}
    (hp : m p = some pindex) : ∃ pindex', m' p = some pindex' ∧ fixed pindex' = fixed pindex := by
  have heq := h p
  rw [hp, Option.map_some, Option.map_eq_some_iff] at heq
  exact heq

theorem modifyIndex_self {p : BlockPtr} {f : CBlockIndex → CBlockIndex} :
    modifyIndex m p f p = (m p).map f := Function.update_self _ _ _

theorem modifyIndex_ne {p q : BlockPtr} {f : CBlockIndex → CBlockIndex} (h : q ≠ p) :
    modifyIndex m p f q = m q := Function.update_of_ne h _ _

/-- A write shows in what is read from an entry only if it changes it. -/
theorem modifyIndex_map {β : Type} {p : BlockPtr} {f : CBlockIndex → CBlockIndex}
    (g : CBlockIndex → β) (hg : ∀ pindex, m p = some pindex → g (f pindex) = g pindex)
    (q : BlockPtr) : (modifyIndex m p f q).map g = (m q).map g := by
  by_cases hq : q = p
  · rw [hq, modifyIndex_self, Option.map_map]
    cases hp : m p with
    | none => rfl
    | some pindex => exact congrArg some (hg pindex hp)
  · rw [modifyIndex_ne hq]

theorem nextOf_eq_of_map (h : ∀ p, (m' p).map CBlockIndex.pnext = (m p).map CBlockIndex.pnext) :
    nextOf m' = nextOf m := by
  ext1 p
  exact bind_eq_of_map (h p)

end Index

section Node
variable {W : Type}

/-- The chain state is the same: the coins and their best block, the tip, the links of the main
chain and the pool. Only money supplies and the status of entries may differ in the tree. -/
structure SameChain (s s' : NodeState W) : Prop where
  blockFile : s'.blockFile = s.blockFile
  pcoinsdbview : s'.pcoinsdbview = s.pcoinsdbview
  cacheCoins : s'.cacheCoins = s.cacheCoins
  pindexTip : s'.pindexTip = s.pindexTip
  pindexBest : s'.pindexBest = s.pindexBest
  hashBestChain : s'.hashBestChain = s.hashBestChain
  nBestHeight : s'.nBestHeight = s.nBestHeight
  nBestChainWork : s'.nBestChainWork = s.nBestChainWork
  mempool : s'.mempool = s.mempool
  tree : SameTree s.mapBlockIndex s'.mapBlockIndex
  next : nextOf s'.mapBlockIndex = nextOf s.mapBlockIndex

/-- No block was found to be invalid. -/
structure SameFlags (s s' : NodeState W) : Prop where
  set : s'.setBlockIndexValid = s.setBlockIndexValid
  failed : ∀ p, (s'.mapBlockIndex p).map isFailed = (s.mapBlockIndex p).map isFailed

/-- One block was found to be invalid. -/
structure Flagged (p : BlockPtr) (s s' : NodeState W) : Prop where
  set : s'.setBlockIndexValid = s.setBlockIndexValid.filter (· ≠ p)
  failed : (s'.mapBlockIndex p).map isFailed = (s.mapBlockIndex p).map fun _ => true
  others : ∀ q, q ≠ p → (s'.mapBlockIndex q).map isFailed = (s.mapBlockIndex q).map isFailed

theorem SameChain.refl (s : NodeState W) : SameChain s s :=
  ⟨rfl, rfl, rfl, rfl, rfl, rfl, rfl, rfl, rfl, SameTree.refl _, rfl⟩

theorem SameChain.trans {a b c : NodeState W} (h : SameChain a b) (h' : SameChain b c) :
    SameChain a c :=
  ⟨h'.blockFile.trans h.blockFile, h'.pcoinsdbview.trans h.pcoinsdbview,
    h'.cacheCoins.trans h.cacheCoins, h'.pindexTip.trans h.pindexTip,
    h'.pindexBest.trans h.pindexBest, h'.hashBestChain.trans h.hashBestChain,
    h'.nBestHeight.trans h.nBestHeight, h'.nBestChainWork.trans h.nBestChainWork,
    h'.mempool.trans h.mempool, h.tree.trans h'.tree, h'.next.trans h.next⟩

theorem SameFlags.refl (s : NodeState W) : SameFlags s s := ⟨rfl, fun _ => rfl⟩

theorem SameFlags.trans {a b c : NodeState W} (h : SameFlags a b) (h' : SameFlags b c) :
    SameFlags a c := ⟨h'.set.trans h.set, fun p => (h'.failed p).trans (h.failed p)⟩

theorem SameFlags.flagged {a b c : NodeState W} {p : BlockPtr} (h : SameFlags a b)
    (h' : Flagged p b c) : Flagged p a c := by
  refine ⟨h'.set.trans (by rw [h.set]), ?_, fun q hq => (h'.others q hq).trans (h.failed q)⟩
  have hmap := congrArg (Option.map fun _ => true) (h.failed p)
  rw [Option.map_map, Option.map_map] at hmap
  exact h'.failed.trans hmap

theorem SameChain.pcoinsTip {s s' : NodeState W} (h : SameChain s s') :
    s'.pcoinsTip = s.pcoinsTip := by
  have hdb : getBestBlockDB s'.pcoinsdbview s'.mapBlockIndex =
      getBestBlockDB s.pcoinsdbview s.mapBlockIndex := by
    simp only [getBestBlockDB, h.pcoinsdbview, h.tree.isSome]
  rw [NodeState.pcoinsTip, NodeState.pcoinsTip, hdb, h.pcoinsdbview, h.cacheCoins, h.pindexTip]

theorem invalidChainFound_same (s : NodeState W) (p : BlockPtr) :
    SameChain s (s.invalidChainFound p) ∧ SameFlags s (s.invalidChainFound p) := by
  rw [NodeState.invalidChainFound]
  split_ifs
  · exact ⟨⟨rfl, rfl, rfl, rfl, rfl, rfl, rfl, rfl, rfl, SameTree.refl _, rfl⟩, rfl, fun _ => rfl⟩
  · exact ⟨SameChain.refl s, SameFlags.refl s⟩

/-- The writes of a `ConnectBlock` call, whatever its outcome, do not touch the chain state. -/
theorem connected_same {cons : Consensus} {sync : WalletSync W} {s : NodeState W} {io : ConnectIO}
    {p : BlockPtr} {block : CBlock} {pindex : CBlockIndex} {view : CCoinsViewCache}
    {r : ConnectResult CCoinsViewCache} (hp : s.mapBlockIndex p = some pindex)
    (hr : connectBlock cons io s.mapBlockIndex block p pindex view false = r) :
    SameChain s (s.connected cons sync p block r) ∧
      SameFlags s (s.connected cons sync p block r) := by
  obtain ⟨m,level,haveUndo,hpindex⟩ := connectBlock_index hr
  -- the entry is overwritten by one that agrees with it in all that is read below
  have hmap {β : Type} (g : CBlockIndex → β) (hg : g r.pindex = g pindex) (q : BlockPtr) :
      ((s.connected cons sync p block r).mapBlockIndex q).map g = (s.mapBlockIndex q).map g := by
    apply modifyIndex_map
    intro pindex' hp'
    rw [hp] at hp'
    rw [← Option.some.inj hp']
    exact hg
  have hfixed : fixed r.pindex = fixed pindex := by rw [hpindex]; rfl
  have hnext : r.pindex.pnext = pindex.pnext := by rw [hpindex]
  have hfailed : isFailed r.pindex = isFailed pindex := by rw [hpindex]; rfl
  refine ⟨⟨rfl, rfl, rfl, rfl, rfl, rfl, rfl, rfl, rfl, hmap fixed hfixed, ?_⟩, rfl,
    hmap isFailed hfailed⟩
  exact nextOf_eq_of_map (hmap CBlockIndex.pnext hnext)

/-- The state after `InvalidBlockFound` on a block that is not on the main chain. -/
def markInvalid (s : NodeState W) (p : BlockPtr) (nBestInvalidWork : Uint256) : NodeState W :=
  { s with
    mapBlockIndex := modifyIndex s.mapBlockIndex p fun pindex =>
      { pindex with nStatus := { pindex.nStatus with failedValid := true } }
    setBlockIndexValid := s.setBlockIndexValid.filter (· ≠ p)
    nBestInvalidWork := nBestInvalidWork }

theorem markInvalid_same (s : NodeState W) (p : BlockPtr) (w : Uint256) :
    SameChain s (markInvalid s p w) ∧ Flagged p s (markInvalid s p w) := by
  refine ⟨⟨rfl, rfl, rfl, rfl, rfl, rfl, rfl, rfl, rfl, modifyIndex_map fixed fun _ _ => rfl,
    nextOf_eq_of_map (modifyIndex_map CBlockIndex.pnext fun _ _ => rfl)⟩, rfl, ?_, ?_⟩
  · change (modifyIndex s.mapBlockIndex p _ p).map isFailed = _
    rw [modifyIndex_self, Option.map_map]
    rfl
  · intro q hq
    change (modifyIndex s.mapBlockIndex p _ q).map isFailed = _
    rw [modifyIndex_ne hq]

theorem invalidChainFound_eq (s : NodeState W) (p : BlockPtr) :
    ∃ w, s.invalidChainFound p = { s with nBestInvalidWork := w } := by
  rw [NodeState.invalidChainFound]
  split_ifs
  · exact ⟨_, rfl⟩
  · exact ⟨s.nBestInvalidWork, rfl⟩

/-- A block that fails to connect and is not on the main chain does not restart chain
selection. -/
theorem connectFailed_eq {nested : NodeState W → ChainExit × NodeState W} {pindexNew p : BlockPtr}
    {e : ConnectError} {s : NodeState W} (hnext : nextOf s.mapBlockIndex p = none) :
    ∃ w, connectFailed nested pindexNew p e s =
      (.connect e, if e.isInvalid then markInvalid s p w else s) := by
  rw [connectFailed]
  by_cases he : e.isInvalid = true
  · obtain ⟨w1,hw1⟩ := invalidChainFound_eq s pindexNew
    rw [if_pos he, hw1, invalidBlockFound]
    dsimp only
    generalize hs : ({ s with
      mapBlockIndex := modifyIndex s.mapBlockIndex p fun pindex =>
        { pindex with nStatus := { pindex.nStatus with failedValid := true } }
      setBlockIndexValid := s.setBlockIndexValid.filter (· ≠ p)
      nBestInvalidWork := w1 } : NodeState W) = s1
    have hsame : SameChain s s1 := hs ▸ (markInvalid_same s p w1).1
    obtain ⟨w2,hw2⟩ := invalidChainFound_eq s1 p
    have hnone : ¬ (nextOf (s1.invalidChainFound p).mapBlockIndex p).isSome = true := by
      rw [hw2]
      change ¬ (nextOf s1.mapBlockIndex p).isSome = true
      rw [hsame.next, hnext]
      exact Bool.false_ne_true
    refine ⟨w2, ?_⟩
    rw [if_neg hnone, if_pos he, hw2, ← hs]
    rfl
  · refine ⟨0, ?_⟩
    rw [if_neg he, if_neg he]

theorem connectFailed_nested {nested nested' : NodeState W → ChainExit × NodeState W}
    {pindexNew p : BlockPtr} {e : ConnectError} {s : NodeState W}
    (hnext : nextOf s.mapBlockIndex p = none) :
    connectFailed nested pindexNew p e s = connectFailed nested' pindexNew p e s := by
  rw [connectFailed, connectFailed, invalidBlockFound, invalidBlockFound]
  generalize hs : ({ s.invalidChainFound pindexNew with
    mapBlockIndex := modifyIndex (s.invalidChainFound pindexNew).mapBlockIndex p fun pindex =>
      { pindex with nStatus := { pindex.nStatus with failedValid := true } }
    setBlockIndexValid := (s.invalidChainFound pindexNew).setBlockIndexValid.filter (· ≠ p) } :
    NodeState W) = s1
  have hsame : SameChain s s1 := by
    rw [← hs]
    exact (invalidChainFound_same s pindexNew).1.trans (markInvalid_same _ p _).1
  have hnone : ¬ (nextOf (s1.invalidChainFound p).mapBlockIndex p).isSome = true := by
    rw [(invalidChainFound_same s1 p).1.next, hsame.next, hnext]
    exact Bool.false_ne_true
  rw [if_neg hnone, if_neg hnone]

end Node

section Loops
variable {W : Type} {cons : Consensus} {sync : WalletSync W} {io : ChainIO}

/-- One turn of the loop over `vConnect`: the entry, the block that was read, the call. -/
structure ConnectStep (cons : Consensus) (io : ChainIO) (s : NodeState W) (p : BlockPtr)
    (view : CCoinsViewCache) (pindex : CBlockIndex) (block : CBlock)
    (r : ConnectResult CCoinsViewCache) : Prop where
  entry : s.mapBlockIndex p = some pindex
  read : s.readBlock cons io p pindex = some block
  result : connectBlock cons (io.connect p) s.mapBlockIndex block p pindex view false = r

/-- The invariant rule of the loop over `vConnect`: `I` holds of the block reached, the node, the
view and the transactions to delete; `J` of the node after a failure. -/
theorem connectLoop_rule {parent : BlockPtr → Option BlockPtr}
    {nested : NodeState W → ChainExit × NodeState W} {pindexNew : BlockPtr}
    {I : BlockPtr → NodeState W → CCoinsViewCache → List CTransaction → Prop}
    {J : ChainExit → NodeState W → Prop} {ps : List BlockPtr}
    (hentry : ∀ f s view vDelete p, p ∈ ps → I f s view vDelete →
      (s.mapBlockIndex p).isSome ∧ nextOf s.mapBlockIndex p = none)
    (hread : ∀ f s view vDelete, I f s view vDelete → J .readBlock s)
    (hfail : ∀ f s view vDelete p pindex block r e w, p ∈ ps → parent p = some f →
      I f s view vDelete → ConnectStep cons io s p view pindex block r → r.error = some e →
      J (.connect e) (if e.isInvalid then markInvalid (s.connected cons sync p block r) p w
        else s.connected cons sync p block r))
    (hstep : ∀ f s view vDelete p pindex block r, p ∈ ps → parent p = some f →
      I f s view vDelete → ConnectStep cons io s p view pindex block r → r.error = none →
      I p (s.connected cons sync p block r) r.view (vDelete ++ block.vtx))
    {f : BlockPtr} (hdown : Down parent f ps pindexNew) {s : NodeState W} {view : CCoinsViewCache}
    {vDelete : List CTransaction} (hI : I f s view vDelete) {c : ConnectLoop W}
    (hc : connectLoop cons sync nested io pindexNew ps s view vDelete = c) :
    (c.exit = .ok ∧ I pindexNew c.node c.view c.vDelete) ∨
      ((c.exit = .readBlock ∨ ∃ e, c.exit = .connect e) ∧ J c.exit c.node) := by
  induction hdown generalizing s view vDelete with
  | nil a =>
    rw [connectLoop] at hc
    rw [← hc]
    exact Or.inl ⟨rfl, hI⟩
  | @cons f p pindexNew ps hparent hrest ih =>
    obtain ⟨hsome,hnext⟩ := hentry f s view vDelete p List.mem_cons_self hI
    obtain ⟨pindex,hp⟩ := Option.isSome_iff_exists.mp hsome
    rw [connectLoop, hp] at hc
    dsimp only at hc
    split at hc
    · -- the block could not be read
      rw [← hc]
      exact Or.inr ⟨Or.inl rfl, hread f s view vDelete hI⟩
    rename_i block hblock
    generalize hr : connectBlock cons (io.connect p) s.mapBlockIndex block p pindex view false = r
      at hc
    have hturn : ConnectStep cons io s p view pindex block r := ⟨hp, hblock, hr⟩
    split at hc
    · -- it did not connect
      rename_i e he
      have hnext' : nextOf (s.connected cons sync p block r).mapBlockIndex p = none := by
        rw [(connected_same hp hr).1.next]
        exact hnext
      obtain ⟨w,hw⟩ : ∃ w, connectFailed nested pindexNew p e (s.connected cons sync p block r) =
        (.connect e, _) := connectFailed_eq hnext'
      rw [hw] at hc
      rw [← hc]
      exact Or.inr ⟨Or.inr ⟨e, rfl⟩,
        hfail f s view vDelete p pindex block r e w List.mem_cons_self hparent hI hturn he⟩
    · rename_i he
      refine ih ?_ ?_ ?_ ?_ hc
      · intro f s view vDelete q hq
        exact hentry f s view vDelete q (List.mem_cons_of_mem _ hq)
      · intro f s view vDelete q pindex block r e w hq
        exact hfail f s view vDelete q pindex block r e w (List.mem_cons_of_mem _ hq)
      · intro f s view vDelete q pindex block r hq
        exact hstep f s view vDelete q pindex block r (List.mem_cons_of_mem _ hq)
      · exact hstep f s view vDelete p pindex block r List.mem_cons_self hparent hI hturn he

/-- The loop does not depend on the call it could nest if no block to connect is on the main
chain. -/
theorem connectLoop_nested {nested nested' : NodeState W → ChainExit × NodeState W}
    {pindexNew : BlockPtr} {ps : List BlockPtr} {s : NodeState W}
    (hps : ∀ p ∈ ps, nextOf s.mapBlockIndex p = none) (view : CCoinsViewCache)
    (vDelete : List CTransaction) :
    connectLoop cons sync nested io pindexNew ps s view vDelete =
      connectLoop cons sync nested' io pindexNew ps s view vDelete := by
  induction ps generalizing s view vDelete with
  | nil => rfl
  | cons p ps ih =>
    rw [connectLoop, connectLoop]
    cases hp : s.mapBlockIndex p with
    | none => rfl
    | some pindex =>
      cases hread : s.readBlock cons io p pindex with
      | none => simp only [hread]
      | some block =>
        simp only [hread]
        generalize hr : connectBlock cons (io.connect p) s.mapBlockIndex block p pindex view false =
          r
        have hsame := (@connected_same W cons sync s _ p block pindex view r hp hr).1
        have hnext : nextOf (s.connected cons sync p block r).mapBlockIndex p = none := by
          rw [hsame.next]
          exact hps p List.mem_cons_self
        cases r.error with
        | some e => simp only [@connectFailed_nested W nested nested' pindexNew p e _ hnext]
        | none =>
          apply ih
          intro q hq
          rw [hsame.next]
          exact hps q (List.mem_cons_of_mem _ hq)

/-- The transactions a disconnected block leaves to resurrect. -/
def resurrectQueue (cons : Consensus) (pindex : CBlockIndex) (block : CBlock) : List CTransaction :=
  if pindex.nHeight > cons.nTotalBlocksEstimate then
    block.vtx.filter fun tx => !tx.isCoinBase else []

/-- What a disconnected block leaves to resurrect. -/
def queueOf (cons : Consensus) (s : NodeState W) (p : BlockPtr) : List CTransaction :=
  ((s.mapBlockIndex p).bind fun pindex => (s.blockFile p).map (resurrectQueue cons pindex)).getD []

theorem resurrectQueue_mem {pindex : CBlockIndex} {block : CBlock} {tx : CTransaction}
    (h : tx ∈ resurrectQueue cons pindex block) : tx ∈ block.vtx := by
  rw [resurrectQueue] at h
  split_ifs at h
  · exact (List.mem_filter.mp h).1
  · cases h

theorem queueOf_mem {s : NodeState W} {p : BlockPtr} {tx : CTransaction} (h : tx ∈ queueOf cons s p) :
    ∃ block, s.blockFile p = some block ∧ tx ∈ block.vtx := by
  rw [queueOf] at h
  cases hp : s.mapBlockIndex p with
  | none =>
    rw [hp] at h
    cases h
  | some pindex =>
    cases hfile : s.blockFile p with
    | none =>
      rw [hp, Option.bind_some, hfile] at h
      cases h
    | some block =>
      rw [hp, Option.bind_some, hfile] at h
      exact ⟨block, rfl, resurrectQueue_mem h⟩

/-- One turn of the loop over `vDisconnect` that goes on. -/
structure DisconnectStep (cons : Consensus) (io : ChainIO) (s : NodeState W) (p : BlockPtr)
    (view : CCoinsViewCache) (pindex : CBlockIndex) (block : CBlock)
    (r : DisconnectResult CCoinsViewCache) : Prop where
  entry : s.mapBlockIndex p = some pindex
  read : s.readBlock cons io p pindex = some block
  result : disconnectBlock cons block p pindex (s.readUndo io p) view = r
  ok : r.error = none
  clean : r.fClean = true

/-- The invariant rule of the loop over `vDisconnect`, which changes nothing but its view. -/
theorem disconnectLoop_rule {s : NodeState W}
    {I : BlockPtr → CCoinsViewCache → List CTransaction → Prop} {ps : List BlockPtr}
    {b f : BlockPtr} (hpath : Path (parentOf s.mapBlockIndex) b ps f)
    (hstep : ∀ p q view vResurrect pindex block r, p ∈ ps → parentOf s.mapBlockIndex p = some q →
      I p view vResurrect → DisconnectStep cons io s p view pindex block r →
      I q r.view (resurrectQueue cons pindex block ++ vResurrect))
    {view : CCoinsViewCache} {vResurrect : List CTransaction} (hI : I b view vResurrect)
    {res : Except ChainExit (CCoinsViewCache × List CTransaction)}
    (hres : disconnectLoop cons io s ps view vResurrect = res) :
    (∃ view' vResurrect', res = .ok (view',vResurrect') ∧ I f view' vResurrect') ∨
      res = .error .readBlock ∨ res = .error .disconnect := by
  induction hpath generalizing view vResurrect with
  | nil a =>
    rw [disconnectLoop] at hres
    exact Or.inl ⟨view, vResurrect, hres.symm, hI⟩
  | @cons p q f ps hparent hrest ih =>
    obtain ⟨pindex,hp,-⟩ := Option.bind_eq_some_iff.mp hparent
    rw [disconnectLoop, hp] at hres
    dsimp only at hres
    split at hres
    · exact Or.inr (Or.inl hres.symm)
    rename_i block hblock
    generalize hr : disconnectBlock cons block p pindex (s.readUndo io p) view = r at hres
    split at hres
    · exact Or.inr (Or.inr hres.symm)
    rename_i hok
    rw [Bool.or_eq_true, not_or, Bool.not_eq_true, Bool.not_eq_true, Option.isSome_eq_false_iff,
      Option.isNone_iff_eq_none, Bool.not_eq_false'] at hok
    refine ih ?_ (hstep p q view vResurrect pindex block r List.mem_cons_self hparent hI
      ⟨hp, hblock, hr, hok.1, hok.2⟩) hres
    intro p' q' view' vResurrect' pindex' block' r' hp'
    exact hstep p' q' view' vResurrect' pindex' block' r' (List.mem_cons_of_mem _ hp')

/-- The loop over the disconnected blocks collects what they leave to resurrect. -/
theorem disconnectLoop_queue {s : NodeState W} {b f : BlockPtr} {ps : List BlockPtr}
    (hpath : Path (parentOf s.mapBlockIndex) b ps f) {view view1 : CCoinsViewCache}
    {vResurrect : List CTransaction}
    (h : disconnectLoop cons io s ps view [] = .ok (view1,vResurrect)) :
    ∀ tx ∈ vResurrect, tx ∈ ps.flatMap (queueOf cons s) := by
  have hstep : ∀ p q view vResurrect pindex block r, p ∈ ps → parentOf s.mapBlockIndex p = some q →
      (∀ tx ∈ vResurrect, tx ∈ ps.flatMap (queueOf cons s)) →
      DisconnectStep cons io s p view pindex block r →
      ∀ tx ∈ resurrectQueue cons pindex block ++ vResurrect, tx ∈ ps.flatMap (queueOf cons s) := by
    intro p q view vResurrect pindex block r hp _ hI hstep tx hmem
    rcases List.mem_append.mp hmem with hmem | hmem
    · have hread := hstep.read
      rw [NodeState.readBlock] at hread
      split_ifs at hread
      obtain ⟨hfile,-⟩ := Option.filter_eq_some_iff.mp hread
      rw [List.mem_flatMap]
      refine ⟨p, hp, ?_⟩
      rw [queueOf, hstep.entry, hfile]
      exact hmem
    · exact hI tx hmem
  rcases disconnectLoop_rule (I := fun _ _ vResurrect => ∀ tx ∈ vResurrect,
      tx ∈ ps.flatMap (queueOf cons s)) hpath hstep
      (fun _ hmem => absurd hmem List.not_mem_nil) h with ⟨_,_,heq,hI⟩ | heq | heq
  · obtain ⟨-,rfl⟩ := Prod.mk.inj (Except.ok.inj heq)
    exact hI
  · cases heq
  · cases heq

end Loops

section Links
variable {m : BlockPtr → Option CBlockIndex} {root : BlockPtr}

/-- The entries of the index form a tree. -/
abbrev TreeOk (root : BlockPtr) (m : BlockPtr → Option CBlockIndex) : Prop :=
  IsTree (parentOf m) (heightOf m) (fun p => (m p).isSome = true) root

/-- `pnext` leads from the root to `best` and nowhere else. -/
def NextFor (m : BlockPtr → Option CBlockIndex) (best : BlockPtr) : Prop :=
  ∀ p q, nextOf m p = some q ↔ parentOf m q = some p ∧ Anc (parentOf m) best q

theorem SameTree.treeOk {m' : BlockPtr → Option CBlockIndex} (h : SameTree m m')
    (ht : TreeOk root m) : TreeOk root m' := by
  rw [TreeOk, h.parentOf, h.heightOf]
  have hmem : (fun p => (m' p).isSome = true) = fun p => (m p).isSome = true := by
    ext p
    rw [h.isSome]
  rw [hmem]
  exact ht

theorem setNext_same (p : BlockPtr) (next : Option BlockPtr) :
    SameTree m (modifyIndex m p fun pindex => { pindex with pnext := next }) :=
  modifyIndex_map fixed fun _ _ => rfl

theorem nextOf_setNext {p : BlockPtr} (hp : (m p).isSome = true) (next : Option BlockPtr)
    (x : BlockPtr) : nextOf (modifyIndex m p fun pindex => { pindex with pnext := next }) x =
      if x = p then next else nextOf m x := by
  rw [nextOf, nextOf]
  by_cases hx : x = p
  · obtain ⟨pindex,hp⟩ := Option.isSome_iff_exists.mp hp
    rw [if_pos hx, hx, modifyIndex_self, hp]
    rfl
  · rw [if_neg hx, modifyIndex_ne hx]

/-- Clearing the link to the tip leaves the chain that ends in its parent. -/
theorem NextFor.clear (ht : TreeOk root m) {b q : BlockPtr} (hb : (m b).isSome = true)
    (hparent : parentOf m b = some q) (h : NextFor m b) :
    NextFor (modifyIndex m q fun pindex => { pindex with pnext := none }) q := by
  have hsame := setNext_same (m := m) q none
  obtain ⟨hq,-⟩ := ht.of_parent hb hparent
  intro p x
  rw [nextOf_setNext hq, hsame.parentOf]
  by_cases hpq : p = q
  · rw [if_pos hpq]
    constructor
    · intro hnone
      cases hnone
    · rintro ⟨hx,hanc⟩
      -- a child of `q` is not above `q`
      have hmem := ht.anc_mem hq hanc
      have hle := ht.anc_height hq hanc
      have hheight := (ht.of_parent hmem hx).2
      rw [hpq] at hheight
      omega
  · rw [if_neg hpq, h p x]
    constructor
    · rintro ⟨hx,hanc⟩
      refine ⟨hx, ?_⟩
      rcases hanc.cases with heq | ⟨q',hq',hrest⟩
      · rw [← heq, hparent] at hx
        exact absurd (Option.some.inj hx).symm hpq
      · obtain rfl := Option.some.inj (hparent.symm.trans hq')
        exact hrest
    · rintro ⟨hx,hanc⟩
      exact ⟨hx, Anc.of_parent hparent hanc⟩

/-- Setting the link to a new block leaves the chain that ends in it. -/
theorem NextFor.set (ht : TreeOk root m) {f p : BlockPtr} (hp : (m p).isSome = true)
    (hparent : parentOf m p = some f) (h : NextFor m f) :
    NextFor (modifyIndex m f fun pindex => { pindex with pnext := some p }) p := by
  have hsame := setNext_same (m := m) f (some p)
  obtain ⟨hf,-⟩ := ht.of_parent hp hparent
  intro x q
  rw [nextOf_setNext hf, hsame.parentOf]
  by_cases hxf : x = f
  · rw [if_pos hxf, hxf]
    constructor
    · intro hq
      obtain rfl := Option.some.inj hq
      exact ⟨hparent, Anc.refl p⟩
    · rintro ⟨hq,hanc⟩
      rcases hanc.cases with heq | ⟨f',hf',hrest⟩
      · rw [heq]
      · obtain rfl := Option.some.inj (hparent.symm.trans hf')
        have hle := ht.anc_height hf hrest
        have hheight := (ht.of_parent (ht.anc_mem hf hrest) hq).2
        omega
  · rw [if_neg hxf, h x q]
    constructor
    · rintro ⟨hq,hanc⟩
      exact ⟨hq, Anc.of_parent hparent hanc⟩
    · rintro ⟨hq,hanc⟩
      refine ⟨hq, ?_⟩
      rcases hanc.cases with heq | ⟨f',hf',hrest⟩
      · rw [← heq, hparent] at hq
        exact absurd (Option.some.inj hq).symm hxf
      · obtain rfl := Option.some.inj (hparent.symm.trans hf')
        exact hrest

/-- `relink` changes `pnext` alone. -/
theorem relink_map {β : Type} (g : CBlockIndex → β)
    (hg : ∀ pindex next, g { pindex with pnext := next } = g pindex)
    (vDisconnect vConnect : List BlockPtr) (p : BlockPtr) :
    (NodeState.relink m vDisconnect vConnect p).map g = (m p).map g := by
  -- each turn of a loop over entries keeps what `g` reads
  have hloop (f : (BlockPtr → Option CBlockIndex) → BlockPtr → BlockPtr → Option CBlockIndex)
      (hf : ∀ m p q, (f m p q).map g = (m q).map g) (ps : List BlockPtr)
      (m : BlockPtr → Option CBlockIndex) : (ps.foldl f m p).map g = (m p).map g := by
    induction ps generalizing m with
    | nil => rfl
    | cons q ps ih => exact (ih (f m q)).trans (hf m q p)
  rw [NodeState.relink]
  refine (hloop _ ?_ vConnect _).trans (hloop _ ?_ vDisconnect m)
  · intro m p q
    cases parentOf m p with
    | none => rfl
    | some pprev => exact modifyIndex_map g (fun pindex _ => hg pindex _) q
  · intro m p q
    cases parentOf m p with
    | none => rfl
    | some pprev => exact modifyIndex_map g (fun pindex _ => hg pindex _) q

theorem relink_same (vDisconnect vConnect : List BlockPtr) :
    SameTree m (NodeState.relink m vDisconnect vConnect) :=
  relink_map fixed (fun _ _ => rfl) vDisconnect vConnect

/-- The links after both loops are those of the chain that ends in the new block. -/
theorem relink_next {parent : BlockPtr → Option BlockPtr} {best f pindexNew : BlockPtr}
    {vDisconnect vConnect : List BlockPtr} (ht : TreeOk root m) (hparent : parentOf m = parent)
    (hpath : Path parent best vDisconnect f) (hdown : Down parent f vConnect pindexNew)
    (hbest : (m best).isSome = true) (hconnect : ∀ p ∈ vConnect, (m p).isSome = true)
    (h : NextFor m best) : NextFor (NodeState.relink m vDisconnect vConnect) pindexNew := by
  induction hpath generalizing m with
  | nil b =>
    -- nothing is left to disconnect
    induction hdown generalizing m with
    | nil a => exact h
    | @cons f p pindexNew vConnect hp hrest ih =>
      have hmem := hconnect p List.mem_cons_self
      have hp' : parentOf m p = some f := by rw [hparent]; exact hp
      have hsame := setNext_same (m := m) f (some p)
      have hgoal : NodeState.relink m [] (p :: vConnect) = NodeState.relink
          (modifyIndex m f fun pindex => { pindex with pnext := some p }) [] vConnect := by
        rw [NodeState.relink, NodeState.relink, List.foldl_cons]
        dsimp only [List.foldl_nil]
        rw [hp']
      rw [hgoal]
      apply ih (hsame.treeOk ht) (hsame.parentOf.trans hparent)
      · rw [hsame.isSome]
        exact hmem
      · intro q hq
        rw [hsame.isSome]
        exact hconnect q (List.mem_cons_of_mem _ hq)
      · exact NextFor.set ht hmem hp' h
  | @cons b q f vDisconnect hq hrest ih =>
    have hq' : parentOf m b = some q := by rw [hparent]; exact hq
    have hsame := setNext_same (m := m) q none
    have hgoal : NodeState.relink m (b :: vDisconnect) vConnect = NodeState.relink
        (modifyIndex m q fun pindex => { pindex with pnext := none }) vDisconnect vConnect := by
      rw [NodeState.relink, NodeState.relink, List.foldl_cons, hq']
    rw [hgoal]
    apply ih (hsame.treeOk ht) (hsame.parentOf.trans hparent) hdown
    · rw [hsame.isSome]
      exact (ht.of_parent hbest hq').1
    · intro p hp
      rw [hsame.isSome]
      exact hconnect p hp
    · exact NextFor.clear ht hbest hq' h

/-- A block of the branch to `pindexNew` that is not on the main chain. -/
structure OnBranch (m : BlockPtr → Option CBlockIndex) (best pindexNew p : BlockPtr) : Prop where
  mem : (m p).isSome = true
  off : ¬ Anc (parentOf m) best p
  below : Anc (parentOf m) pindexNew p

/-- Such a block has no successor on the main chain. -/
theorem OnBranch.nextOf_none {best pindexNew p : BlockPtr} (h : OnBranch m best pindexNew p)
    (hnext : NextFor m best) : nextOf m p = none := by
  rw [← Option.not_isSome_iff_eq_none]
  intro hsome
  obtain ⟨q,hq⟩ := Option.isSome_iff_exists.mp hsome
  obtain ⟨hparent,hanc⟩ := (hnext p q).mp hq
  exact h.off (hanc.trans (Anc.of_parent hparent (Anc.refl p)))

/-- The branches `SetBestChain` finds: the way down from the best block to the last common
block, and from there up to the new one. Nothing to connect is on the main chain. -/
theorem findBranches_spec (ht : TreeOk root m) {best pindexNew : BlockPtr}
    (hbest : (m best).isSome = true) (hnew : (m pindexNew).isSome = true) :
    ∃ f vDisconnect vConnect,
      findBranches m (some best) pindexNew = some (vDisconnect,vConnect) ∧
      Path (parentOf m) best vDisconnect f ∧ Down (parentOf m) f vConnect pindexNew ∧
      ∀ p ∈ vConnect, OnBranch m best pindexNew p := by
  obtain ⟨f,hfork,hbf,hnf,hmax⟩ := ht.findFork_spec hbest hnew (Nat.lt_succ_self _)
  obtain ⟨vDisconnect,hd,hpd⟩ := ht.pathTo_spec hbest hbf (Nat.lt_succ_self _)
  obtain ⟨up,hu,hpu⟩ := ht.pathTo_spec hnew hnf (Nat.lt_succ_self _)
  refine ⟨f, vDisconnect, up.reverse, ?_, hpd, hpu.reverse, ?_⟩
  · simp only [findBranches, hfork, hd, hu, Option.map_some, Option.bind_eq_bind,
      Option.bind_some, Option.getD_some, Option.pure_def]
  · intro p hp
    rw [List.mem_reverse] at hp
    have hanc := hpu.anc_of_mem hp
    refine ⟨ht.anc_mem hnew hanc, fun h => ?_, hanc⟩
    exact hpu.not_anc_of_mem ht hnew hp (hmax p h hanc)

end Links

end Candypool.Chain
