import Candypool.Chain.Replay

/-! The coins, the undo data and the money supply of the node against the replay of its main
chain. In a run whose database writes succeed and that brings neither of the two blocks exempted
from the overwrite rule, they agree after every call. -/
namespace Candypool.Chain
open Candypool.Prime Candypool.Core Candypool.Coins Candypool.Lib

/-- The undo data on the disk takes back the last block of the replay of a chain. -/
def UndoAt (cons : Consensus) (cf : ChainFile) (undoFile : BlockPtr → Option CBlockUndo)
    (p : BlockPtr) : Prop :=
  ∃ q block u u' blockundo blockundo', cf.parent p = some q ∧ Replays cons cf q u ∧
    cf.file p = some block ∧ BlockStep cons (cf.height p) block u u' blockundo ∧
    undoFile p = some blockundo' ∧ BlockUndoMatch blockundo blockundo'

/-- The entry of a block has the value of the coins as its money supply, and the block has added
no more than its subsidy if its coinbase had to pay the base fee. -/
structure SupplyAt (cons : Consensus) (cf : ChainFile) (m : BlockPtr → Option CBlockIndex)
    (p : BlockPtr) : Prop where
  value : ∃ pindex u, m p = some pindex ∧ Replays cons cf p u ∧ pindex.nMoneySupply = u.value
  mint : ∀ q, cf.parent p = some q → ∃ u u' pindex block, Replays cons cf q u ∧
    Replays cons cf p u' ∧ m p = some pindex ∧ cf.file p = some block ∧
    ((∀ coinbase ∈ block.vtx.head?, minTxFee ≤ coinbase.getMinFee cons.fees 1 false .block) →
      u'.value-u.value ≤ (targetGetMint cons.target pindex.nBits).2)

section Defs
variable {W : Type}

def UndoOk (cons : Consensus) (cf : ChainFile) (s : NodeState W) : Prop :=
  ∀ p pindex, s.mapBlockIndex p = some pindex → pindex.nStatus.haveUndo = true →
    UndoAt cons cf s.undoFile p

/-- The node agrees with the replay of the chain that ends in `best`. -/
structure LedgerAt (cons : Consensus) (s : NodeState W) (best : BlockPtr) : Prop where
  tip : TipAt cons s best
  exempt : ∀ p pindex, s.mapBlockIndex p = some pindex → bip30Exempt pindex = false
  coins : ∃ u, Replays cons s.chainFile best u ∧ u.Match (getCoins s.pcoinsTip)
  undo : UndoOk cons s.chainFile s
  supply : ∀ p, Anc (parentOf s.mapBlockIndex) best p →
    SupplyAt cons s.chainFile s.mapBlockIndex p

/-- What the ledger reads of an index entry. -/
def ledgerPart (pindex : CBlockIndex) : ℤ × BitVec 32 × Bool :=
  (pindex.nMoneySupply, pindex.nBits, pindex.nStatus.haveUndo)

end Defs

section Congr
variable {W : Type} {cons : Consensus} {cf : ChainFile} {s s' : NodeState W}
  {m m' : BlockPtr → Option CBlockIndex}

theorem UndoOk.congr (h : UndoOk cons cf s)
    (hmap : ∀ p, (s'.mapBlockIndex p).map ledgerPart = (s.mapBlockIndex p).map ledgerPart)
    (hundo : s'.undoFile = s.undoFile) : UndoOk cons cf s' := by
  intro p pindex hp hhave
  have heq := hmap p
  rw [hp] at heq
  obtain ⟨pindex',hp',hpart⟩ := Option.map_eq_some_iff.mp heq.symm
  have hhave' : pindex'.nStatus.haveUndo = true :=
    (Prod.mk.inj (Prod.mk.inj hpart).2).2.trans hhave
  rw [hundo]
  exact h p pindex' hp' hhave'

theorem SupplyAt.congr {p : BlockPtr} (h : SupplyAt cons cf m p)
    (hmap : (m' p).map ledgerPart = (m p).map ledgerPart) : SupplyAt cons cf m' p := by
  obtain ⟨pindex,u,hp,hu,hvalue⟩ := h.value
  rw [hp] at hmap
  obtain ⟨pindex',hp',hpart⟩ := Option.map_eq_some_iff.mp hmap
  obtain ⟨hsupply,hrest⟩ := Prod.mk.inj hpart
  constructor
  · exact ⟨pindex', u, hp', hu, hsupply.trans hvalue⟩
  · intro q hq
    obtain ⟨u0,u1,pindex1,block,hu0,hu1,hp1,hfile,hmint⟩ := h.mint q hq
    obtain rfl := Option.some.inj (hp.symm.trans hp1)
    rw [← (Prod.mk.inj hrest).1] at hmint
    exact ⟨u0, u1, pindex', block, hu0, hu1, hp', hfile, hmint⟩

theorem SameChain.chainFile (h : SameChain s s') : s'.chainFile = s.chainFile := by
  rw [NodeState.chainFile, NodeState.chainFile, h.tree.parentOf, h.tree.heightOf, h.blockFile]

end Congr

section Step
variable {W : Type} {cons : Consensus} {sync : WalletSync W} {io : ChainIO} {cf : ChainFile}
  {s : NodeState W} {p f : BlockPtr} {view : CCoinsViewCache} {pindex : CBlockIndex}
  {block : CBlock} {u : Utxo}

/-- A block found valid on a view that holds the coins of a replay is one step of the replay. -/
theorem BlockValid.step {pprev : CBlockIndex} {loop : BlockLoop CCoinsViewCache}
    (h : BlockValid cons s.mapBlockIndex block pindex view pprev loop)
    (hpos : 0 < pindex.nHeight) (hexempt : bip30Exempt pindex = false)
    (hm : u.Match (getCoins view)) :
    ∃ u' blockundo, BlockStep cons pindex.nHeight block u u' blockundo ∧
      u'.Match (getCoins loop.view) ∧ BlockUndoMatch blockundo ⟨loop.vtxundo⟩ ∧
      u'.value = u.value+loop.nValueOut-loop.nValueIn := by
  obtain ⟨u',blockundo,hupdate,hm',hundo⟩ := updateBlock_match (u := u) hm h.update
  refine ⟨u', blockundo, ⟨hpos, h.checked, ?_, hupdate⟩, hm', hundo, ?_⟩
  · intro tx htx
    exact (hm _).none_iff.mpr (h.fresh hexempt tx htx)
  · have hvalue := h.value hpos hexempt
    rw [← hm.value_eq, ← Utxo.Match.value_eq hm'] at hvalue
    exact hvalue

/-- The outcome of one turn of the connecting loop for a block above the genesis block: it left
no undo data and changed only the supply of its entry, or it is a step of the replay and left the
undo data and the supply of that step. -/
theorem ConnectStep.ledger {r : ConnectResult CCoinsViewCache}
    (h : ConnectStep cons io s p view pindex block r) (hhash : pindex.phashBlock = some p)
    (hroot : p ≠ cons.hashGenesisBlock) (hpos : 0 < pindex.nHeight)
    (hexempt : bip30Exempt pindex = false) (hm : u.Match (getCoins view)) :
    (r.error ≠ none ∧ r.undoWritten = none ∧
      r.pindex.nStatus.haveUndo = pindex.nStatus.haveUndo) ∨
    ∃ u' blockundo pprev, BlockStep cons pindex.nHeight block u u' blockundo ∧
      pindex.pprev.bind s.mapBlockIndex = some pprev ∧
      r.pindex.nMoneySupply = pprev.nMoneySupply+(u'.value-u.value) ∧
      ((∀ coinbase ∈ block.vtx.head?, minTxFee ≤ coinbase.getMinFee cons.fees 1 false .block) →
        u'.value-u.value ≤ (targetGetMint cons.target pindex.nBits).2) ∧
      (r.error = none → u'.Match (getCoins r.view)) ∧
      (r.undoWritten = none ∧ r.pindex.nStatus.haveUndo = pindex.nStatus.haveUndo ∨
        ∃ written, r.undoWritten = some written ∧ BlockUndoMatch blockundo written) := by
  -- refused, the genesis block, or recorded after every check
  rcases connectBlock_cases h.result with ⟨herr,hnone,-,m,hpindex⟩ | ⟨hgenesis,-⟩ |
    ⟨pprev,loop,hvalid,hrecord⟩
  · exact Or.inl ⟨herr, hnone, by rw [hpindex]⟩
  · exact absurd ((h.getHash hhash).symm.trans hgenesis) hroot
  · right
    obtain ⟨u',blockundo,hstep,hm',hundo,hvalue⟩ := BlockValid.step hvalid hpos hexempt hm
    obtain ⟨-,hdone,level,haveUndo,hpindex,hwritten⟩ := recordBlock_effect hrecord.symm
    refine ⟨u', blockundo, pprev, hstep, hvalid.prev, ?_, ?_, ?_, ?_⟩
    · rw [hpindex]
      change pprev.nMoneySupply+loop.nValueOut-loop.nValueIn = _
      rw [hvalue]
      ring
    · intro hfee
      have hmint := hvalid.mint hfee
      omega
    · intro hok
      rw [(hdone hok).1, getCoins_setBestBlock]
      exact hm'
    · rcases hwritten with ⟨hnone,hhave⟩ | ⟨-,hwritten,-⟩
      · refine Or.inl ⟨hnone, ?_⟩
        rw [hpindex]
        exact hhave
      · exact Or.inr ⟨_, hwritten, hundo⟩

/-- The undo data after a turn of the loop, whatever its outcome. -/
theorem UndoOk.connected {r : ConnectResult CCoinsViewCache} (hundo : UndoOk cons cf s)
    (h : ConnectStep cons io s p view pindex block r) (hhash : pindex.phashBlock = some p)
    (hroot : p ≠ cons.hashGenesisBlock) (hheight : cf.height p = pindex.nHeight)
    (hpos : 0 < pindex.nHeight) (hexempt : bip30Exempt pindex = false)
    (hparent : cf.parent p = some f) (hfile : cf.file p = some block)
    (hu : Replays cons cf f u) (hm : u.Match (getCoins view)) :
    UndoOk cons cf (s.connected cons sync p block r) := by
  intro q qindex hq hhave
  by_cases hqp : q = p
  · rw [hqp] at hq ⊢
    change modifyIndex s.mapBlockIndex p _ p = _ at hq
    rw [modifyIndex_self, h.entry] at hq
    obtain rfl := Option.some.inj hq
    -- undo data that was there before stays
    have hold (hnone : r.undoWritten = none)
        (hsame : r.pindex.nStatus.haveUndo = pindex.nStatus.haveUndo) :
        UndoAt cons cf (s.connected cons sync p block r).undoFile p := by
      rw [NodeState.connected, hnone]
      exact hundo p pindex h.entry (hsame.symm.trans hhave)
    rcases h.ledger hhash hroot hpos hexempt hm with ⟨-,hnone,hsame⟩ |
      ⟨u',blockundo,pprev,hstep,-,-,-,-,hwritten⟩
    · exact hold hnone hsame
    · rcases hwritten with ⟨hnone,hsame⟩ | ⟨written,hwritten,hmatch⟩
      · exact hold hnone hsame
      · refine ⟨f, block, u, u', blockundo, storeUndo written, hparent, hu, hfile,
          hheight ▸ hstep, ?_, storeUndo_match hmatch (hstep.keeps hu.wf).2⟩
        rw [NodeState.connected, hwritten]
        exact Function.update_self _ _ _
  · change modifyIndex s.mapBlockIndex p _ q = _ at hq
    rw [modifyIndex_ne hqp] at hq
    have hfileq : (s.connected cons sync p block r).undoFile q = s.undoFile q := by
      rw [NodeState.connected]
      cases r.undoWritten with
      | none => rfl
      | some written => exact Function.update_of_ne hqp _ _
    obtain ⟨q',block',v,v',undo,undo',h1,h2,h3,h4,h5,h6⟩ := hundo q qindex hq hhave
    exact ⟨q', block', v, v', undo, undo', h1, h2, h3, h4, hfileq.trans h5, h6⟩

end Step

section Loop
variable {W : Type} {cons : Consensus} {sync : WalletSync W} {io : ChainIO}
  {nested : NodeState W → ChainExit × NodeState W} {pindexNew best : BlockPtr}
  {s s' : NodeState W}

/-- The ledger in the middle of a call that has come to block `f`: the view holds the coins of
the chain that ends there, the entries of that chain and of the main chain have their supply,
and the blocks connected so far are queued for deletion from the pool. -/
structure LedgerView (cons : Consensus) (s : NodeState W) (best f : BlockPtr) (s' : NodeState W)
    (view : CCoinsViewCache) (vDelete : List CTransaction) : Prop where
  reached : ViewAt s f s' view
  coins : ∃ u, Replays cons s.chainFile f u ∧ u.Match (getCoins view)
  undo : UndoOk cons s.chainFile s'
  supply : ∀ p, Anc (parentOf s.mapBlockIndex) best p ∨ Anc (parentOf s.mapBlockIndex) f p →
    SupplyAt cons s.chainFile s'.mapBlockIndex p
  queued : ∀ p block, Anc (parentOf s.mapBlockIndex) f p →
    ¬ Anc (parentOf s.mapBlockIndex) best p → s.blockFile p = some block →
    ∀ tx ∈ block.vtx, tx ∈ vDelete

theorem connected_entry_ne {p q : BlockPtr} {block : CBlock} {r : ConnectResult CCoinsViewCache}
    (h : q ≠ p) : (s'.connected cons sync p block r).mapBlockIndex q = s'.mapBlockIndex q :=
  modifyIndex_ne h

/-- A block that connects takes the ledger one block further. -/
theorem LedgerView.connected {f p : BlockPtr} {view : CCoinsViewCache}
    {vDelete : List CTransaction} {pindex : CBlockIndex} {block : CBlock}
    {r : ConnectResult CCoinsViewCache} (hl : LedgerAt cons s best)
    (h : LedgerView cons s best f s' view vDelete) (hp : OnBranch s.mapBlockIndex best pindexNew p)
    (hparent : parentOf s.mapBlockIndex p = some f)
    (hstep : ConnectStep cons io s' p view pindex block r) (hok : r.error = none) :
    LedgerView cons s best p (s'.connected cons sync p block r) r.view
      (vDelete ++ block.vtx) := by
  obtain ⟨hhash,hroot,hheight,hpos,hexempt,hprev,hfile⟩ := hstep.facts hl.tip hl.exempt h.reached.1 hp.mem hparent
  obtain ⟨u,hu,hm⟩ := h.coins
  have htree := hl.tip.tree
  rcases hstep.ledger hhash hroot hpos hexempt hm with ⟨herr,-⟩ |
    ⟨u',blockundo,pprev,hblock,hpprev,hsupply,hmint,hview,-⟩
  · exact absurd hok herr
  have hreplay : Replays cons s.chainFile p u' :=
    Replays.block hparent hu hfile (hheight.symm ▸ hblock)
  have hroot' : s.chainFile.parent cons.hashGenesisBlock = none := htree.root_parent
  refine ⟨h.reached.connected hstep hok, ⟨u', hreplay, hview hok⟩,
    h.undo.connected hstep hhash hroot hheight hpos hexempt hparent hfile hu hm, ?_, ?_⟩
  · intro q hq
    by_cases hqp : q = p
    · rw [hqp]
      have hentry : (s'.connected cons sync p block r).mapBlockIndex p = some r.pindex := by
        change modifyIndex s'.mapBlockIndex p _ p = _
        rw [modifyIndex_self, hstep.entry]
        rfl
      have hbits : r.pindex.nBits = pindex.nBits := by
        obtain ⟨_,_,_,hpindex⟩ := connectBlock_index hstep.result
        rw [hpindex]
      constructor
      · -- the parent has its supply, and the block adds the change of the value
        obtain ⟨findex,v,hf,hv,hvalue⟩ := (h.supply f (Or.inr (Anc.refl f))).value
        obtain rfl := hv.unique hroot' hu
        rw [hprev, Option.bind_some, hf] at hpprev
        obtain rfl := Option.some.inj hpprev
        exact ⟨r.pindex, u', hentry, hreplay, by rw [hsupply, hvalue]; ring⟩
      · intro q0 hq0
        obtain rfl := Option.some.inj (hparent.symm.trans hq0)
        rw [← hbits] at hmint
        exact ⟨u, u', r.pindex, block, hu, hreplay, hentry, hfile, hmint⟩
    · have hq' : Anc (parentOf s.mapBlockIndex) best q ∨ Anc (parentOf s.mapBlockIndex) f q := by
        rcases hq with hq | hq
        · exact Or.inl hq
        · rcases hq.cases with heq | ⟨f',hf',hrest⟩
          · exact absurd heq.symm hqp
          · obtain rfl := Option.some.inj (hparent.symm.trans hf')
            exact Or.inr hrest
      apply (h.supply q hq').congr
      rw [connected_entry_ne hqp]
  · intro q qblock hq hoff hqfile tx htx
    rw [List.mem_append]
    rcases hq.cases with heq | ⟨f',hf',hrest⟩
    · rw [← heq, hfile] at hqfile
      obtain rfl := Option.some.inj hqfile
      exact Or.inr htx
    · obtain rfl := Option.some.inj (hparent.symm.trans hf')
      exact Or.inl (h.queued q qblock hrest hoff hqfile tx htx)

/-- What a failed call leaves of the ledger. -/
def LedgerKept (cons : Consensus) (s : NodeState W) (best : BlockPtr) (s' : NodeState W) : Prop :=
  UndoOk cons s.chainFile s' ∧ ∀ p, Anc (parentOf s.mapBlockIndex) best p →
    SupplyAt cons s.chainFile s'.mapBlockIndex p

theorem LedgerView.failed {f p : BlockPtr} {view : CCoinsViewCache} {vDelete : List CTransaction}
    {pindex : CBlockIndex} {block : CBlock} {r : ConnectResult CCoinsViewCache} {e : ConnectError}
    (w : Uint256) (hl : LedgerAt cons s best) (h : LedgerView cons s best f s' view vDelete)
    (hp : OnBranch s.mapBlockIndex best pindexNew p)
    (hparent : parentOf s.mapBlockIndex p = some f)
    (hstep : ConnectStep cons io s' p view pindex block r) :
    LedgerKept cons s best (if e.isInvalid then
      markInvalid (s'.connected cons sync p block r) p w else s'.connected cons sync p block r) := by
  obtain ⟨hhash,hroot,hheight,hpos,hexempt,hprev,hfile⟩ := hstep.facts hl.tip hl.exempt h.reached.1 hp.mem hparent
  obtain ⟨u,hu,hm⟩ := h.coins
  have hkept : LedgerKept cons s best (s'.connected cons sync p block r) := by
    refine ⟨h.undo.connected hstep hhash hroot hheight hpos hexempt hparent hfile hu hm, ?_⟩
    intro q hq
    -- the entry that was written is not on the main chain
    have hqp : q ≠ p := by
      intro heq
      exact hp.off (heq ▸ hq)
    apply (h.supply q (Or.inl hq)).congr
    rw [connected_entry_ne hqp]
  by_cases he : e.isInvalid = true
  · rw [if_pos he]
    have hmap : ∀ q, ((markInvalid (s'.connected cons sync p block r) p w).mapBlockIndex q).map
        ledgerPart = ((s'.connected cons sync p block r).mapBlockIndex q).map ledgerPart :=
      modifyIndex_map ledgerPart fun _ _ => rfl
    exact ⟨hkept.1.congr hmap rfl, fun q hq => (hkept.2 q hq).congr (hmap q)⟩
  · rw [if_neg he]
    exact hkept

/-- Taking back a block whose undo data can be read: it takes the coins of the view back to those
of its parent. -/
theorem disconnectBlock_ledger {p q : BlockPtr} {view : CCoinsViewCache} {pindex : CBlockIndex}
    {block : CBlock} (hl : LedgerAt cons s best) (hparent : parentOf s.mapBlockIndex p = some q)
    (hcoins : ∃ u, Replays cons s.chainFile p u ∧ u.Match (getCoins view))
    (hentry : s.mapBlockIndex p = some pindex) (hread : s.readBlock cons io p pindex = some block)
    (hbest : getBestBlock view = some p) (hhave : pindex.nStatus.haveUndo = true)
    (hundo : io.readUndo p = true) :
    ∃ view', disconnectBlock cons block p pindex (s.readUndo io p) view = ⟨none, true, view'⟩ ∧
      ∃ u, Replays cons s.chainFile q u ∧ u.Match (getCoins view') := by
  obtain ⟨u',hu',hm⟩ := hcoins
  obtain ⟨q',block',u,u1,blockundo,blockundo',hq',hu,hfile,hblock,hdisk,hmatch⟩ :=
    hl.undo p pindex hentry hhave
  have hroot : s.chainFile.parent cons.hashGenesisBlock = none := hl.tip.tree.root_parent
  obtain rfl := Option.some.inj (hparent.symm.trans hq')
  obtain rfl := hu'.unique hroot (Replays.block hq' hu hfile hblock)
  rw [NodeState.readBlock] at hread
  split_ifs at hread
  obtain ⟨hread,-⟩ := Option.filter_eq_some_iff.mp hread
  obtain rfl : block' = block := Option.some.inj (hfile.symm.trans hread)
  have hheight : s.chainFile.height p = pindex.nHeight := by
    change heightOf s.mapBlockIndex p = _
    rw [heightOf, hentry]
    rfl
  rw [hheight] at hblock
  -- what is read from the undo file is what was stored there
  rw [NodeState.readUndo, if_pos hundo, hdisk]
  obtain ⟨view',hdisc,hback,-⟩ := disconnectBlock_updateBlock hblock.pos hblock.checked hu.wf
    hblock.fresh hblock.update hm hmatch hbest hhave
  exact ⟨view', hdisc, u, hu, hback⟩

theorem DisconnectStep.ledger {p q : BlockPtr} {view : CCoinsViewCache} {pindex : CBlockIndex}
    {block : CBlock} {r : DisconnectResult CCoinsViewCache} (hl : LedgerAt cons s best)
    (hparent : parentOf s.mapBlockIndex p = some q)
    (hcoins : ∃ u, Replays cons s.chainFile p u ∧ u.Match (getCoins view))
    (hstep : DisconnectStep cons io s p view pindex block r) :
    ∃ u, Replays cons s.chainFile q u ∧ u.Match (getCoins r.view) := by
  obtain ⟨hbest,hhave,undo,tx,vtx,hundo,-⟩ := disconnectBlock_ok hstep.result hstep.ok
  have hio : io.readUndo p = true := by
    rw [NodeState.readUndo] at hundo
    split_ifs at hundo with hio
    exact hio
  obtain ⟨view',hdisc,hback⟩ := disconnectBlock_ledger hl hparent hcoins hstep.entry hstep.read
    hbest hhave hio
  rw [hstep.result] at hdisc
  rw [hdisc]
  exact hback

/-- A call that stopped at a failed database write: the coins are those of the new block, and the
tip is where it was. -/
structure Torn (cons : Consensus) (s : NodeState W) (pindexNew : BlockPtr) (s' : NodeState W) :
    Prop where
  tree : SameTree s.mapBlockIndex s'.mapBlockIndex
  bestBlock : getBestBlock s'.pcoinsTip = some pindexNew
  pindexBest : s'.pindexBest = s.pindexBest
  supply : ∃ pindex, s'.mapBlockIndex pindexNew = some pindex ∧
    pindex.nMoneySupply = Utxo.value (getCoins s'.pcoinsTip)

/-- How `SetBestChain` ends, for the ledger: it follows the new block, or it is that of the old
one over an unchanged chain state, or a database write failed in between. -/
theorem setBestChain_ledger (hl : LedgerAt cons s best)
    (hnew : (s.mapBlockIndex pindexNew).isSome = true) {exit : ChainExit}
    (h : setBestChain cons sync nested io pindexNew s = (exit,s')) :
    (exit = .ok ∧ LedgerAt cons s' pindexNew ∧ SameTree s.mapBlockIndex s'.mapBlockIndex ∧
      ∀ p block, Anc (parentOf s.mapBlockIndex) pindexNew p →
        ¬ Anc (parentOf s.mapBlockIndex) best p → s.blockFile p = some block →
        ∀ tx ∈ block.vtx, s'.mempool.mapTx.lookup (cons.ext.txHash tx) = none) ∨
    (exit.Early ∧ SameChain s s' ∧ LedgerAt cons s' best) ∨
    (¬ io.Flushes ∧ (exit = .diskSpace ∨ exit = .flush) ∧ Torn cons s pindexNew s') := by
  have htip := hl.tip
  obtain ⟨u0,hu0,hm0⟩ := hl.coins
  -- a call that leaves the chain state alone leaves the ledger alone
  have hkept {s' : NodeState W} {exit : ChainExit} (hsame : SameChain s s')
      (hblamed : Blamed best pindexNew exit s s') (hk : LedgerKept cons s best s') :
      LedgerAt cons s' best := by
    refine ⟨htip.of_same hsame (hblamed.candidates htip.candidates), ?_, ?_, ?_, ?_⟩
    · exact hsame.tree.noneExempt hl.exempt
    · rw [hsame.chainFile, hsame.pcoinsTip]
      exact ⟨u0, hu0, hm0⟩
    · rw [hsame.chainFile]
      exact hk.1
    · rw [hsame.chainFile, hsame.tree.parentOf]
      exact hk.2
  have hrule := setBestChain_rule htip hnew
    (I := fun f view _ => (Temp s view ∧ getBestBlock view = some f) ∧
      ∃ u, Replays cons s.chainFile f u ∧ u.Match (getCoins view))
    (K := fun _ f s' view vDelete => LedgerView cons s best f s' view vDelete)
    (J := fun exit s' => (SameChain s s' ∧ Blamed best pindexNew exit s s') ∧
      LedgerKept cons s best s')
    ⟨⟨newView_temp htip.coins, (newView_best s).trans htip.coins⟩, u0, hu0, hm0⟩
    (fun p q view _ pindex block r _ hparent hI hstep =>
      ⟨disconnectStep_temp hparent hI.1.1 hstep, hstep.ledger hl hparent hI.2⟩)
    (fun f view _ hf hI => ⟨⟨SameChain.refl s, SameFlags.refl s, hI.1.1, hI.1.2⟩, hI.2, hl.undo,
      fun p hp => hl.supply p (hp.elim id hf.trans),
      fun p block hp hoff => absurd (hf.trans hp) hoff⟩)
    (fun _ f s' view _ hK => ⟨hK.reached.1.tree, hK.reached.1.next⟩)
    (fun _ f s' view _ hK => ⟨⟨hK.reached.1, Or.inl ⟨hK.reached.2.1, fun e he => by cases he⟩⟩, hK.undo,
      fun p hp => hK.supply p (Or.inl hp)⟩)
    (fun _ f s' view _ p pindex block r e w hp hparent hK hstep _ =>
      ⟨hK.reached.failed w hp hstep rfl, hK.failed w hl hp hparent hstep⟩)
    (fun _ f s' view _ p pindex block r hp hparent hK hstep hok =>
      hK.connected hl hp hparent hstep hok) h
  rcases hrule with ⟨hexit,rfl⟩ | ⟨hexit,⟨hsame,hblamed⟩,hk⟩ |
    ⟨f,vDisconnect,vConnect,vResurrect,c,hpath,hdown,hconnect,hK,hpush⟩
  · exact Or.inr (Or.inl ⟨ChainExit.early_of_disconnect hexit, SameChain.refl s', hl⟩)
  · exact Or.inr (Or.inl ⟨ChainExit.early_of_connect hexit, hsame, hkept hsame hblamed hk⟩)
  · obtain ⟨hsame,hflags,htemp,hbest⟩ := hK.reached
    by_cases hio : io.Flushes
    swap
    · -- the view went to the tip, and nothing else did
      obtain ⟨hexit,rfl⟩ := pushView_stops hio hpush
      obtain ⟨hcoins,hview⟩ := flushView_tip hsame htemp
      obtain ⟨u,hu,hm⟩ := hK.coins
      obtain ⟨pindex,v,hp,hv,hvalue⟩ := (hK.supply pindexNew (Or.inr (Anc.refl _))).value
      obtain rfl := hv.unique htip.tree.root_parent hu
      refine Or.inr (Or.inr ⟨hio, hexit, hsame.tree, hview.trans hbest, hsame.pindexBest, pindex,
        hp, ?_⟩)
      rw [hvalue, hcoins]
      exact hm.value_eq
    obtain ⟨rfl,htip',hpushed⟩ := pushView_spec htip hio hnew hpath hdown hconnect hsame
      (hflags.candidates htip.candidates) htemp hbest hpush
    have htree := hsame.tree.trans hpushed.tree
    have hmap := hpushed.kept ledgerPart fun _ _ => rfl
    have hcf : s'.chainFile = s.chainFile := by
      rw [NodeState.chainFile, NodeState.chainFile, htree.parentOf, htree.heightOf,
        hpushed.blockFile, hsame.blockFile]
    refine Or.inl ⟨rfl, ⟨htip', ?_, ?_, ?_, ?_⟩, htree, ?_⟩
    · exact htree.noneExempt hl.exempt
    · obtain ⟨u,hu,hm⟩ := hK.coins
      rw [hcf]
      exact ⟨u, hu, hpushed.coins u hm⟩
    · rw [hcf]
      exact hK.undo.congr hmap hpushed.undoFile
    · intro p hp
      rw [htree.parentOf] at hp
      rw [hcf]
      exact (hK.supply p (Or.inr hp)).congr (hmap p)
    · intro p block hp hoff hfile tx htx
      exact hpushed.deleted tx (hK.queued p block hp hoff hfile tx htx)

end Loop

section Steps
variable {W : Type} {cons : Consensus} {sync : WalletSync W} {fuel : ℕ} {s s' : NodeState W}
  {best : BlockPtr}

theorem LedgerAt.marked {l : List BlockPtr} (h : LedgerAt cons s best) (hm : Marked l s s') :
    LedgerAt cons s' best := by
  have hsame := hm.same
  have hmap := hm.kept ledgerPart fun pindex status hundo => by
    rw [ledgerPart, ledgerPart, hundo]
  obtain ⟨u,hu,hcoins⟩ := h.coins
  refine ⟨h.tip.marked hm, ?_, ?_, ?_, ?_⟩
  · exact hsame.tree.noneExempt h.exempt
  · rw [hsame.chainFile, hsame.pcoinsTip]
    exact ⟨u, hu, hcoins⟩
  · rw [hsame.chainFile]
    exact h.undo.congr hmap hm.undoFile
  · intro p hp
    rw [hsame.tree.parentOf] at hp
    rw [hsame.chainFile]
    exact (h.supply p hp).congr (hmap p)

theorem LedgerAt.of_pool {mempool : CTxMemPool} {wallet : W} (h : LedgerAt cons s best) :
    LedgerAt cons { s with mempool := mempool, wallet := wallet } best :=
  ⟨h.tip.of_pool, h.exempt, h.coins, h.undo, h.supply⟩

/-- A new leaf does not touch the ledger. -/
theorem LedgerAt.insert {block : CBlock} (h : LedgerAt cons s best)
    (hnew : s.mapBlockIndex (block.getHash cons.ext) = none)
    (hprev : (s.mapBlockIndex block.hashPrevBlock).isSome = true)
    (hexempt : bip30Exempt (newIndex cons s.mapBlockIndex block) = false) :
    LedgerAt cons (insertIndex cons s block) best := by
  have htip := insertIndex_tip h.tip hnew hprev
  have hsame : ∀ p, (s.mapBlockIndex p).isSome = true →
      (insertIndex cons s block).mapBlockIndex p = s.mapBlockIndex p := fun p hp =>
    insertIndex_ne (ne_of_isSome hnew hp)
  have hknown : ∀ p q, s.chainFile.parent p = some q → (s.mapBlockIndex p).isSome = true := by
    intro p q hq
    obtain ⟨pindex,hp,-⟩ := Option.bind_eq_some_iff.mp hq
    rw [hp]
    rfl
  -- every replay of the smaller tree is one of the larger
  have hparent : ∀ p q, s.chainFile.parent p = some q →
      (insertIndex cons s block).chainFile.parent p = some q ∧
        (insertIndex cons s block).chainFile.height p = s.chainFile.height p := by
    intro p q hq
    have heq := hsame p (hknown p q hq)
    change parentOf _ p = some q ∧ heightOf _ p = heightOf _ p
    rw [parentOf, heightOf, heq]
    exact ⟨hq, rfl⟩
  have hfile : ∀ p q b, s.chainFile.parent p = some q → s.chainFile.file p = some b →
      (insertIndex cons s block).chainFile.file p = some b := by
    intro p q b hq hb
    have hne := ne_of_isSome hnew (hknown p q hq)
    change Function.update s.blockFile _ _ p = some b
    rw [Function.update_of_ne hne]
    exact hb
  have hreplay : ∀ p u, Replays cons s.chainFile p u →
      Replays cons (insertIndex cons s block).chainFile p u := fun p u hu => hu.mono hparent hfile
  obtain ⟨u,hu,hcoins⟩ := h.coins
  refine ⟨htip, ?_, ⟨u, hreplay _ _ hu, hcoins⟩, ?_, ?_⟩
  · intro p pindex hp
    by_cases hself : p = block.getHash cons.ext
    · rw [hself, insertIndex_self] at hp
      rw [← Option.some.inj hp]
      exact hexempt
    · rw [insertIndex_ne hself] at hp
      exact h.exempt p pindex hp
  · intro p pindex hp hhave
    by_cases hself : p = block.getHash cons.ext
    · rw [hself, insertIndex_self] at hp
      rw [← Option.some.inj hp] at hhave
      cases hhave
    · rw [insertIndex_ne hself] at hp
      obtain ⟨q,b,v,v',undo,undo',h1,h2,h3,h4,h5,h6⟩ := h.undo p pindex hp hhave
      obtain ⟨hq,hheight⟩ := hparent p q h1
      exact ⟨q, b, v, v', undo, undo', hq, hreplay _ _ h2, hfile p q b h1 h3, hheight ▸ h4, h5, h6⟩
  · intro p hp
    have hanc : Anc (parentOf s.mapBlockIndex) best p := by
      refine (h.tip.tree.anc_congr (fun q hq => ?_) h.tip.mem).mp hp
      rw [parentOf, hsame q hq, parentOf]
    have hmem := h.tip.tree.anc_mem h.tip.mem hanc
    have hold := h.supply p hanc
    obtain ⟨pindex,v,hpindex,hv,hvalue⟩ := hold.value
    constructor
    · exact ⟨pindex, v, (hsame p hmem).trans hpindex, hreplay _ _ hv, hvalue⟩
    · intro q hq
      have hq' : s.chainFile.parent p = some q := by
        change parentOf _ p = some q at hq
        rw [parentOf, hsame p hmem] at hq
        exact hq
      obtain ⟨v0,v1,pindex1,b,hv0,hv1,hp1,hb,hmint⟩ := hold.mint q hq'
      exact ⟨v0, v1, pindex1, b, hreplay _ _ hv0, hreplay _ _ hv1, (hsame p hmem).trans hp1,
        hfile p q b hq' hb, hmint⟩

/-- The block of a step is not one of the two that may overwrite a transaction. -/
def Op.NotExempt (cons : Consensus) (s : NodeState W) : Op → Prop
  | .addToBlockIndex block _ => bip30Exempt (newIndex cons s.mapBlockIndex block) = false
  | _ => True

/-- A step keeps the ledger, and returns. -/
theorem Op.exec_ledger {op : Op} (hcalled : op.Called s) (hflush : op.Flushes)
    (hexempt : op.NotExempt cons s) (h : ∃ best, LedgerAt cons s best) :
    (∃ best, LedgerAt cons (op.exec cons sync fuel s).2 best) ∧
      Proper (op.exec cons sync fuel s).1 := by
  refine Op.exec_keeps (Q := fun s => ∃ best, LedgerAt cons s best)
    (fun s h => h.imp fun best hbest => hbest.tip) ?_ ?_ hcalled ?_ ?_ h
  · rintro s mempool wallet ⟨best,hbest⟩
    exact ⟨best, hbest.of_pool⟩
  · rintro l s s' ⟨best,hbest⟩ hmarked
    exact ⟨best, hbest.marked hmarked⟩
  · rintro block io rfl ⟨best,hbest⟩ hnew
    exact ⟨best, hbest.insert hnew hcalled hexempt⟩
  · rintro nested io p s exit s' hio ⟨best,hbest⟩ hp hset
    rcases setBestChain_ledger hbest hp hset with
      ⟨rfl,hledger,htree,-⟩ | ⟨hexit,hsame,hledger⟩ | ⟨hfail,-⟩
    · exact ⟨⟨p, hledger⟩, trivial, htree⟩
    · exact ⟨⟨best, hledger⟩, hexit.proper, hsame.tree⟩
    · exact absurd (hflush io hio) hfail

end Steps

section Start
variable {W : Type} {cons : Consensus} (genesis : CBlock) (wallet : W)

theorem loadedGenesis_tip : TipAt cons (loadedGenesis cons genesis wallet) cons.hashGenesisBlock := by
  have hself : (loadedGenesis cons genesis wallet).mapBlockIndex cons.hashGenesisBlock =
      some (genesisIndex cons genesis) := if_pos rfl
  have hother : ∀ p, p ≠ cons.hashGenesisBlock →
      (loadedGenesis cons genesis wallet).mapBlockIndex p = none := fun p hp => if_neg hp
  -- the genesis block is the only entry, and it has no parent
  have hparent : ∀ p, parentOf (loadedGenesis cons genesis wallet).mapBlockIndex p = none := by
    intro p
    by_cases hp : p = cons.hashGenesisBlock
    · rw [hp, parentOf, hself]
      rfl
    · rw [parentOf, hother p hp]
      rfl
  constructor
  · refine ⟨by rw [hself]; rfl, hparent _, by rw [heightOf, hself]; rfl, fun p hp hne => ?_⟩
    rw [hother p hne] at hp
    cases hp
  · intro p pindex hp
    by_cases hpg : p = cons.hashGenesisBlock
    · rw [hpg, hself] at hp
      rw [hpg, ← Option.some.inj hp]
      rfl
    · rw [hother p hpg] at hp
      cases hp
  · intro p hp
    rw [List.mem_singleton.mp hp, hself]
    rfl
  · rw [hself]
    rfl
  · rfl
  · rfl
  · rfl
  · rw [heightOf, hself]
    rfl
  · rw [workOf, hself]
    rfl
  · intro p q
    rw [hparent q]
    constructor
    · intro hnext
      by_cases hp : p = cons.hashGenesisBlock
      · rw [nextOf, hp, hself] at hnext
        cases hnext
      · rw [nextOf, hother p hp] at hnext
        cases hnext
    · rintro ⟨hq,-⟩
      cases hq

theorem loadedGenesis_ledger :
    LedgerAt cons (loadedGenesis cons genesis wallet) cons.hashGenesisBlock := by
  have htip : TipAt cons (loadedGenesis cons genesis wallet) cons.hashGenesisBlock :=
    loadedGenesis_tip genesis wallet
  have hself : (loadedGenesis cons genesis wallet).mapBlockIndex cons.hashGenesisBlock =
      some (genesisIndex cons genesis) := if_pos rfl
  have honly : ∀ p pindex, (loadedGenesis cons genesis wallet).mapBlockIndex p = some pindex →
      p = cons.hashGenesisBlock ∧ pindex = genesisIndex cons genesis := by
    intro p pindex hp
    change (if p = cons.hashGenesisBlock then some _ else none) = some pindex at hp
    split_ifs at hp with hpg
    exact ⟨hpg, (Option.some.inj hp).symm⟩
  have hexempt : bip30Exempt (genesisIndex cons genesis) = false := by
    simp [bip30Exempt, genesisIndex, newIndex]
  refine ⟨htip, ?_, ⟨fun _ => none, Replays.genesis, ?_⟩, ?_, ?_⟩
  · intro p pindex hp
    rw [(honly p pindex hp).2]
    exact hexempt
  · exact Utxo.Match.refl _
  · intro p pindex hp hhave
    rw [(honly p pindex hp).2] at hhave
    cases hhave
  · intro p hp
    -- nothing else is in the chain of the genesis block
    have hroot := htip.tree.root_parent
    obtain rfl : cons.hashGenesisBlock = p := by
      rcases hp.cases with heq | ⟨q,hq,-⟩
      · exact heq
      · rw [hroot] at hq
        cases hq
    constructor
    · refine ⟨_, _, hself, Replays.genesis, ?_⟩
      exact (Finset.sum_const_zero).symm
    · intro q hq
      change parentOf _ _ = some q at hq
      rw [hroot] at hq
      cases hq

end Start

end Candypool.Chain
