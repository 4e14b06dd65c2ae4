import Candypool.Chain.MainChain
import Candypool.Chain.Vetted

/-! `VerifyDB`: the last blocks of the main chain are read, checked, taken back from the coins in
memory and connected again. In a reachable state it finds nothing wrong that is not the fault of
the disk. -/
namespace Candypool.Chain
open Candypool.Prime Candypool.Core Candypool.Coins Candypool.Lib

/-- What one call does not decide: the reads that check a block, that take it back and that
connect it again, the writes of the last, the clock, and whether the caches are small enough to
take the block back. -/
structure VerifyIO where
  check : ChainIO
  disconnect : ChainIO
  reconnect : ChainIO
  nAdjustedTime : BlockPtr → ℤ
  fits : BlockPtr → Bool

/-- How the call ends. `assertion` is a null pointer that is followed, `unfinished` a loop that
was cut off. -/
inductive VerifyExit
  | ok
  | readBlock (p : BlockPtr)
  | badBlock (p : BlockPtr) (e : CheckBlockError)
  | badUndo (p : BlockPtr)
  | irrecoverable (p : BlockPtr) (e : DisconnectError)
  | inconsistent (p : BlockPtr)
  | unconnectable (p : BlockPtr) (e : ConnectError)
  | assertion
  | unfinished
  deriving DecidableEq, Repr

/-- What the loop down the main chain carries. -/
structure VerifyState where
  coins : CCoinsViewCache
  pindexState : BlockPtr
  pindexFailure : Option BlockPtr
  nGoodTransactions : ℕ

section Defs
variable {W : Type} (cons : Consensus) (sync : WalletSync W) (io : VerifyIO)

/-- One turn of the loop, for a block with a parent. -/
def verifyBlock (s : NodeState W) (nCheckLevel : ℤ) (p : BlockPtr) (pindex : CBlockIndex)
    (pprev : BlockPtr) (v : VerifyState) : Except VerifyExit VerifyState :=
  -- check level 0: read from disk
  match s.readBlock cons io.check p pindex with
  | none => .error (.readBlock p)
  | some block =>
    -- check level 1: verify block validity
    match if nCheckLevel ≥ 1 then block.checkBlock cons.ext (io.nAdjustedTime p) true else .ok () with
    | .error e => .error (.badBlock p e)
    | .ok () =>
      -- check level 2: verify undo validity
      if nCheckLevel ≥ 2 ∧ pindex.nStatus.haveUndo ∧ (s.readUndo io.check p).isNone then
        .error (.badUndo p)
      -- check level 3: check for inconsistencies during memory-only disconnect of tip blocks
      else if nCheckLevel ≥ 3 ∧ p = v.pindexState ∧ io.fits p then
        let r := disconnectBlock cons block p pindex (s.readUndo io.disconnect p) v.coins
        match r.error with
        | some e => .error (.irrecoverable p e)
        | none =>
          if r.fClean then .ok ⟨r.view, pprev, v.pindexFailure, v.nGoodTransactions+block.vtx.length⟩
          else .ok ⟨r.view, pprev, some p, 0⟩
      else .ok v

/-- The loop down the main chain. -/
def verifyLoop (s : NodeState W) (nCheckLevel nCheckDepth : ℤ) : ℕ → BlockPtr → VerifyState →
    Except VerifyExit VerifyState
  | 0, _, _ => .error .unfinished
  | fuel+1, p, v =>
    match s.mapBlockIndex p with
    | none => .error .assertion
    | some pindex =>
      match pindex.pprev with
      | none => .ok v
      | some pprev =>
        if pindex.nHeight < s.nBestHeight-nCheckDepth then .ok v
        else
          match verifyBlock cons io s nCheckLevel p pindex pprev v with
          | .error exit => .error exit
          | .ok v => verifyLoop s nCheckLevel nCheckDepth fuel pprev v

/-- Check level 4: try reconnecting blocks. -/
def reconnectLoop : ℕ → BlockPtr → NodeState W → CCoinsViewCache → VerifyExit × NodeState W
  | 0, _, s, _ => (.unfinished, s)
  | fuel+1, p, s, coins =>
    if some p = s.pindexBest then (.ok, s)
    else match nextOf s.mapBlockIndex p with
      | none => (.assertion, s)
      | some q =>
        match s.mapBlockIndex q with
        | none => (.assertion, s)
        | some pindex =>
          match s.readBlock cons io.reconnect q pindex with
          | none => (.readBlock q, s)
          | some block =>
            let r := connectBlock cons (io.reconnect.connect q) s.mapBlockIndex block q pindex coins
              false
            let s := s.connected cons sync q block r
            match r.error with
            | some e => (.unconnectable q e, s)
            | none => reconnectLoop fuel q s r.view

/-- `VerifyDB` with `-checklevel` and `-checkblocks`. -/
def verifyDB (nCheckLevel nCheckDepth : ℤ) (s : NodeState W) : VerifyExit × NodeState W :=
  match s.pindexBest with
  | none => (.ok, s)
  | some best =>
    if (parentOf s.mapBlockIndex best).isNone then (.ok, s)
    else
      let nCheckDepth := if nCheckDepth = 0 then 1000000000 else nCheckDepth
      let nCheckDepth := if nCheckDepth > s.nBestHeight then s.nBestHeight else nCheckDepth
      let nCheckLevel := max 0 (min 4 nCheckLevel)
      let fuel := heightOf s.mapBlockIndex best+1
      match verifyLoop cons io s nCheckLevel nCheckDepth fuel best ⟨s.newView, best, none, 0⟩ with
      | .error exit => (exit, s)
      | .ok v =>
        match v.pindexFailure with
        | some p => (.inconsistent p, s)
        | none =>
          if nCheckLevel ≥ 4 then reconnectLoop cons sync io fuel v.pindexState s v.coins
          else (.ok, s)

/-- The block of an entry could not be read. -/
def Unreadable (s : NodeState W) (io : ChainIO) (p : BlockPtr) : Prop :=
  ∃ pindex, s.mapBlockIndex p = some pindex ∧ s.readBlock cons io p pindex = none

/-- The call found nothing wrong, or a read or a write of the disk failed. -/
def VerifyExit.BlamesDisk (s : NodeState W) : VerifyExit → Prop
  | .ok => True
  | .readBlock p => Unreadable cons s io.check p ∨ Unreadable cons s io.reconnect p
  | .badUndo p => io.check.readUndo p = false
  | .irrecoverable p e => e = .readFailure ∧ io.disconnect.readUndo p = false
  | .unconnectable p e => WriteFailed (io.reconnect.connect p) e
  | _ => False

/-- No clock of the call is before `T`. -/
def VerifyIO.NotBefore (T : ℤ) : Prop :=
  ∀ p, T ≤ io.nAdjustedTime p ∧ T ≤ (io.reconnect.connect p).nAdjustedTime

/-- The coins after some blocks of the main chain were taken back. -/
structure Unwound (s : NodeState W) (best : BlockPtr) (v : VerifyState) : Prop where
  state : Anc (parentOf s.mapBlockIndex) best v.pindexState
  failure : v.pindexFailure = none
  bestBlock : getBestBlock v.coins = some v.pindexState
  coins : ∃ u, Replays cons s.chainFile v.pindexState u ∧ u.Match (getCoins v.coins)

end Defs

section Down
variable {W : Type} {cons : Consensus} {io : VerifyIO} {T : ℤ} {s : NodeState W}
  {best p q : BlockPtr} {pindex : CBlockIndex} {block : CBlock} {v : VerifyState}

theorem readBlock_file {io : ChainIO} (h : s.readBlock cons io p pindex = some block) :
    s.blockFile p = some block := by
  rw [NodeState.readBlock] at h
  split_ifs at h
  exact (Option.filter_eq_some_iff.mp h).1

theorem connectBlock_checked {V : Type} [CCoinsView V] {io : ConnectIO}
    {m : BlockPtr → Option CBlockIndex} {view : V}
    (h : (connectBlock cons io m block p pindex view false).error = none) :
    block.checkBlock cons.ext io.nAdjustedTime true = .ok () := by
  rw [connectBlock] at h
  dsimp only at h
  split at h
  · cases h
  · assumption

/-- A block of the main chain passes its check again. -/
theorem VettedAt.checkBlock (h : VettedAt cons T s best) (hp : Anc (parentOf s.mapBlockIndex) best p)
    (hparent : parentOf s.mapBlockIndex p = some q) (hfile : s.blockFile p = some block) {now : ℤ}
    (hnow : T ≤ now) : block.checkBlock cons.ext now true = .ok () := by
  -- the call that connected the block was not later, and it checked the block first
  obtain ⟨u,block',pindex,-,-,hfile',-,io,m,entry,view,hclock,-,-,-,-,-,hok⟩ := h.vetted p hp q hparent
  obtain rfl := Option.some.inj (hfile.symm.trans hfile')
  exact checkBlock_later (connectBlock_checked hok) (hclock.trans hnow)

/-- One turn of the loop down. -/
theorem Unwound.verifyBlock (h : VettedAt cons T s best) (hclock : io.NotBefore T)
    (hp : Anc (parentOf s.mapBlockIndex) best p) (hentry : s.mapBlockIndex p = some pindex)
    (hprev : pindex.pprev = some q) (hv : Unwound cons s best v) (nCheckLevel : ℤ) :
    (∃ v', verifyBlock cons io s nCheckLevel p pindex q v = .ok v' ∧ Unwound cons s best v') ∨
    ∃ exit, verifyBlock cons io s nCheckLevel p pindex q v = .error exit ∧
      exit.BlamesDisk cons io s := by
  have hparent : parentOf s.mapBlockIndex p = some q := by
    rw [parentOf, hentry]
    exact hprev
  obtain ⟨_,_,pindex',hentry',hundo,-⟩ := h.vetted p hp q hparent
  obtain rfl := Option.some.inj (hentry.symm.trans hentry')
  rw [Chain.verifyBlock]
  cases hread : s.readBlock cons io.check p pindex with
  | none => exact Or.inr ⟨_, rfl, Or.inl ⟨pindex, hentry, hread⟩⟩
  | some block =>
    have hcheck := h.checkBlock hp hparent (readBlock_file hread) (hclock p).1
    dsimp only
    rw [hcheck, ite_self]
    dsimp only
    by_cases hlevel2 : nCheckLevel ≥ 2 ∧ pindex.nStatus.haveUndo ∧ (s.readUndo io.check p).isNone
    · rw [if_pos hlevel2]
      refine Or.inr ⟨_, rfl, ?_⟩
      obtain ⟨-,-,hnone⟩ := hlevel2
      -- the undo data is there, so it was the read that failed
      obtain ⟨_,_,_,_,_,_,-,-,-,-,hdisk,-⟩ := h.ledger.undo p pindex hentry hundo
      change io.check.readUndo p = false
      by_contra hio
      rw [Bool.not_eq_false] at hio
      rw [NodeState.readUndo, if_pos hio, hdisk] at hnone
      cases hnone
    rw [if_neg hlevel2]
    -- check level 3 takes the block back in the temporary view
    by_cases hlevel3 : nCheckLevel ≥ 3 ∧ p = v.pindexState ∧ io.fits p
    swap
    · rw [if_neg hlevel3]
      exact Or.inl ⟨v, rfl, hv⟩
    rw [if_pos hlevel3]
    obtain ⟨-,hstate,-⟩ := hlevel3
    have hbest : getBestBlock v.coins = some p := hv.bestBlock.trans (congrArg some hstate.symm)
    by_cases hio : io.disconnect.readUndo p = true
    · -- the call reads the block and its undo data at different times
      let both : ChainIO := { io.disconnect with readBlock := io.check.readBlock }
      have hread' : s.readBlock cons both p pindex = some block := hread
      obtain ⟨view',hdisc,hcoins⟩ := disconnectBlock_ledger h.ledger hparent
        (hstate ▸ hv.coins) hentry hread' hbest hundo hio
      have hsame : s.readUndo both p = s.readUndo io.disconnect p := rfl
      rw [hsame] at hdisc
      rw [hdisc]
      refine Or.inl ⟨_, rfl, ?_, hv.failure, ?_, hcoins⟩
      · exact hp.trans (Anc.of_parent hparent (Anc.refl q))
      · exact disconnectBlock_best hprev hdisc rfl
    · rw [Bool.not_eq_true] at hio
      have hnone : s.readUndo io.disconnect p = none := by
        rw [NodeState.readUndo, hio, if_neg Bool.false_ne_true]
      have hfail : disconnectBlock cons block p pindex none v.coins =
          ⟨some .readFailure, true, v.coins⟩ := by
        rw [disconnectBlock, if_neg (not_not.mpr hbest), hundo, Bool.not_true,
          if_neg Bool.false_ne_true]
      rw [hnone, hfail]
      exact Or.inr ⟨_, rfl, rfl, hio⟩

/-- The loop down ends before it runs out of turns, and finds nothing but failed reads. -/
theorem Unwound.verifyLoop (h : VettedAt cons T s best) (hclock : io.NotBefore T) {fuel : ℕ}
    (hp : Anc (parentOf s.mapBlockIndex) best p) (hfuel : heightOf s.mapBlockIndex p < fuel)
    (hv : Unwound cons s best v) (nCheckLevel nCheckDepth : ℤ) :
    (∃ v', verifyLoop cons io s nCheckLevel nCheckDepth fuel p v = .ok v' ∧
      Unwound cons s best v') ∨
    ∃ exit, verifyLoop cons io s nCheckLevel nCheckDepth fuel p v = .error exit ∧
      exit.BlamesDisk cons io s := by
  have htree := h.ledger.tip.tree
  -- a turn goes down by one block, so that the height of `p` bounds the turns
  induction fuel generalizing p v with
  | zero => omega
  | succ fuel ih =>
    have hmem := htree.anc_mem h.ledger.tip.mem hp
    obtain ⟨pindex,hentry⟩ := Option.isSome_iff_exists.mp hmem
    rw [Chain.verifyLoop, hentry]
    dsimp only
    cases hprev : pindex.pprev with
    | none => exact Or.inl ⟨v, rfl, hv⟩
    | some q =>
      dsimp only
      by_cases hlow : (pindex.nHeight : ℤ) < s.nBestHeight-nCheckDepth
      · rw [if_pos hlow]
        exact Or.inl ⟨v, rfl, hv⟩
      rw [if_neg hlow]
      have hparent : parentOf s.mapBlockIndex p = some q := by
        rw [parentOf, hentry]
        exact hprev
      obtain ⟨-,hheight⟩ := htree.of_parent hmem hparent
      rcases hv.verifyBlock h hclock hp hentry hprev nCheckLevel with
        ⟨v',hturn,hv'⟩ | ⟨exit,hturn,hblame⟩
      · rw [hturn]
        exact ih (hp.trans (Anc.of_parent hparent (Anc.refl q))) (by omega) hv'
      · rw [hturn]
        exact Or.inr ⟨exit, rfl, hblame⟩

end Down

section Up
variable {W : Type} {cons : Consensus} {sync : WalletSync W} {io : VerifyIO} {T : ℤ}
  {s s' : NodeState W} {best p q : BlockPtr} {pindex : CBlockIndex} {block : CBlock}
  {view : CCoinsViewCache} {r : ConnectResult CCoinsViewCache}

/-- The block above `p` on the main chain connects to the coins of `p`, or a write fails. -/
theorem VettedAt.reconnects (h : VettedAt cons T s best)
    (hq : Anc (parentOf s.mapBlockIndex) best q) (hparent : parentOf s.mapBlockIndex q = some p)
    (hstep : ConnectStep cons io.reconnect s q view pindex block r) (hclock : io.NotBefore T)
    (hbest : getBestBlock view = some p)
    (hcoins : ∃ u, Replays cons s.chainFile p u ∧ u.Match (getCoins view)) {e : ConnectError}
    (he : r.error = some e) : WriteFailed (io.reconnect.connect q) e := by
  have htree := h.ledger.tip.tree
  obtain ⟨u,block',pindex',hentry,-,hfile,hu,io0,m,entry,view0,hbefore,hfixed,hprev,hheight,hbest0,
    hm0,hok⟩ := h.vetted q hq p hparent
  obtain rfl := Option.some.inj (hstep.entry.symm.trans hentry)
  obtain rfl := Option.some.inj ((readBlock_file hstep.read).symm.trans hfile)
  obtain ⟨u',hu',hm⟩ := hcoins
  obtain rfl := hu.unique htree.root_parent hu'
  obtain ⟨hpmem,-⟩ := htree.of_parent (htree.anc_mem h.ledger.tip.mem hq) hparent
  -- the parent has the height it had
  have hparentHeight : (entry.pprev.bind s.mapBlockIndex).map CBlockIndex.nHeight =
      (entry.pprev.bind m).map CBlockIndex.nHeight := by
    rw [hprev, Option.bind_some, Option.bind_some, hheight]
    obtain ⟨findex,hf⟩ := Option.isSome_iff_exists.mp hpmem
    have hown : heightOf s.mapBlockIndex p = findex.nHeight := heightOf_entry hf
    rw [hf, Option.map_some, ← hown]
    rfl
  -- the coins of the two calls look like those of the replay
  have hvisible : visibleCoins view = visibleCoins view0 := by
    ext1 txid
    exact (hm txid).visible_eq.trans (hm0 txid).visible_eq.symm
  rw [← hstep.result] at he
  exact connectBlock_again hok (hbefore.trans (hclock q).2) hfixed.symm hparentHeight hvisible
    (hbest.trans hbest0.symm) he

/-- Connecting a block of the main chain again leaves the ledger as it was. -/
theorem VettedAt.reconnected (h : VettedAt cons T s best)
    (hq : Anc (parentOf s.mapBlockIndex) best q) (hparent : parentOf s.mapBlockIndex q = some p)
    (hstep : ConnectStep cons io.reconnect s q view pindex block r)
    (hcoins : ∃ u, Replays cons s.chainFile p u ∧ u.Match (getCoins view)) (hok : r.error = none) :
    VettedAt cons T (s.connected cons sync q block r) best ∧
      ∃ u, Replays cons s.chainFile q u ∧ u.Match (getCoins r.view) := by
  have hl := h.ledger
  have htree := hl.tip.tree
  have hmem := htree.anc_mem hl.tip.mem hq
  obtain ⟨hhash,hroot,hheight,hpos,hexempt,hprev,hfile⟩ :=
    hstep.facts hl.tip hl.exempt (SameChain.refl s) hmem hparent
  obtain ⟨u,hu,hm⟩ := hcoins
  rcases hstep.ledger hhash hroot hpos hexempt hm with ⟨herr,-⟩ |
    ⟨u',blockundo,pprev,hblock,hpprev,hsupply,hmint,hview,-⟩
  · exact absurd hok herr
  have hreplay : Replays cons s.chainFile q u' :=
    Replays.block hparent hu hfile (hheight.symm ▸ hblock)
  obtain ⟨hsame,hflags⟩ : SameChain s (s.connected cons sync q block r) ∧
    SameFlags s (s.connected cons sync q block r) := connected_same hstep.entry hstep.result
  have hentry : (s.connected cons sync q block r).mapBlockIndex q = some r.pindex := by
    change modifyIndex s.mapBlockIndex q _ q = _
    rw [modifyIndex_self, hstep.entry]
    rfl
  have hfixed : fixed r.pindex = fixed pindex := by
    obtain ⟨_,_,_,hpindex⟩ := connectBlock_index hstep.result
    rw [hpindex]
    rfl
  obtain ⟨u0,hu0,hm0⟩ := hl.coins
  refine ⟨⟨⟨?_, ?_, ?_, ?_, ?_⟩, ?_⟩, u', hreplay, hview hok⟩
  · exact hl.tip.of_same hsame (hflags.candidates hl.tip.candidates)
  · exact hsame.tree.noneExempt hl.exempt
  · rw [hsame.chainFile, hsame.pcoinsTip]
    exact ⟨u0, hu0, hm0⟩
  · rw [hsame.chainFile]
    exact hl.undo.connected hstep hhash hroot hheight hpos hexempt hparent hfile hu hm
  · intro x hx
    rw [hsame.tree.parentOf] at hx
    rw [hsame.chainFile]
    by_cases hxq : x = q
    · rw [hxq]
      obtain ⟨hpmem,-⟩ := htree.of_parent hmem hparent
      constructor
      · obtain ⟨findex,v,hf,hv,hvalue⟩ :=
          (hl.supply p (hq.trans (Anc.of_parent hparent (Anc.refl p)))).value
        obtain rfl := hv.unique htree.root_parent hu
        rw [hprev, Option.bind_some, hf] at hpprev
        obtain rfl := Option.some.inj hpprev
        exact ⟨r.pindex, u', hentry, hreplay, by rw [hsupply, hvalue]; ring⟩
      · intro q0 hq0
        obtain rfl := Option.some.inj (hparent.symm.trans hq0)
        rw [← fixed_read hfixed CBlockIndex.nBits fun _ => rfl] at hmint
        exact ⟨u, u', r.pindex, block, hu, hreplay, hentry, hfile, hmint⟩
    · apply (hl.supply x hx).congr
      rw [connected_entry_ne hxq]
  · intro x hx
    rw [hsame.tree.parentOf] at hx
    rw [hsame.chainFile]
    apply (h.vetted x hx).congr
    by_cases hxq : x = q
    · -- the undo data was there, and still is
      have hundo : r.pindex.nStatus.haveUndo = pindex.nStatus.haveUndo := by
        obtain ⟨_,_,pindex',hentry',hhave,-⟩ := h.vetted q hq p hparent
        obtain rfl := Option.some.inj (hstep.entry.symm.trans hentry')
        rcases connectBlock_cases hstep.result with ⟨herr,-⟩ | ⟨hgenesis,-⟩ | ⟨_,_,-,hrecord⟩
        · exact absurd hok herr
        · exact absurd ((hstep.getHash hhash).symm.trans hgenesis) hroot
        · exact ((recordBlock_effect hrecord.symm).2.1 hok).2.trans hhave.symm
      rw [hxq, hentry, hstep.entry, Option.map_some, Option.map_some, vettedPart, vettedPart, hfixed,
        hundo]
    · rw [connected_entry_ne hxq]

/-- What `Unreadable` reads of an entry. -/
def readPart (pindex : CBlockIndex) : Option Uint256 × Bool :=
  (pindex.phashBlock, pindex.nStatus.haveData)

theorem Unreadable.congr {io : ChainIO} (h : Unreadable cons s' io p)
    (hfile : s'.blockFile = s.blockFile)
    (hmap : (s'.mapBlockIndex p).map readPart = (s.mapBlockIndex p).map readPart) :
    Unreadable cons s io p := by
  obtain ⟨pindex,hp,hread⟩ := h
  rw [hp] at hmap
  obtain ⟨pindex',hp',hpart⟩ := Option.map_eq_some_iff.mp hmap.symm
  obtain ⟨hhash,hdata⟩ := Prod.mk.inj hpart
  refine ⟨pindex', hp', ?_⟩
  rw [NodeState.readBlock, hhash, hdata, ← hfile]
  exact hread

/-- The loop up the main chain comes back to the best block unless the disk fails. -/
theorem reconnectLoop_spec (h : VettedAt cons T s' best) (hclock : io.NotBefore T)
    (hsame : SameChain s s')
    (hread : ∀ p, (s'.mapBlockIndex p).map readPart = (s.mapBlockIndex p).map readPart)
    {fuel : ℕ} (hp : Anc (parentOf s'.mapBlockIndex) best p)
    (hfuel : heightOf s'.mapBlockIndex best < fuel+heightOf s'.mapBlockIndex p)
    (hbest : getBestBlock view = some p)
    (hcoins : ∃ u, Replays cons s'.chainFile p u ∧ u.Match (getCoins view)) :
    (reconnectLoop cons sync io fuel p s' view).1.BlamesDisk cons io s ∧
      SameChain s (reconnectLoop cons sync io fuel p s' view).2 ∧
      ((reconnectLoop cons sync io fuel p s' view).1 = .ok →
        VettedAt cons T (reconnectLoop cons sync io fuel p s' view).2 best) := by
  have htip := h.ledger.tip
  -- a turn goes up by one block towards `best`; the entries it writes keep their read part
  induction fuel generalizing p s' view with
  | zero =>
    have hle := htip.tree.anc_height htip.mem hp
    omega
  | succ fuel ih =>
    rw [reconnectLoop, htip.pindexBest]
    by_cases htop : p = best
    · rw [if_pos (congrArg some htop)]
      exact ⟨trivial, hsame, fun _ => h⟩
    rw [if_neg fun heq => htop (Option.some.inj heq)]
    obtain ⟨q,hnext,hparent,hq⟩ := htip.exists_next hp htop
    have hmem := htip.tree.anc_mem htip.mem hq
    obtain ⟨-,hheight⟩ := htip.tree.of_parent hmem hparent
    obtain ⟨pindex,hentry⟩ := Option.isSome_iff_exists.mp hmem
    rw [hnext]
    dsimp only
    rw [hentry]
    dsimp only
    cases hblock : s'.readBlock cons io.reconnect q pindex with
    | none =>
      refine ⟨Or.inr ?_, hsame, fun hok => by cases hok⟩
      exact Unreadable.congr ⟨pindex, hentry, hblock⟩ hsame.blockFile (hread q)
    | some block =>
      dsimp only
      generalize hr : connectBlock cons (io.reconnect.connect q) s'.mapBlockIndex block q pindex view
        false = r
      have hstep : ConnectStep cons io.reconnect s' q view pindex block r := ⟨hentry, hblock, hr⟩
      have hturn : SameChain s' (s'.connected cons sync q block r) := (connected_same hentry hr).1
      cases herr : r.error with
      | some e =>
        exact ⟨h.reconnects hq hparent hstep hclock hbest hcoins herr, hsame.trans hturn,
          fun hok => by cases hok⟩
      | none =>
        dsimp only
        obtain ⟨hvetted,hback⟩ : VettedAt cons T (s'.connected cons sync q block r) best ∧ _ :=
          h.reconnected hq hparent hstep hcoins herr
        have hkept : ∀ x, ((s'.connected cons sync q block r).mapBlockIndex x).map readPart =
            (s.mapBlockIndex x).map readPart := by
          obtain ⟨_,_,_,hpindex⟩ := connectBlock_index hr
          have hmap : ∀ x, ((s'.connected cons sync q block r).mapBlockIndex x).map readPart =
              (s'.mapBlockIndex x).map readPart := by
            refine modifyIndex_map readPart fun pindex' hp' => ?_
            rw [← Option.some.inj (hentry.symm.trans hp'), hpindex]
            rfl
          exact fun x => (hmap x).trans (hread x)
        refine ih hvetted (hsame.trans hturn) hkept ?_ ?_ (connectBlock_best hr herr) ?_
          hvetted.ledger.tip
        · rw [hturn.tree.parentOf]
          exact hq
        · rw [hturn.tree.heightOf]
          omega
        · rw [hturn.chainFile]
          exact hback

end Up

section Runs
variable {W : Type} (cons : Consensus) (sync : WalletSync W) (fuel : ℕ) (genesis : CBlock)
  (wallet : W)

/-- In a state of a run whose database writes succeed, that brings no exempted block and whose
clocks are not past those of the call, `VerifyDB` at any level and depth finds nothing wrong but
reads and writes that fail, and leaves the chain state and the ledger alone. -/
theorem verifyDB_blames_disk (T : ℤ) (s : NodeState W) (h : Reaches cons sync fuel
      (fun s op => op.Flushes ∧ op.NotExempt cons s ∧ op.Clocked T)
      (loadedGenesis cons genesis wallet) s) (io : VerifyIO) (hclock : io.NotBefore T)
    (nCheckLevel nCheckDepth : ℤ) :
    (verifyDB cons sync io nCheckLevel nCheckDepth s).1.BlamesDisk cons io s ∧
      SameChain s (verifyDB cons sync io nCheckLevel nCheckDepth s).2 ∧
      ((verifyDB cons sync io nCheckLevel nCheckDepth s).1 = .ok →
        ∃ best, LedgerAt cons (verifyDB cons sync io nCheckLevel nCheckDepth s).2 best) := by
  obtain ⟨best,hv⟩ := reaches_vetted h
  have htip := hv.ledger.tip
  have hdone : (VerifyExit.ok).BlamesDisk cons io s ∧ SameChain s s ∧
      (VerifyExit.ok = .ok → ∃ best, LedgerAt cons s best) :=
    ⟨trivial, SameChain.refl s, fun _ => ⟨best, hv.ledger⟩⟩
  have hstart : Unwound cons s best ⟨s.newView, best, none, 0⟩ := by
    refine ⟨Anc.refl best, rfl, (newView_best s).trans htip.coins, ?_⟩
    obtain ⟨u,hu,hm⟩ := hv.ledger.coins
    exact ⟨u, hu, hm⟩
  rw [verifyDB, htip.pindexBest]
  dsimp only
  by_cases hroot : (parentOf s.mapBlockIndex best).isNone = true
  · rw [if_pos hroot]
    exact hdone
  rw [if_neg hroot]
  generalize max 0 (min 4 nCheckLevel) = level
  rcases hstart.verifyLoop hv hclock (Anc.refl best) (Nat.lt_succ_self _) level
      (if (if nCheckDepth = 0 then 1000000000 else nCheckDepth) > s.nBestHeight then s.nBestHeight
        else if nCheckDepth = 0 then 1000000000 else nCheckDepth) with
    ⟨v,hloop,hunwound⟩ | ⟨exit,hloop,hblame⟩
  · rw [hloop]
    dsimp only
    rw [hunwound.failure]
    dsimp only
    split_ifs
    · have hfuel : heightOf s.mapBlockIndex best <
          heightOf s.mapBlockIndex best+1+heightOf s.mapBlockIndex v.pindexState := by omega
      obtain ⟨hblame,hsame,hvetted⟩ := reconnectLoop_spec hv hclock (SameChain.refl s)
        (fun _ => rfl) hunwound.state hfuel hunwound.bestBlock hunwound.coins
      exact ⟨hblame, hsame, fun hok => ⟨best, (hvetted hok).ledger⟩⟩
    · exact hdone
  · rw [hloop]
    exact ⟨hblame, SameChain.refl s, fun _ => ⟨best, hv.ledger⟩⟩

end Runs

section TestNet

/-- A call at which everything succeeds. -/
def testVerify : VerifyIO where
  check := testChainOutcome true
  disconnect := testChainOutcome true
  reconnect := testChainOutcome true
  nAdjustedTime _ := 1400000000
  fits _ := true

/-- The first block of the test network is taken back and connected again. -/
theorem verifyDB_blames_disk_testNet :
    (verifyDB testNet noWallet testVerify 4 288 (testState true)).1 = .ok ∧
      ∃ best, LedgerAt testNet (verifyDB testNet noWallet testVerify 4 288 (testState true)).2
        best := by
  have hexit : (verifyDB testNet noWallet testVerify 4 288 (testState true)).1 = .ok := by
    decide +kernel
  have hclocked : (testOp true).Clocked 1400000000 := by
    rintro io ⟨depth,p,rfl⟩ q
    exact le_rfl
  obtain ⟨-,-,hledger⟩ := verifyDB_blames_disk testNet noWallet 0 testGenesis () 1400000000
    (testState true) (Reaches.step _ Reaches.start (testOp_called true)
      ⟨testOp_ok.1, testOp_ok.2, hclocked⟩) testVerify (fun _ => ⟨le_rfl, le_rfl⟩) 4 288
  exact ⟨hexit, hledger hexit⟩

end TestNet

end Candypool.Chain
