import Candypool.Chain.Consistency
import Candypool.Coins.Visible

/-! Every block of the main chain was connected once, and would be connected again: `ConnectBlock`
reads the clock and the outcomes of its writes, the parts of the index that never change, and the
coins of the parent. -/
namespace Candypool.Core

section CheckBlock
variable {ext : Externals} {block : CBlock} {nAdjustedTime nAdjustedTime' : ℤ} {fCheckMerkleRoot : Bool}

/-- A block that passed its check passes it at any later time. -/
theorem checkBlock_later (h : block.checkBlock ext nAdjustedTime fCheckMerkleRoot = .ok ())
    (hle : nAdjustedTime ≤ nAdjustedTime') :
    block.checkBlock ext nAdjustedTime' fCheckMerkleRoot = .ok () := by
  rw [CBlock.checkBlock] at h ⊢
  by_cases htime : (block.nTime : ℤ) > nAdjustedTime+2*60*60
  · rw [if_pos htime] at h
    split_ifs at h
  · rw [if_neg htime] at h
    have htime' : ¬ (block.nTime : ℤ) > nAdjustedTime'+2*60*60 := by omega
    rw [if_neg htime']
    exact h

end CheckBlock

end Candypool.Core

namespace Candypool.Chain
open Candypool.Prime Candypool.Core Candypool.Coins Candypool.Lib

/-- The failure of a `ConnectBlock` call is the failure of one of its writes. -/
def WriteFailed (io : ConnectIO) : ConnectError → Prop
  | .writeMoneySupply => io.writeMoneySupply = false
  | .findUndoPos => io.findUndoPos = false
  | .writeUndo => io.writeUndo = false
  | .writeBlockIndex => io.writeBlockIndex = false
  | .writeTxIndex => io.writeTxIndex = false
  | _ => False

section Again
variable {V : Type} [CCoinsView V] {cons : Consensus} {io io' : ConnectIO}
  {m m' : BlockPtr → Option CBlockIndex} {block : CBlock} {ptr : BlockPtr}
  {pindex pindex' : CBlockIndex} {view view' : V}

theorem recordBlock_writeFailed {blockundo : CBlockUndo} {e : ConnectError}
    (h : (recordBlock cons io ptr pindex view blockundo).error = some e) : WriteFailed io e := by
  simp only [recordBlock] at h
  split_ifs at h <;> first
    | (cases h; done)
    | (obtain rfl := Option.some.inj h
       simp_all [WriteFailed])

/-- The parts of an entry that never change are read alike. -/
theorem fixed_read {β : Type} (h : fixed pindex' = fixed pindex) (g : CBlockIndex → β)
    (hg : ∀ pindex, g (fixed pindex) = g pindex) : g pindex' = g pindex := by
  rw [← hg pindex', h, hg]

/-- A call that succeeded would succeed again later, on an entry and a parent that differ only in
what the node writes to them, unless one of its writes fails. -/
theorem connectBlock_later (hok : (connectBlock cons io m block ptr pindex view false).error = none)
    (hclock : io.nAdjustedTime ≤ io'.nAdjustedTime) (hfixed : fixed pindex' = fixed pindex)
    (hheight : (pindex.pprev.bind m').map CBlockIndex.nHeight =
      (pindex.pprev.bind m).map CBlockIndex.nHeight) {e : ConnectError}
    (he : (connectBlock cons io' m' block ptr pindex' view false).error = some e) :
    WriteFailed io' e := by
  have hread {β : Type} (g : CBlockIndex → β) (hg : ∀ pindex, g (fixed pindex) = g pindex) :
    g pindex' = g pindex := fixed_read hfixed g hg
  have hexempt : bip30Exempt pindex' = bip30Exempt pindex := hread bip30Exempt fun _ => rfl
  have hpprev : pindex'.pprev = pindex.pprev := hread CBlockIndex.pprev fun _ => rfl
  have hown : pindex'.nHeight = pindex.nHeight := hread CBlockIndex.nHeight fun _ => rfl
  have htime : pindex'.nTime = pindex.nTime := hread CBlockIndex.nTime fun _ => rfl
  have hbits : pindex'.nBits = pindex.nBits := hread CBlockIndex.nBits fun _ => rfl
  rw [connectBlock] at hok he
  dsimp only at hok he
  rw [hexempt, hpprev, hown, htime, hbits] at he
  -- the checks are those of the first call, one by one
  split at hok
  · cases hok
  rename_i hcheck
  rw [checkBlock_later hcheck hclock] at he
  dsimp only at he
  by_cases hbest : pindex.pprev ≠ getBestBlock view
  · rw [if_pos hbest] at hok
    cases hok
  rw [if_neg hbest] at hok he
  by_cases hgenesis : block.getHash cons.ext = cons.hashGenesisBlock
  · rw [if_pos hgenesis] at he
    cases he
  rw [if_neg hgenesis] at hok he
  by_cases hdup : (!bip30Exempt pindex && block.vtx.any fun tx =>
      (getCoins view (cons.ext.txHash tx)).any fun coins => !coins.isPruned) = true
  · rw [if_pos hdup] at hok
    cases hok
  rw [if_neg hdup] at hok he
  split at hok
  · cases hok
  rename_i pprev hprev
  rw [hprev, Option.map_some, Option.map_eq_some_iff] at hheight
  obtain ⟨pprev',hprev',hsame⟩ := hheight
  rw [hprev'] at he
  dsimp only at he
  rw [hsame] at he
  split at hok
  · cases hok
  rename_i loop hloop
  rw [hloop] at he
  simp only [Bool.false_eq_true, if_false, Bool.not_false, Bool.true_and] at hok he
  by_cases hsupply : (!io'.writeMoneySupply) = true
  · rw [if_pos hsupply] at he
    obtain rfl := Option.some.inj he
    rwa [Bool.not_eq_true'] at hsupply
  rw [if_neg hsupply] at he
  split at hok
  · cases hok
  split at hok
  · cases hok
  rename_i coinbase hhead
  rw [hhead] at he
  dsimp only at he
  split at hok
  · cases hok
  rename_i hlimit
  rw [if_neg hlimit] at he
  split at hok
  · cases hok
  rename_i hchecks
  rw [if_neg hchecks] at he
  exact recordBlock_writeFailed he

/-- The same on another view of the same coins. -/
theorem connectBlock_again (hok : (connectBlock cons io m block ptr pindex view false).error = none)
    (hclock : io.nAdjustedTime ≤ io'.nAdjustedTime) (hfixed : fixed pindex' = fixed pindex)
    (hheight : (pindex.pprev.bind m').map CBlockIndex.nHeight =
      (pindex.pprev.bind m).map CBlockIndex.nHeight)
    (hv : visibleCoins view' = visibleCoins view) (hbest : getBestBlock view' = getBestBlock view)
    {e : ConnectError}
    (he : (connectBlock cons io' m' block ptr pindex' view' false).error = some e) :
    WriteFailed io' e := by
  rw [← (connectBlock_visible io m block ptr pindex hv hbest).error] at hok
  exact connectBlock_later hok hclock hfixed hheight he

end Again

section Defs
variable {W : Type}

/-- A `ConnectBlock` call no later than `T` accepted the block on top of `f`, from the coins
`u`. -/
def AcceptedOnce (cons : Consensus) (T : ℤ) (f p : BlockPtr) (nHeight : ℕ) (pindex : CBlockIndex)
    (block : CBlock) (u : Utxo) : Prop :=
  ∃ (io : ConnectIO) (m : BlockPtr → Option CBlockIndex) (entry : CBlockIndex)
    (view : CCoinsViewCache), io.nAdjustedTime ≤ T ∧ fixed entry = fixed pindex ∧
    entry.pprev = some f ∧ (m f).map CBlockIndex.nHeight = some nHeight ∧
    getBestBlock view = some f ∧ u.Match (getCoins view) ∧
    (connectBlock cons io m block p entry view false).error = none

/-- A block above the genesis block was connected: its undo data was written, and the block in
the file was accepted on the coins of its parent. -/
def Vetted (cons : Consensus) (cf : ChainFile) (T : ℤ) (m : BlockPtr → Option CBlockIndex)
    (p : BlockPtr) : Prop :=
  ∀ f, cf.parent p = some f → ∃ u block pindex, m p = some pindex ∧
    pindex.nStatus.haveUndo = true ∧ cf.file p = some block ∧ Replays cons cf f u ∧
    AcceptedOnce cons T f p (cf.height f) pindex block u

/-- The blocks of the main chain were connected, none later than `T`. -/
structure VettedAt (cons : Consensus) (T : ℤ) (s : NodeState W) (best : BlockPtr) : Prop where
  ledger : LedgerAt cons s best
  vetted : ∀ p, Anc (parentOf s.mapBlockIndex) best p →
    Vetted cons s.chainFile T s.mapBlockIndex p

/-- What `Vetted` reads of an entry. -/
def vettedPart (pindex : CBlockIndex) : CBlockIndex × Bool :=
  (fixed pindex, pindex.nStatus.haveUndo)

/-- No clock a step reads is past `T`. -/
def Op.Clocked (T : ℤ) (op : Op) : Prop :=
  ∀ io, op.Uses io → ∀ p, (io.connect p).nAdjustedTime ≤ T

end Defs

section Kept
variable {W : Type} {cons : Consensus} {sync : WalletSync W} {cf : ChainFile} {T : ℤ}
  {m m' : BlockPtr → Option CBlockIndex} {s s' : NodeState W} {p best : BlockPtr}

theorem Vetted.congr (h : Vetted cons cf T m p)
    (hmap : (m' p).map vettedPart = (m p).map vettedPart) : Vetted cons cf T m' p := by
  intro f hf
  obtain ⟨u,block,pindex,hp,hundo,hfile,hu,io,m0,entry,view,hclock,hfixed,hrest⟩ := h f hf
  rw [hp, Option.map_some, Option.map_eq_some_iff] at hmap
  obtain ⟨pindex',hp',hpart⟩ := hmap
  obtain ⟨hfixed',hundo'⟩ := Prod.mk.inj hpart
  exact ⟨u, block, pindex', hp', hundo'.trans hundo, hfile, hu, io, m0, entry, view, hclock,
    hfixed.trans hfixed'.symm, hrest⟩

/-- The block of a turn of the loop that ended well. -/
theorem ConnectStep.vetted {io : ChainIO} {f : BlockPtr} {view : CCoinsViewCache}
    {pindex : CBlockIndex} {block : CBlock} {r : ConnectResult CCoinsViewCache} {u : Utxo}
    (h : ConnectStep cons io s' p view pindex block r) (hok : r.error = none)
    (hroot : p ≠ cons.hashGenesisBlock) (hhash : pindex.phashBlock = some p)
    (hprev : pindex.pprev = some f) (hheight : cf.height f = heightOf s'.mapBlockIndex f)
    (hmem : (s'.mapBlockIndex f).isSome = true) (hfile : cf.file p = some block)
    (hparent : cf.parent p = some f) (hu : Replays cons cf f u) (hm : u.Match (getCoins view))
    (hbest : getBestBlock view = some f) (hclock : (io.connect p).nAdjustedTime ≤ T) :
    Vetted cons cf T (s'.connected cons sync p block r).mapBlockIndex p := by
  intro f' hf'
  obtain rfl := Option.some.inj (hparent.symm.trans hf')
  have hentry : (s'.connected cons sync p block r).mapBlockIndex p = some r.pindex := by
    change modifyIndex s'.mapBlockIndex p _ p = _
    rw [modifyIndex_self, h.entry]
    rfl
  have hfixed : fixed pindex = fixed r.pindex := by
    obtain ⟨_,_,_,hpindex⟩ := connectBlock_index h.result
    rw [hpindex]
    rfl
  have hundo : r.pindex.nStatus.haveUndo = true := by
    rcases connectBlock_cases h.result with ⟨herr,-⟩ | ⟨hgenesis,-⟩ | ⟨pprev,loop,-,hrecord⟩
    · exact absurd hok herr
    · exact absurd ((h.getHash hhash).symm.trans hgenesis) hroot
    · exact ((recordBlock_effect hrecord.symm).2.1 hok).2
  obtain ⟨findex,hf⟩ := Option.isSome_iff_exists.mp hmem
  refine ⟨u, block, r.pindex, hentry, hundo, hfile, hu, io.connect p, s'.mapBlockIndex, pindex, view,
    hclock, hfixed, hprev, ?_, hbest, hm, ?_⟩
  · rw [hheight, heightOf, hf]
    rfl
  · rw [h.result]
    exact hok

/-- What `SetBestChain` does to the blocks of the chain it leaves as the main chain. -/
theorem setBestChain_vetted {nested : NodeState W → ChainExit × NodeState W} {io : ChainIO}
    {pindexNew : BlockPtr} (h : VettedAt cons T s best)
    (hclock : ∀ p, (io.connect p).nAdjustedTime ≤ T)
    (hnew : (s.mapBlockIndex pindexNew).isSome = true) {exit : ChainExit}
    (hset : setBestChain cons sync nested io pindexNew s = (exit,s')) :
    (exit.Early → ∀ p, Anc (parentOf s.mapBlockIndex) best p →
      Vetted cons s.chainFile T s'.mapBlockIndex p) ∧
    (io.Flushes → exit = .ok → s'.chainFile = s.chainFile ∧
      ∀ p, Anc (parentOf s.mapBlockIndex) pindexNew p →
        Vetted cons s.chainFile T s'.mapBlockIndex p) := by
  have hl := h.ledger
  have htip := hl.tip
  obtain ⟨u0,hu0,hm0⟩ := hl.coins
  have hrule := setBestChain_rule htip hnew
    (I := fun f view _ => (Temp s view ∧ getBestBlock view = some f) ∧
      ∃ u, Replays cons s.chainFile f u ∧ u.Match (getCoins view))
    (K := fun _ f s' view vDelete => LedgerView cons s best f s' view vDelete ∧
      ∀ p, Anc (parentOf s.mapBlockIndex) best p ∨ Anc (parentOf s.mapBlockIndex) f p →
        Vetted cons s.chainFile T s'.mapBlockIndex p)
    (J := fun _ s' => ∀ p, Anc (parentOf s.mapBlockIndex) best p →
      Vetted cons s.chainFile T s'.mapBlockIndex p)
    ⟨⟨newView_temp htip.coins, (newView_best s).trans htip.coins⟩, u0, hu0, hm0⟩
    (fun p q view _ pindex block r _ hparent hI hstep =>
      ⟨disconnectStep_temp hparent hI.1.1 hstep, hstep.ledger hl hparent hI.2⟩)
    (fun f view _ hf hI => ⟨⟨⟨SameChain.refl s, SameFlags.refl s, hI.1.1, hI.1.2⟩, hI.2, hl.undo,
      fun p hp => hl.supply p (hp.elim id hf.trans),
      fun p block hp hoff => absurd (hf.trans hp) hoff⟩,
      fun p hp => h.vetted p (hp.elim id hf.trans)⟩)
    (fun _ f s' view _ hK => ⟨hK.1.reached.1.tree, hK.1.reached.1.next⟩)
    (fun _ f s' view _ hK p hp => hK.2 p (Or.inl hp)) ?_ ?_ hset
  · rcases hrule with ⟨hexit,rfl⟩ | ⟨hexit,hj⟩ |
      ⟨f,vDisconnect,vConnect,vResurrect,c,hpath,hdown,hconnect,⟨hK,hvetted⟩,hpush⟩
    · refine ⟨fun _ => h.vetted, fun _ hok => ?_⟩
      rcases hexit with rfl | rfl <;> cases hok
    · refine ⟨fun _ => hj, fun _ hok => ?_⟩
      rcases hexit with rfl | ⟨e,rfl⟩ <;> cases hok
    · obtain ⟨hsame,hflags,htemp,hbest⟩ := hK.reached
      by_cases hio : io.Flushes
      · obtain ⟨rfl,-,hpushed⟩ := pushView_spec htip hio hnew hpath hdown hconnect hsame
          (hflags.candidates htip.candidates) htemp hbest hpush
        refine ⟨?_, fun _ _ => ⟨?_, fun p hp =>
          (hvetted p (Or.inr hp)).congr (hpushed.kept vettedPart (fun _ _ => rfl) p)⟩⟩
        · rintro (hexit | hexit | ⟨e,hexit⟩) <;> cases hexit
        · have htree := hsame.tree.trans hpushed.tree
          rw [NodeState.chainFile, NodeState.chainFile, htree.parentOf, htree.heightOf,
            hpushed.blockFile, hsame.blockFile]
      · refine ⟨?_, fun hflush => absurd hflush hio⟩
        obtain ⟨hexit,-⟩ := pushView_stops hio hpush
        rcases hexit with rfl | rfl <;> rintro (hexit | hexit | ⟨e,hexit⟩) <;> cases hexit
  · -- a block that does not connect is not on the main chain
    intro _ f s1 view _ p pindex block r e w hp hparent hK hstep herr q hq
    have hqp : q ≠ p := fun heq => hp.off (heq ▸ hq)
    have hkept : Vetted cons s.chainFile T (s1.connected cons sync p block r).mapBlockIndex q := by
      apply (hK.2 q (Or.inl hq)).congr
      rw [connected_entry_ne hqp]
    split_ifs
    · have hmap : ∀ q, ((markInvalid (s1.connected cons sync p block r) p w).mapBlockIndex q).map
          vettedPart = ((s1.connected cons sync p block r).mapBlockIndex q).map vettedPart :=
        modifyIndex_map vettedPart fun _ _ => rfl
      exact hkept.congr (hmap q)
    · exact hkept
  · intro _ f s1 view vDelete p pindex block r hp hparent hK hstep hok
    obtain ⟨hhash,hroot,-,-,-,hprev,hfile⟩ :=
      hstep.facts htip hl.exempt hK.1.reached.1 hp.mem hparent
    obtain ⟨u,hu,hm⟩ := hK.1.coins
    obtain ⟨hfmem,-⟩ := htip.tree.of_parent hp.mem hparent
    refine ⟨hK.1.connected hl hp hparent hstep hok, fun q hq => ?_⟩
    by_cases hqp : q = p
    · rw [hqp]
      refine hstep.vetted hok hroot hhash hprev ?_ ?_ hfile hparent hu hm hK.1.reached.2.2.2
        (hclock p)
      · rw [hK.1.reached.1.tree.heightOf]
        rfl
      · rw [hK.1.reached.1.tree.isSome]
        exact hfmem
    · have hq' : Anc (parentOf s.mapBlockIndex) best q ∨ Anc (parentOf s.mapBlockIndex) f q := by
        rcases hq with hq | hq
        · exact Or.inl hq
        · rcases hq.cases with heq | ⟨f',hf',hrest⟩
          · exact absurd heq.symm hqp
          · obtain rfl := Option.some.inj (hparent.symm.trans hf')
            exact Or.inr hrest
      apply (hK.2 q hq').congr
      rw [connected_entry_ne hqp]

theorem VettedAt.marked {l : List BlockPtr} (h : VettedAt cons T s best) (hm : Marked l s s') :
    VettedAt cons T s' best := by
  refine ⟨h.ledger.marked hm, fun p hp => ?_⟩
  rw [hm.same.tree.parentOf] at hp
  rw [hm.same.chainFile]
  refine (h.vetted p hp).congr (hm.kept vettedPart (fun pindex status hundo => ?_) p)
  rw [vettedPart, vettedPart, hundo]
  rfl

theorem VettedAt.of_pool {mempool : CTxMemPool} {wallet : W} (h : VettedAt cons T s best) :
    VettedAt cons T { s with mempool := mempool, wallet := wallet } best :=
  ⟨h.ledger.of_pool, h.vetted⟩

/-- A new leaf leaves the parents, heights and blocks of the others. -/
theorem insertIndex_extends {block : CBlock}
    (hnew : s.mapBlockIndex (block.getHash cons.ext) = none) {p : BlockPtr}
    (hp : (s.mapBlockIndex p).isSome = true) :
    (insertIndex cons s block).chainFile.parent p = s.chainFile.parent p ∧
      (insertIndex cons s block).chainFile.height p = s.chainFile.height p ∧
      (insertIndex cons s block).chainFile.file p = s.chainFile.file p := by
  have hne := ne_of_isSome hnew hp
  refine ⟨?_, ?_, Function.update_of_ne hne _ _⟩
  · change parentOf _ p = parentOf _ p
    rw [parentOf, insertIndex_ne hne, parentOf]
  · change heightOf _ p = heightOf _ p
    rw [heightOf, insertIndex_ne hne, heightOf]

theorem VettedAt.insert {block : CBlock} (h : VettedAt cons T s best)
    (hnew : s.mapBlockIndex (block.getHash cons.ext) = none)
    (hprev : (s.mapBlockIndex block.hashPrevBlock).isSome = true)
    (hexempt : bip30Exempt (newIndex cons s.mapBlockIndex block) = false) :
    VettedAt cons T (insertIndex cons s block) best := by
  have htip := h.ledger.tip
  refine ⟨h.ledger.insert hnew hprev hexempt, fun p hp => ?_⟩
  have hparent : ∀ q, (s.mapBlockIndex q).isSome = true →
      parentOf (insertIndex cons s block).mapBlockIndex q = parentOf s.mapBlockIndex q :=
    fun q hq => (insertIndex_extends hnew hq).1
  have hanc : Anc (parentOf s.mapBlockIndex) best p :=
    (htip.tree.anc_congr (fun q hq => hparent q hq) htip.mem).mp hp
  have hmem := htip.tree.anc_mem htip.mem hanc
  have hknown : ∀ p q, s.chainFile.parent p = some q → (s.mapBlockIndex p).isSome = true := by
    intro p q hq
    obtain ⟨pindex,hp,-⟩ := Option.bind_eq_some_iff.mp hq
    rw [hp]
    rfl
  intro f hf
  rw [(insertIndex_extends hnew hmem).1] at hf
  have hfmem := (htip.tree.of_parent hmem hf).1
  obtain ⟨u,b,pindex,hp,hundo,hfile,hu,honce⟩ := h.vetted p hanc f hf
  refine ⟨u, b, pindex, (insertIndex_ne (ne_of_isSome hnew hmem)).trans hp, hundo, ?_, ?_, ?_⟩
  · rw [(insertIndex_extends hnew hmem).2.2]
    exact hfile
  · refine hu.mono (fun p q hq => ?_) fun p q b hq hb => ?_
    · have hsame := insertIndex_extends hnew (hknown p q hq)
      exact ⟨hsame.1.trans hq, hsame.2.1⟩
    · exact (insertIndex_extends hnew (hknown p q hq)).2.2.trans hb
  · rw [(insertIndex_extends hnew hfmem).2.1]
    exact honce

end Kept

section Runs
variable {W : Type} {cons : Consensus} {sync : WalletSync W} {fuel : ℕ} {T : ℤ} {s : NodeState W}

theorem Op.exec_vetted {op : Op} (hcalled : op.Called s) (hflush : op.Flushes)
    (hexempt : op.NotExempt cons s) (hclock : op.Clocked T) (h : ∃ best, VettedAt cons T s best) :
    ∃ best, VettedAt cons T (op.exec cons sync fuel s).2 best := by
  refine (Op.exec_keeps (Q := fun s => ∃ best, VettedAt cons T s best)
    (fun s h => h.imp fun best hbest => hbest.ledger.tip) ?_ ?_ hcalled ?_ ?_ h).1
  · rintro s mempool wallet ⟨best,hbest⟩
    exact ⟨best, hbest.of_pool⟩
  · rintro l s s' ⟨best,hbest⟩ hmarked
    exact ⟨best, hbest.marked hmarked⟩
  · rintro block io rfl ⟨best,hbest⟩ hnew
    exact ⟨best, hbest.insert hnew hcalled hexempt⟩
  · rintro nested io p s exit s' hio ⟨best,hbest⟩ hp hset
    obtain ⟨hearly,hdone⟩ := setBestChain_vetted hbest (hclock io hio) hp hset
    rcases setBestChain_ledger hbest.ledger hp hset with
      ⟨rfl,hledger,htree,-⟩ | ⟨hexit,hsame,hledger⟩ | ⟨hfail,-⟩
    · refine ⟨⟨p, hledger, fun q hq => ?_⟩, trivial, htree⟩
      rw [htree.parentOf] at hq
      obtain ⟨hchain,hvetted⟩ := hdone (hflush io hio) rfl
      rw [hchain]
      exact hvetted q hq
    · refine ⟨⟨best, hledger, fun q hq => ?_⟩, hexit.proper, hsame.tree⟩
      rw [hsame.tree.parentOf] at hq
      rw [hsame.chainFile]
      exact hearly hexit q hq
    · exact absurd (hflush io hio) hfail

/-- In a run whose database writes succeed, that brings no exempted block and reads no clock past
`T`, the blocks of the main chain were connected no later than `T`. -/
theorem reaches_vetted {genesis : CBlock} {wallet : W} (h : Reaches cons sync fuel
    (fun s op => op.Flushes ∧ op.NotExempt cons s ∧ op.Clocked T)
    (loadedGenesis cons genesis wallet) s) : ∃ best, VettedAt cons T s best := by
  refine h.invariant (Q := fun s => ∃ best, VettedAt cons T s best) ?_
    fun _ _ hs hcalled hok => Op.exec_vetted hcalled hok.1 hok.2.1 hok.2.2 hs
  have htip : TipAt cons (loadedGenesis cons genesis wallet) cons.hashGenesisBlock :=
    loadedGenesis_tip genesis wallet
  refine ⟨_, loadedGenesis_ledger genesis wallet, fun p hp f hf => ?_⟩
  -- nothing is below the genesis block
  have hroot := htip.tree.root_parent
  rcases hp.cases with heq | ⟨q,hq,-⟩
  · rw [← heq] at hf
    cases hroot.symm.trans hf
  · cases hroot.symm.trans hq

end Runs

end Candypool.Chain
