import Candypool.Chain.SyncCheckpoint
import Candypool.Chain.Selection

/-! The checkpoint and the best block in enforce mode. A checkpoint switches the chain when it is
received, but chain selection knows nothing of it, and a heavier candidate from before it takes the
chain away again. -/
namespace Candypool.Chain
open Candypool.Prime Candypool.Core Candypool.Coins Candypool.Lib

section Defs
variable {W : Type} (cons : Consensus) (net : NetParams)

/-- The coins are those of the best block. A failed write of the coin database ends this, and makes
the node shut down. -/
def CoinsAtBest (s : NodeState W) : Prop := getBestBlock s.pcoinsTip = s.pindexBest

/-- The last candidate, in the order of the set, whose way back to the main chain has no failed
block. -/
structure Chosen (s : NodeState W) (p : BlockPtr) (l : List BlockPtr) (t : BlockPtr) : Prop where
  mem : p ∈ s.setBlockIndexValid
  branch : Branch s.mapBlockIndex p l t
  last : ∀ q ∈ s.setBlockIndexValid, ∀ l' t', Branch s.mapBlockIndex q l' t' →
    ¬ workLess s.mapBlockIndex p q = true

/-- What is heavier than the best block on the way to this candidate descends from `hash`. -/
def LeadsTo (s : NodeState W) (hash : Uint256) : Prop :=
  ∀ p l t, Chosen s p l t → ∀ q ∈ l ++ [t], heavier s.mapBlockIndex s.pindexBest q = true →
    Anc (parentOf s.mapBlockIndex) q hash

/-- The mode in a call. -/
def SyncOp.fEnforced : SyncOp → Bool
  | .processSyncCheckpoint io _ _ => io.fEnforced
  | .acceptPendingSyncCheckpoint io => io.fEnforced
  | .acceptBlock _ syncOutcome _ => syncOutcome.fEnforced

/-- A new block that gets to chain selection leads to descendants of the checkpoint. -/
def SyncOp.Stays (s : SyncState W) : SyncOp → Prop
  | .acceptBlock io syncOutcome block =>
    Passes cons net
        { io with syncCheckpointRejects := syncCheckpointRejects cons syncOutcome s block } block
        s.node →
      io.add.writeBlockIndex = true → LeadsTo (insertIndex cons s.node block) s.hashSyncCheckpoint
  | _ => True

/-- A call in enforce mode that leaves the chain of the checkpoint alone. -/
def StaysEnforced (s : SyncState W) (op : SyncOp) : Prop :=
  op.fEnforced = true ∧ CoinsAtBest s.node ∧ op.Stays cons net s

/-- The node has one tip, on the chain of `hash`. -/
def Holds (hash : Uint256) (s : NodeState W) : Prop :=
  ∃ best, TipAt cons s best ∧ Anc (parentOf s.mapBlockIndex) best hash

/-- The same, but for the coins. -/
def HoldsBest (hash : Uint256) (s : NodeState W) : Prop :=
  ∃ best, s.pindexBest = some best ∧ Anc (parentOf s.mapBlockIndex) best hash ∧
    (getBestBlock s.pcoinsTip = some best → TipAt cons s best)

end Defs

section Holds
variable {W : Type} {cons : Consensus} {sync : WalletSync W} {hash : Uint256}
  {s s' : NodeState W}

theorem Holds.holdsBest (h : Holds cons hash s) : HoldsBest cons hash s := by
  obtain ⟨best,htip,hanc⟩ := h
  exact ⟨best, htip.pindexBest, hanc, fun _ => htip⟩

theorem HoldsBest.holds (h : HoldsBest cons hash s) (hcoins : CoinsAtBest s) :
    Holds cons hash s := by
  obtain ⟨best,hbest,hanc,htip⟩ := h
  exact ⟨best, htip (hcoins.trans hbest), hanc⟩

/-- How `SetBestChain` to a descendant of the checkpoint ends. -/
theorem setBestChain_holds {nested : NodeState W → ChainExit × NodeState W} {io : ChainIO}
    {p : BlockPtr} (h : Holds cons hash s) (hp : (s.mapBlockIndex p).isSome = true)
    (hanc : Anc (parentOf s.mapBlockIndex) p hash) {exit : ChainExit}
    (hrun : setBestChain cons sync nested io p s = (exit,s')) :
    HoldsBest cons hash s' ∧ (exit = .ok → TipAt cons s' p ∧
      SameTree s.mapBlockIndex s'.mapBlockIndex) := by
  obtain ⟨best,htip,hbest⟩ := h
  rcases setBestChain_tip htip hp hrun with
    ⟨rfl,htip',htree,-,-⟩ | ⟨hearly,hsame,hblamed⟩ | ⟨-,hexit,hmoved⟩
  · have hholds : Holds cons hash s' := ⟨p, htip', by rwa [htree.parentOf]⟩
    exact ⟨hholds.holdsBest, fun _ => ⟨htip', htree⟩⟩
  · have htip' := htip.of_same hsame (hblamed.candidates htip.candidates)
    have hholds : Holds cons hash s' := ⟨best, htip', by rwa [hsame.tree.parentOf]⟩
    refine ⟨hholds.holdsBest, fun hok => ?_⟩
    rw [hok] at hearly
    rcases hearly with h | h | ⟨e,h⟩ <;> cases h
  · refine ⟨⟨best, hmoved.pindexBest, by rwa [hmoved.tree.parentOf], hmoved.tip⟩, fun hok => ?_⟩
    rw [hok] at hexit
    rcases hexit with h | h <;> cases h

end Holds

section Branches
variable {m m' : BlockPtr → Option CBlockIndex} {p t : BlockPtr} {l : List BlockPtr}

/-- A way with no failed block on it does not meet a way to a failed block. -/
theorem Branch.avoids (h : Branch m p l t) {p' t' : BlockPtr} {l' : List BlockPtr}
    (hpath : Path (parentOf m) p' l' t') (hoff : ∀ q ∈ l', nextOf m q = none)
    (hfailed : (m t').map isFailed = some true) : ∀ q ∈ l', q ∉ l ++ [t] := by
  induction hpath with
  | nil a => exact fun q hq => absurd hq List.not_mem_nil
  | @cons a b c l' step rest ih =>
    have hrest := ih (fun q hq => hoff q (List.mem_cons_of_mem _ hq)) hfailed
    have hfirst : a ∉ l ++ [t] := by
      intro ha
      -- the way goes on from here, so it comes to the failed block
      have hmem : a ∈ l := by
        refine (List.mem_append.mp ha).resolve_right fun hat => ?_
        rw [List.mem_singleton] at hat
        rcases h.stop with hroot | hnext
        · rw [← hat, step] at hroot
          cases hroot
        · rw [← hat, hoff a List.mem_cons_self] at hnext
          cases hnext
      have hb := h.path.parent_mem hmem step
      cases rest with
      | nil b =>
        have hgood := h.good b hb
        rw [hfailed] at hgood
        cases hgood
      | cons step' rest => exact hrest b List.mem_cons_self hb
    intro q hq
    rcases List.mem_cons.mp hq with rfl | hq
    · exact hfirst
    · exact hrest q hq

theorem Branch.congr (h : Branch m p l t) (hparent : parentOf m' = parentOf m)
    (hnext : nextOf m' = nextOf m)
    (hgood : ∀ q ∈ l ++ [t], (m' q).map isFailed = some false) : Branch m' p l t := by
  refine ⟨?_, ?_, hgood, ?_⟩
  · rw [hparent]
    exact h.path
  · rw [hnext]
    exact h.off
  · rw [hparent, hnext]
    exact h.stop

theorem Branch.start_mem (h : Branch m p l t) : p ∈ l ++ [t] := by
  have hpath := h.path
  cases hpath with
  | nil => exact List.mem_singleton_self _
  | cons step rest => exact List.mem_cons_self

end Branches

section Select
variable {W : Type} {cons : Consensus} {sync : WalletSync W} {hash : Uint256}
  {s1 s s' : NodeState W} {best : BlockPtr}

/-- What the outer loop of `ConnectBestBlock` has kept of the state it began with. -/
structure Looking (cons : Consensus) (s1 : NodeState W) (best : BlockPtr) (s : NodeState W) :
    Prop where
  tip : TipAt cons s best
  tree : SameTree s1.mapBlockIndex s.mapBlockIndex
  next : nextOf s.mapBlockIndex = nextOf s1.mapBlockIndex
  set : ∀ p ∈ s.setBlockIndexValid, p ∈ s1.setBlockIndexValid
  back : ∀ p l t, Branch s.mapBlockIndex p l t → Branch s1.mapBlockIndex p l t
  kept : ∀ p ∈ s1.setBlockIndexValid, ∀ l t, Branch s1.mapBlockIndex p l t →
    p ∈ s.setBlockIndexValid ∧ Branch s.mapBlockIndex p l t

theorem Looking.start (h : TipAt cons s1 best) : Looking cons s1 best s1 :=
  ⟨h, SameTree.refl _, rfl, fun _ hp => hp, fun _ _ _ hp => hp, fun _ hp _ _ hbranch =>
    ⟨hp, hbranch⟩⟩

/-- Marking the descendants of a failed block takes no other candidate away. -/
theorem Looking.marked {p t : BlockPtr} {l : List BlockPtr} (h : Looking cons s1 best s)
    (hfailed : FailedBranch s.mapBlockIndex p l t) (hm : Marked l s s') :
    Looking cons s1 best s' := by
  have htree := hm.same.tree
  refine ⟨h.tip.marked hm, h.tree.trans htree, hm.same.next.trans h.next, ?_, ?_, ?_⟩
  · intro q hq
    rw [hm.set, List.mem_filter] at hq
    exact h.set q hq.1
  · intro q l' t' hbranch
    apply h.back
    apply hbranch.congr htree.parentOf.symm hm.same.next.symm
    intro x hx
    have hgood := hbranch.good x hx
    by_cases hxl : x ∈ l
    · rw [hm.failed x hxl] at hgood
      cases hentry : s.mapBlockIndex x with
      | none =>
        rw [hentry] at hgood
        cases hgood
      | some pindex =>
        rw [hentry] at hgood
        cases hgood
    · rw [← hm.others x hxl]
      exact hgood
  · intro q hq l' t' hbranch
    obtain ⟨hmem,hs⟩ := h.kept q hq l' t' hbranch
    have havoid := hs.avoids hfailed.path hfailed.off hfailed.failed
    refine ⟨?_, hs.congr htree.parentOf hm.same.next fun x hx => ?_⟩
    · rw [hm.set, List.mem_filter, decide_eq_true_eq]
      exact ⟨hmem, fun hql => havoid q hql hs.start_mem⟩
    · rw [hm.others x fun hxl => havoid x hxl hx]
      exact hs.good x hx

/-- The candidate the loop switches to was the one to choose from the beginning. -/
theorem Looking.chosen {p t : BlockPtr} {l : List BlockPtr} (h : Looking cons s1 best s)
    (hp : rbegin s.mapBlockIndex s.setBlockIndexValid = some p)
    (hbranch : Branch s.mapBlockIndex p l t) : Chosen s1 p l t := by
  obtain ⟨hmem,hlast⟩ := rbegin_last hp
  refine ⟨h.set p hmem, h.back p l t hbranch, fun q hq l' t' hbranch' => ?_⟩
  have hq' := hlast q (h.kept q hq l' t' hbranch').1
  rw [workLess_iff, h.tree.workOf] at hq'
  rw [workLess_iff]
  exact hq'

/-- `ConnectBestBlock` stays on the chain of the checkpoint if what it would attach is. -/
theorem connectBestBlock_holds {io : ℕ → BlockPtr → ChainIO} {fuel depth : ℕ}
    (h : Holds cons hash s1) (hleads : LeadsTo s1 hash) {exit : ChainExit}
    (hrun : connectBestBlock cons sync io (fuel+1) depth s1 = (exit,s')) :
    HoldsBest cons hash s' ∧ (exit = .ok → Holds cons hash s') := by
  obtain ⟨best,htip,hanc⟩ := h
  have hholds : ∀ s, Looking cons s1 best s → Holds cons hash s := fun s hs =>
    ⟨best, hs.tip, by rwa [hs.tree.parentOf]⟩
  rw [connectBestBlock] at hrun
  refine bestLoop_rule (Q := Looking cons s1 best)
    (R := fun exit s' => HoldsBest cons hash s' ∧ (exit = .ok → Holds cons hash s'))
    (fun s hs => ⟨best, hs.tip⟩) (fun s hs _ => ⟨(hholds s hs).holdsBest, fun _ => hholds s hs⟩)
    (fun s _ _ hs _ _ _ => ⟨(hholds s hs).holdsBest, fun _ => hholds s hs⟩) ?_
    (fun s s' p t l hs _ hfailed hm => hs.marked hfailed hm) (Looking.start htip)
    (Nat.lt_succ_self _) hrun
  intro s p l t exit s' hs hp hbranch hattach
  have hchosen := hs.chosen hp hbranch
  have hqueued : ∀ q ∈ ((l ++ [t]).filter (heavier s.mapBlockIndex s.pindexBest)).reverse,
      (s1.mapBlockIndex q).isSome = true ∧ Anc (parentOf s1.mapBlockIndex) q hash := by
    intro q hq
    rw [List.mem_reverse, List.mem_filter] at hq
    obtain ⟨hmem,hheavy⟩ := hq
    refine ⟨hchosen.branch.isSome hmem, hleads p l t hchosen q hmem ?_⟩
    rw [heavier, hs.tip.pindexBest, Option.all_some, hs.tree.workOf] at hheavy
    rw [heavier, htip.pindexBest, Option.all_some]
    exact hheavy
  -- the tree stays the same while blocks are attached
  refine attach_rule (Q := fun s => Holds cons hash s ∧ SameTree s1.mapBlockIndex s.mapBlockIndex)
    (R := fun exit s' => HoldsBest cons hash s' ∧ (exit = .ok → Holds cons hash s'))
    (fun s h => ⟨h.1.holdsBest, fun _ => h.1⟩) ?_ ⟨hholds s hs, hs.tree⟩ ?_ hattach
  · rintro s q hq exit s' ⟨hs,htree⟩ hmem hset
    obtain ⟨hbest,hok⟩ := setBestChain_holds hs hmem
      (by rw [htree.parentOf]; exact (hqueued q hq).2) hset
    have hnew : exit = .ok → Holds cons hash s' ∧ SameTree s.mapBlockIndex s'.mapBlockIndex := by
      intro hexit
      obtain ⟨htip',htree'⟩ := hok hexit
      refine ⟨⟨q, htip', ?_⟩, htree'⟩
      rw [(htree.trans htree').parentOf]
      exact (hqueued q hq).2
    exact ⟨⟨hbest, fun hexit => (hnew hexit).1⟩, fun hexit =>
      ⟨⟨(hnew hexit).1, htree.trans (hnew hexit).2⟩, (hnew hexit).2⟩⟩
  · intro q hq
    rw [hs.tree.isSome]
    exact (hqueued q hq).1

/-- `AddToBlockIndex` does so too. -/
theorem addToBlockIndex_holds {io : AddIO} {fuel : ℕ} {block : CBlock} (h : Holds cons hash s)
    (hnew : s.mapBlockIndex (block.getHash cons.ext) = none)
    (hprev : (s.mapBlockIndex block.hashPrevBlock).isSome = true)
    (hleads : io.writeBlockIndex = true → LeadsTo (insertIndex cons s block) hash)
    {exit : ChainExit} (hrun : addToBlockIndex cons sync io fuel block s = (exit,s')) :
    HoldsBest cons hash s' ∧ (exit = .ok → Holds cons hash s') := by
  have hinsert : Holds cons hash (insertIndex cons s block) := by
    obtain ⟨best,htip,hanc⟩ := h
    exact ⟨best, insertIndex_tip htip hnew hprev, (insertIndex_anc hnew htip.tree htip.mem).mpr hanc⟩
  rw [addToBlockIndex, hnew, Option.isSome_none, if_neg Bool.false_ne_true] at hrun
  by_cases hwrite : io.writeBlockIndex = true
  · rw [hwrite, Bool.not_true, if_neg Bool.false_ne_true] at hrun
    dsimp only at hrun
    generalize hr : connectBestBlock cons sync io.chain (fuel+1) 0 (insertIndex cons s block) = r
      at hrun
    obtain ⟨exit1,s1⟩ := r
    obtain ⟨hbest,hok⟩ := connectBestBlock_holds hinsert (hleads hwrite) hr
    split_ifs at hrun
    · obtain ⟨rfl,rfl⟩ := Prod.mk.inj hrun
      exact ⟨hbest, fun h => by cases h⟩
    · obtain ⟨rfl,rfl⟩ := Prod.mk.inj hrun
      exact ⟨hbest, hok⟩
  · rw [Bool.not_eq_true] at hwrite
    rw [hwrite, Bool.not_false, if_pos rfl] at hrun
    obtain ⟨rfl,rfl⟩ := Prod.mk.inj hrun
    exact ⟨hinsert.holdsBest, fun h => by cases h⟩

/-- Everything descends from the genesis block. -/
theorem TipAt.leadsTo_genesis (h : TipAt cons s best) : LeadsTo s cons.hashGenesisBlock :=
  fun _ _ _ hchosen _ hq _ => h.tree.anc_root (hchosen.branch.isSome hq)

end Select

section Steps
variable {W : Type} {cons : Consensus} {net : NetParams} {sync : WalletSync W} {fuel : ℕ}
  {s : SyncState W}

theorem Holds.validate_iff (h : Holds cons s.hashSyncCheckpoint s.node) (hashCheckpoint : Uint256) :
    (validateSyncCheckpoint s hashCheckpoint).1 = true ↔
      Below s.node.mapBlockIndex hashCheckpoint s.hashSyncCheckpoint := by
  obtain ⟨best,htip,hanc⟩ := h
  exact validateSyncCheckpoint_iff htip.indexOk (htip.tree.anc_mem htip.mem hanc) hashCheckpoint

/-- In enforce mode the chain has the new checkpoint after the switch, and still the old one. -/
theorem enforceCheckpoint_holds {io : SyncIO} (henforced : io.fEnforced = true)
    {hashCheckpoint : Uint256} (h : Holds cons s.hashSyncCheckpoint s.node)
    (hbelow : Below s.node.mapBlockIndex hashCheckpoint s.hashSyncCheckpoint) {switched : Bool}
    {s' : SyncState W} (hrun : enforceCheckpoint cons sync fuel io hashCheckpoint s = (switched,s')) :
    HoldsBest cons s.hashSyncCheckpoint s'.node ∧
      (switched = true → HoldsBest cons hashCheckpoint s'.node) := by
  obtain ⟨-,hmem,hanc⟩ := hbelow
  rw [enforceCheckpoint, henforced, Bool.true_and] at hrun
  split_ifs at hrun with hmain
  · generalize hset : setBestChain cons sync _ (io.chain 0 hashCheckpoint) hashCheckpoint s.node = r
      at hrun
    obtain ⟨exit,node⟩ := r
    obtain ⟨hbest,hok⟩ := setBestChain_holds h hmem hanc hset
    cases exit
    case ok =>
      obtain ⟨rfl,rfl⟩ := Prod.mk.inj hrun
      have hholds : Holds cons hashCheckpoint node := ⟨hashCheckpoint, (hok rfl).1, Anc.refl _⟩
      exact ⟨hbest, fun _ => hholds.holdsBest⟩
    all_goals
      obtain ⟨rfl,rfl⟩ := Prod.mk.inj hrun
      exact ⟨hbest, fun h => absurd h Bool.false_ne_true⟩
  · obtain ⟨rfl,rfl⟩ := Prod.mk.inj hrun
    rw [Bool.not_eq_true', Bool.not_eq_false] at hmain
    obtain ⟨best,htip,-⟩ := id h
    have hholds : Holds cons hashCheckpoint s.node :=
      ⟨best, htip, (htip.isInMainChain_iff hashCheckpoint).mp hmain⟩
    exact ⟨h.holdsBest, fun _ => hholds.holdsBest⟩

/-- The chain has the checkpoint after a move of it. -/
theorem moveSyncCheckpoint_holds {io : SyncIO} (henforced : io.fEnforced = true)
    (hashCheckpoint : Uint256) (h : Holds cons s.hashSyncCheckpoint s.node) :
    let s' := (moveSyncCheckpoint cons sync fuel io hashCheckpoint s).2.2
    HoldsBest cons s'.hashSyncCheckpoint s'.node := by
  have hiff := h.validate_iff hashCheckpoint
  obtain ⟨hashInvalid,hstate⟩ := validateSyncCheckpoint_state s hashCheckpoint
  rw [moveSyncCheckpoint]
  generalize validateSyncCheckpoint s hashCheckpoint = r at hiff hstate
  obtain ⟨valid,s1⟩ := r
  dsimp only at hstate
  rw [hstate]
  cases valid with
  | false => exact h.holdsBest
  | true =>
    dsimp only
    have hkept := @enforceCheckpoint_state W cons sync fuel io hashCheckpoint
      { s with hashInvalidCheckpoint := hashInvalid }
    generalize hr : enforceCheckpoint cons sync fuel io hashCheckpoint _ = r at hkept
    obtain ⟨switched,s2⟩ := r
    obtain ⟨hold,hnew⟩ := @enforceCheckpoint_holds W cons sync fuel
      { s with hashInvalidCheckpoint := hashInvalid } io henforced hashCheckpoint h (hiff.mp rfl)
      switched s2 hr
    obtain ⟨node,hashInvalid',hs2,-⟩ := hkept
    dsimp only at hs2
    rw [hs2] at hold hnew ⊢
    cases switched with
    | false => exact hold
    | true =>
      dsimp only
      rcases writeSyncCheckpoint_cases io hashCheckpoint
        { s with node := node, hashInvalidCheckpoint := hashInvalid' } with hwrite | hwrite
      · rw [hwrite]
        exact hold
      · rw [hwrite]
        exact hnew rfl

theorem acceptPendingSyncCheckpoint_holds {io : SyncIO} (henforced : io.fEnforced = true)
    (h : Holds cons s.hashSyncCheckpoint s.node) :
    let s' := (acceptPendingSyncCheckpoint cons sync fuel io s).2
    HoldsBest cons s'.hashSyncCheckpoint s'.node := by
  rw [acceptPendingSyncCheckpoint]
  split_ifs
  · have hmove := @moveSyncCheckpoint_holds W cons sync fuel s io henforced
      s.hashPendingCheckpoint h
    generalize moveSyncCheckpoint cons sync fuel io s.hashPendingCheckpoint s = r at hmove
    obtain ⟨valid,written,s1⟩ := r
    cases valid <;> cases written <;> exact hmove
  · exact h.holdsBest

theorem processSyncCheckpoint_holds {io : SyncIO} (henforced : io.fEnforced = true) (signed : Bool)
    (checkpoint : CSyncCheckpoint) (h : Holds cons s.hashSyncCheckpoint s.node) :
    let s' := (processSyncCheckpoint cons sync fuel io signed checkpoint s).2
    HoldsBest cons s'.hashSyncCheckpoint s'.node := by
  rw [processSyncCheckpoint]
  split_ifs
  · exact h.holdsBest
  · exact h.holdsBest
  · have hmove := @moveSyncCheckpoint_holds W cons sync fuel s io henforced
      checkpoint.hashCheckpoint h
    generalize moveSyncCheckpoint cons sync fuel io checkpoint.hashCheckpoint s = r at hmove
    obtain ⟨valid,written,s1⟩ := r
    cases written <;> exact hmove

theorem acceptBlockSync_holds {io : AcceptBlockIO} {syncOutcome : SyncIO} {block : CBlock}
    (henforced : syncOutcome.fEnforced = true) (h : Holds cons s.hashSyncCheckpoint s.node)
    (hstays : (SyncOp.acceptBlock io syncOutcome block).Stays cons net s) :
    let s' := (acceptBlockSync cons net sync fuel io syncOutcome block s).2
    HoldsBest cons s'.hashSyncCheckpoint s'.node := by
  rw [acceptBlockSync]
  generalize hr : acceptBlock cons net sync _ fuel block s.node = r
  obtain ⟨e,node⟩ := r
  have hroot : (s.node.mapBlockIndex cons.hashGenesisBlock).isSome = true := by
    obtain ⟨best,htip,-⟩ := h
    exact htip.tree.root_mem
  have hnode : HoldsBest cons s.hashSyncCheckpoint node ∧
      (e = none → Holds cons s.hashSyncCheckpoint node) := by
    rcases acceptBlock_run hroot hr with ⟨rfl,he⟩ | ⟨hpass,exit,hadd,hexit⟩
    · exact ⟨h.holdsBest, fun hnone => absurd hnone he⟩
    · obtain ⟨hbest,hok⟩ := addToBlockIndex_holds h hpass.fresh hpass.parent (hstays hpass) hadd
      exact ⟨hbest, fun hnone => hok (hexit hnone)⟩
  cases e with
  | some e => exact hnode.1
  | none =>
    have hpending := @acceptPendingSyncCheckpoint_holds W cons sync fuel { s with node := node }
      syncOutcome henforced (hnode.2 rfl)
    exact hpending

theorem SyncOp.exec_holds {op : SyncOp} (h : HoldsBest cons s.hashSyncCheckpoint s.node)
    (hmeets : StaysEnforced cons net s op) :
    let s' := op.exec cons net sync fuel s
    HoldsBest cons s'.hashSyncCheckpoint s'.node := by
  obtain ⟨henforced,hcoins,hstays⟩ := hmeets
  have hholds := h.holds hcoins
  cases op with
  | processSyncCheckpoint io signed checkpoint =>
    exact processSyncCheckpoint_holds henforced signed checkpoint hholds
  | acceptPendingSyncCheckpoint io => exact acceptPendingSyncCheckpoint_holds henforced hholds
  | acceptBlock io syncOutcome block => exact acceptBlockSync_holds henforced hholds hstays

end Steps

/-- In every run in enforce mode in which no block makes chain selection leave the chain of the
checkpoint, the best block is the checkpoint or a descendant of it. -/
theorem main_chain_keeps_checkpoint {W : Type} (cons : Consensus) (net : NetParams)
    (sync : WalletSync W) (fuel : ℕ) (start s : SyncState W)
    (htip : ∃ best, TipAt cons start.node best)
    (hgenesis : start.hashSyncCheckpoint = cons.hashGenesisBlock)
    (h : SyncRun cons net sync fuel (StaysEnforced cons net) start s) :
    ∃ best, s.node.pindexBest = some best ∧
      Anc (parentOf s.node.mapBlockIndex) best s.hashSyncCheckpoint := by
  have hstart : Holds cons start.hashSyncCheckpoint start.node := by
    obtain ⟨best,hbest⟩ := htip
    rw [hgenesis]
    exact ⟨best, hbest, hbest.tree.anc_root hbest.mem⟩
  have hrun : HoldsBest cons s.hashSyncCheckpoint s.node := by
    induction h with
    | start => exact hstart.holdsBest
    | step op _ hmeets ih => exact SyncOp.exec_holds ih hmeets
  obtain ⟨best,hbest,hanc,-⟩ := hrun
  exact ⟨best, hbest, hanc⟩

section TestNet

/-- The first block arrives in enforce mode and becomes the checkpoint. -/
theorem main_chain_keeps_checkpoint_testNet :
    syncState2.hashSyncCheckpoint = testHashA ∧ ∃ best, syncState2.node.pindexBest = some best ∧
      Anc (parentOf syncState2.node.mapBlockIndex) best testHashA := by
  have htip : TipAt lateNet syncStart.node lateNet.hashGenesisBlock := loadedGenesis_tip testGenesis ()
  have hrun : SyncRun lateNet testParams noWallet 1 (StaysEnforced lateNet testParams) syncStart
      syncState2 := by
    refine SyncRun.step syncCheckpointOp (SyncRun.step syncBlockOp SyncRun.start ⟨rfl, ?_, ?_⟩)
      ⟨rfl, ?_, trivial⟩
    · change getBestBlock syncStart.node.pcoinsTip = syncStart.node.pindexBest
      decide +kernel
    · intro hpass _
      exact (insertIndex_tip htip hpass.fresh hpass.parent).leadsTo_genesis
    · change getBestBlock syncState1.node.pcoinsTip = syncState1.node.pindexBest
      decide +kernel
  have hsync : syncState2.hashSyncCheckpoint = testHashA := by decide +kernel
  have hchain := main_chain_keeps_checkpoint lateNet testParams noWallet 1 syncStart syncState2
    ⟨_, htip⟩ rfl hrun
  rw [hsync] at hchain
  exact ⟨hsync, hchain⟩

def switchExternals : Externals where
  txHash := lateExternals.txHash
  blockHash header := if header = forkBlock.toCBlockHeader then forkHash
    else if header = greedyBlock.toCBlockHeader then greedyHash else lateExternals.blockHash header
  nodeHash := lateExternals.nodeHash
  verifyScript := lateExternals.verifyScript

def switchNet : Consensus := { testNet with ext := switchExternals }

def switchStart : SyncState Unit :=
  ⟨loadedGenesis switchNet testGenesis (), testGenesisHash, 0, 0, .null, .null⟩

def switchBlock (block : CBlock) : SyncOp := .acceptBlock lateAccept syncOutcome block

/-- The message that makes the fork the checkpoint. -/
def switchCheckpoint : SyncOp := .processSyncCheckpoint syncOutcome true ⟨1, forkHash, [], []⟩

def switchExec (op : SyncOp) (s : SyncState Unit) : SyncState Unit :=
  op.exec switchNet testParams noWallet 1 s

/-- A chain of three blocks, a fork from the genesis block, the fork as the checkpoint, and a block
on top of it. -/
def switchState1 : SyncState Unit := switchExec (switchBlock testBlockA) switchStart
def switchState2 : SyncState Unit := switchExec (switchBlock lateBlock) switchState1
def switchState3 : SyncState Unit := switchExec (switchBlock earlyBlock) switchState2
def switchState4 : SyncState Unit := switchExec (switchBlock forkBlock) switchState3
def switchState5 : SyncState Unit := switchExec switchCheckpoint switchState4
def switchState6 : SyncState Unit := switchExec (switchBlock greedyBlock) switchState5

theorem switch_step (s : SyncState Unit) (op : SyncOp) (henforced : op.fEnforced = true)
    (hcoins : getBestBlock s.node.pcoinsTip = s.node.pindexBest)
    (h : SyncRun switchNet testParams noWallet 1
      (fun s op => op.fEnforced = true ∧ CoinsAtBest s.node) switchStart s) :
    SyncRun switchNet testParams noWallet 1 (fun s op => op.fEnforced = true ∧ CoinsAtBest s.node)
      switchStart (switchExec op s) :=
  SyncRun.step op h ⟨henforced, hcoins⟩

/-- The checkpoint switches the chain, and the block on top of it switches it back to the three
blocks. -/
theorem checkpoint_leaves_main_chain :
    (∃ best, TipAt switchNet switchStart.node best) ∧
    switchStart.hashSyncCheckpoint = switchNet.hashGenesisBlock ∧
    SyncRun switchNet testParams noWallet 1 (fun s op => op.fEnforced = true ∧ CoinsAtBest s.node)
      switchStart switchState6 ∧
    switchState5.node.pindexBest = some forkHash ∧ switchState6.hashSyncCheckpoint = forkHash ∧
    switchState6.node.pindexBest = some earlyHash ∧
    ¬ Anc (parentOf switchState6.node.mapBlockIndex) earlyHash forkHash := by
  have htip : TipAt switchNet switchStart.node switchNet.hashGenesisBlock :=
    loadedGenesis_tip testGenesis ()
  have hrun : SyncRun switchNet testParams noWallet 1
      (fun s op => op.fEnforced = true ∧ CoinsAtBest s.node) switchStart switchState6 := by
    apply switch_step switchState5 (switchBlock greedyBlock) rfl (by decide +kernel)
    apply switch_step switchState4 switchCheckpoint rfl (by decide +kernel)
    apply switch_step switchState3 (switchBlock forkBlock) rfl (by decide +kernel)
    apply switch_step switchState2 (switchBlock earlyBlock) rfl (by decide +kernel)
    apply switch_step switchState1 (switchBlock lateBlock) rfl (by decide +kernel)
    exact switch_step switchStart (switchBlock testBlockA) rfl (by decide +kernel) SyncRun.start
  refine ⟨⟨_, htip⟩, rfl, hrun, by decide +kernel, by decide +kernel, by decide +kernel, ?_⟩
  -- the block of the chain at the height of the checkpoint is another one
  have hok : SyncOk switchNet switchState6 :=
    hrun.syncOk ⟨htip.indexOk, htip.mem⟩
  obtain ⟨r,hr,-,-,hiff⟩ := hok.index.traceBack (p := earlyHash) (q := forkHash) (by decide +kernel)
    (by decide +kernel)
  have hother : traceBack switchState6.node.mapBlockIndex
      (heightOf switchState6.node.mapBlockIndex forkHash) earlyHash = some testHashA := by
    decide +kernel
  rw [← hiff, Option.some.inj (hr.symm.trans hother)]
  decide

end TestNet

end Candypool.Chain
