import Candypool.Chain.Tip

/-! `ConnectBestBlock`: the heaviest candidate, the walk back from it, the marking of
descendants of a failed block, and an invariant rule for the two loops, with their
termination. -/
namespace Candypool.Chain
open Candypool.Prime Candypool.Core Candypool.Coins Candypool.Lib

section Search
variable {m : BlockPtr → Option CBlockIndex} {root : BlockPtr}

theorem workLess_iff (p q : BlockPtr) : workLess m p q = true ↔
    workOf m p < workOf m q ∨ workOf m p = workOf m q ∧ q < p := by
  rw [workLess]
  by_cases hgt : workOf m p > workOf m q
  · rw [if_pos hgt]
    refine ⟨fun h => absurd h Bool.false_ne_true, fun h => ?_⟩
    bv_omega
  · rw [if_neg hgt]
    by_cases hlt : workOf m p < workOf m q
    · rw [if_pos hlt]
      exact ⟨fun _ => Or.inl hlt, fun _ => rfl⟩
    · rw [if_neg hlt, decide_eq_true_eq]
      bv_omega

theorem rbegin_none {ps : List BlockPtr} (h : rbegin m ps = none) : ps = [] := by
  cases ps with
  | nil => rfl
  | cons p ps =>
    rw [rbegin] at h
    split at h
    · cases h
    · split_ifs at h

/-- The last candidate is one of them, and none comes after it. -/
theorem rbegin_last {ps : List BlockPtr} {p : BlockPtr} (h : rbegin m ps = some p) :
    p ∈ ps ∧ ∀ q ∈ ps, ¬ workLess m p q = true := by
  induction ps generalizing p with
  | nil => cases h
  | cons a ps ih =>
    -- no block has less work than itself
    have hself : ¬ workLess m a a = true := by
      rw [workLess_iff]
      bv_omega
    rw [rbegin] at h
    cases hrest : rbegin m ps with
    | none =>
      rw [hrest] at h
      obtain rfl := Option.some.inj h
      refine ⟨List.mem_cons_self, fun q hq => ?_⟩
      rw [rbegin_none hrest, List.mem_singleton] at hq
      rw [hq]
      exact hself
    | some b =>
      obtain ⟨hmem,hlast⟩ := ih hrest
      rw [hrest] at h
      dsimp only at h
      -- the greatest of the rest, against the first entry
      by_cases hless : workLess m a b = true
      · rw [if_pos hless] at h
        obtain rfl := Option.some.inj h
        refine ⟨List.mem_cons_of_mem _ hmem, fun q hq => ?_⟩
        rcases List.mem_cons.mp hq with rfl | hq
        · rw [workLess_iff] at hless ⊢
          bv_omega
        · exact hlast q hq
      · rw [if_neg hless] at h
        obtain rfl := Option.some.inj h
        refine ⟨List.mem_cons_self, fun q hq => ?_⟩
        rcases List.mem_cons.mp hq with rfl | hq
        · exact hself
        · have hq' := hlast q hq
          rw [workLess_iff] at hless hq' ⊢
          bv_omega

theorem rbegin_spec {ps : List BlockPtr} {p : BlockPtr} (h : rbegin m ps = some p) :
    p ∈ ps ∧ ∀ q ∈ ps, workOf m q ≤ workOf m p := by
  obtain ⟨hmem,hlast⟩ := rbegin_last h
  refine ⟨hmem, fun q hq => ?_⟩
  have hq' := hlast q hq
  rw [workLess_iff] at hq'
  bv_omega

/-- The condition under which the walk queues a block. -/
def heavier (m : BlockPtr → Option CBlockIndex) (pindexBest : Option BlockPtr) (p : BlockPtr) :
    Bool := pindexBest.all fun best => decide (workOf m p > workOf m best)

/-- The way from a block back to the main chain, with no failed block on it. -/
structure Branch (m : BlockPtr → Option CBlockIndex) (p : BlockPtr) (l : List BlockPtr)
    (t : BlockPtr) : Prop where
  path : Path (parentOf m) p l t
  off : ∀ q ∈ l, nextOf m q = none
  good : ∀ q ∈ l ++ [t], (m q).map isFailed = some false
  stop : parentOf m t = none ∨ (nextOf m t).isSome = true

/-- The way from a block back to the first failed one. -/
structure FailedBranch (m : BlockPtr → Option CBlockIndex) (p : BlockPtr) (l : List BlockPtr)
    (t : BlockPtr) : Prop where
  path : Path (parentOf m) p l t
  off : ∀ q ∈ l, nextOf m q = none
  failed : (m t).map isFailed = some true

theorem Branch.isSome {p t : BlockPtr} {l : List BlockPtr} (h : Branch m p l t) {q : BlockPtr}
    (hq : q ∈ l ++ [t]) : (m q).isSome = true := by
  have hgood := h.good q hq
  cases hentry : m q with
  | none =>
    rw [hentry] at hgood
    cases hgood
  | some pindex => rfl

/-- The walk back from a candidate meets a failed block, or ends at a block of the main chain
that has a successor, or at the root; then the blocks on the way that are heavier than the best
one are queued, the lowest first. -/
theorem checkAncestry_spec (ht : TreeOk root m) (pindexBest : Option BlockPtr) {fuel : ℕ}
    {p : BlockPtr} (hp : (m p).isSome = true) (hfuel : heightOf m p < fuel)
    (vAttach : List BlockPtr) :
    (∃ l t, checkAncestry m pindexBest fuel p vAttach = some (.failed t) ∧
      FailedBranch m p l t) ∨
    ∃ l t, checkAncestry m pindexBest fuel p vAttach =
        some (.attach (((l ++ [t]).filter (heavier m pindexBest)).reverse ++ vAttach)) ∧
      Branch m p l t := by
  induction fuel generalizing p vAttach with
  | zero => omega
  | succ fuel ih =>
    obtain ⟨test,htest⟩ := Option.isSome_iff_exists.mp hp
    rw [checkAncestry, htest]
    dsimp only
    by_cases hfailed : isFailed test = true
    · rw [if_pos hfailed]
      exact Or.inl ⟨[], p, rfl, Path.nil p, fun q hq => absurd hq List.not_mem_nil,
        by rw [htest, Option.map_some, hfailed]⟩
    rw [if_neg hfailed]
    have hgood : (m p).map isFailed = some false := by
      rw [Bool.not_eq_true] at hfailed
      rw [htest, Option.map_some, hfailed]
    have hheavy : (pindexBest.all fun best => decide (test.nChainWork > workOf m best)) =
        heavier m pindexBest p := by
      rw [heavier, workOf, htest]
      rfl
    rw [hheavy]
    have hparent : parentOf m p = test.pprev := by rw [parentOf, htest, Option.bind_some]
    have hnext : nextOf m p = test.pnext := by rw [nextOf, htest, Option.bind_some]
    -- the queue after this block
    have hqueue : (if heavier m pindexBest p = true then p :: vAttach else vAttach) =
        (([p].filter (heavier m pindexBest)).reverse ++ vAttach) := by
      rw [List.filter_singleton]
      cases heavier m pindexBest p <;> rfl
    rw [hqueue]
    split
    · rename_i pprev hprev hnone
      rw [hprev] at hparent
      rw [hnone] at hnext
      obtain ⟨hmem,hheight⟩ := ht.of_parent hp hparent
      have hoff : ∀ l : List BlockPtr, (∀ q ∈ l, nextOf m q = none) →
          ∀ q ∈ p :: l, nextOf m q = none := by
        intro l hl q hq
        rcases List.mem_cons.mp hq with rfl | hq
        · exact hnext
        · exact hl q hq
      rcases ih hmem (by omega) (([p].filter (heavier m pindexBest)).reverse ++ vAttach) with
        ⟨l,t,hcheck,hbranch⟩ | ⟨l,t,hcheck,hbranch⟩
      · exact Or.inl ⟨p :: l, t, hcheck, Path.cons hparent hbranch.path, hoff l hbranch.off,
          hbranch.failed⟩
      · refine Or.inr ⟨p :: l, t, ?_, Path.cons hparent hbranch.path, hoff l hbranch.off, ?_,
          hbranch.stop⟩
        · have hsplit : p :: l ++ [t] = [p] ++ (l ++ [t]) := rfl
          rw [hcheck, hsplit, List.filter_append [p], List.reverse_append, List.append_assoc]
        · intro q hq
          rcases List.mem_cons.mp hq with rfl | hq
          · exact hgood
          · exact hbranch.good q hq
    · rename_i hstop
      refine Or.inr ⟨[], p, rfl, Path.nil p, fun q hq => absurd hq List.not_mem_nil, ?_, ?_⟩
      · intro q hq
        rw [List.nil_append, List.mem_singleton] at hq
        rw [hq]
        exact hgood
      · rw [hparent, hnext]
        cases hprev : test.pprev with
        | none => exact Or.inl rfl
        | some pprev =>
          cases hn : test.pnext with
          | none => exact absurd hn (hstop pprev hprev)
          | some q => exact Or.inr rfl

end Search

section Mark
variable {W : Type}

/-- The blocks in `l` were found to descend from a failed block. -/
structure Marked (l : List BlockPtr) (s s' : NodeState W) : Prop where
  same : SameChain s s'
  undoFile : s'.undoFile = s.undoFile
  wallet : s'.wallet = s.wallet
  set : s'.setBlockIndexValid = s.setBlockIndexValid.filter (· ∉ l)
  failed : ∀ p ∈ l, (s'.mapBlockIndex p).map isFailed = (s.mapBlockIndex p).map fun _ => true
  others : ∀ p, p ∉ l → (s'.mapBlockIndex p).map isFailed = (s.mapBlockIndex p).map isFailed
  kept : ∀ {β : Type} (g : CBlockIndex → β),
    (∀ (pindex : CBlockIndex) (status : BlockStatus), status.haveUndo = pindex.nStatus.haveUndo →
      g { pindex with nStatus := status } = g pindex) →
    ∀ p, (s'.mapBlockIndex p).map g = (s.mapBlockIndex p).map g

theorem Marked.nil (s : NodeState W) : Marked [] s s := by
  refine ⟨SameChain.refl s, rfl, rfl, ?_, ?_, fun _ _ => rfl, fun _ _ _ => rfl⟩
  · simp
  · intro p hp
    cases hp

theorem Marked.invalidChainFound {l : List BlockPtr} {s s' : NodeState W} (h : Marked l s s')
    (p : BlockPtr) : Marked l s (s'.invalidChainFound p) := by
  obtain ⟨hsame,-⟩ := invalidChainFound_same s' p
  obtain ⟨w,hw⟩ := invalidChainFound_eq s' p
  rw [hw] at hsame ⊢
  exact ⟨h.same.trans hsame, h.undoFile, h.wallet, h.set, h.failed, h.others, h.kept⟩

/-- The loop that marks descendants failed marks them and nothing else. -/
theorem markFailed_spec (l : List BlockPtr) (s : NodeState W) : Marked l s (markFailed s l) := by
  induction l generalizing s with
  | nil => exact Marked.nil s
  | cons p l ih =>
    -- the first block, then the rest by induction
    generalize hs1 : ({ s with
      mapBlockIndex := modifyIndex s.mapBlockIndex p fun pindex =>
        { pindex with nStatus := { pindex.nStatus with failedChild := true } }
      setBlockIndexValid := s.setBlockIndexValid.filter (· ≠ p) } : NodeState W) = s1
    have hstep : markFailed s (p :: l) = markFailed s1 l := by
      rw [← hs1, markFailed, List.foldl_cons]
      rfl
    have hmap : s1.mapBlockIndex = modifyIndex s.mapBlockIndex p fun pindex =>
        { pindex with nStatus := { pindex.nStatus with failedChild := true } } := by rw [← hs1]
    have hself : (s1.mapBlockIndex p).map isFailed = (s.mapBlockIndex p).map fun _ => true := by
      rw [hmap, modifyIndex_self, Option.map_map]
      congr 1
      ext pindex
      exact Bool.or_true _
    have hother : ∀ q, q ≠ p → s1.mapBlockIndex q = s.mapBlockIndex q := by
      intro q hq
      rw [hmap, modifyIndex_ne hq]
    have hsame : SameChain s s1 := by
      rw [← hs1]
      exact ⟨rfl, rfl, rfl, rfl, rfl, rfl, rfl, rfl, rfl, modifyIndex_map fixed fun _ _ => rfl,
        nextOf_eq_of_map (modifyIndex_map CBlockIndex.pnext fun _ _ => rfl)⟩
    have hrest := ih s1
    rw [hstep]
    refine ⟨hsame.trans hrest.same, ?_, ?_, ?_, ?_, ?_, ?_⟩
    · rw [hrest.undoFile, ← hs1]
    · rw [hrest.wallet, ← hs1]
    · rw [hrest.set, ← hs1, List.filter_filter]
      congr 1
      ext q
      simp [Bool.and_comm]
    · intro q hq
      by_cases hql : q ∈ l
      · rw [hrest.failed q hql]
        have htree := congrArg (Option.map fun _ => true) (hsame.tree q)
        rw [Option.map_map, Option.map_map] at htree
        exact htree
      · obtain rfl : q = p := (List.mem_cons.mp hq).resolve_right hql
        rw [hrest.others q hql]
        exact hself
    · intro q hq
      rw [List.mem_cons, not_or] at hq
      rw [hrest.others q hq.2, hother q hq.1]
    · intro β g hg q
      rw [hrest.kept g hg q, hmap]
      apply modifyIndex_map
      intro pindex _
      exact hg pindex { pindex.nStatus with failedChild := true } rfl

theorem TipAt.marked {cons : Consensus} {l : List BlockPtr} {s s' : NodeState W} {best : BlockPtr}
    (h : TipAt cons s best) (hm : Marked l s s') : TipAt cons s' best := by
  apply h.of_same hm.same
  intro p hp
  rw [hm.set, List.mem_filter, decide_eq_true_eq] at hp
  exact (hm.others p hp.2).trans (h.candidates p hp.1)

end Mark

section Loops
variable {W : Type} {cons : Consensus} {setBest : BlockPtr → NodeState W → ChainExit × NodeState W}

/-- The call returned. -/
def Proper : ChainExit → Prop
  | .assertion => False
  | .unfinished => False
  | _ => True

theorem ChainExit.Early.proper {exit : ChainExit} (h : exit.Early) : Proper exit := by
  rcases h with rfl | rfl | ⟨e,rfl⟩ <;> trivial

/-- The invariant rule of the outer loop of `ConnectBestBlock`: `Q` is kept by a turn that finds
a failed block, and gives `R` in the turn that ends the loop. The loop ends, because a turn that
finds a failed block takes the candidate out of the set. -/
theorem bestLoop_rule {Q : NodeState W → Prop} {R : ChainExit → NodeState W → Prop}
    (htip : ∀ s, Q s → ∃ best, TipAt cons s best)
    (hempty : ∀ s, Q s → rbegin s.mapBlockIndex s.setBlockIndexValid = none → R .ok s)
    (hsame : ∀ s best p, Q s → s.pindexBest = some best →
      rbegin s.mapBlockIndex s.setBlockIndexValid = some p →
      (best = p ∨ workOf s.mapBlockIndex p = workOf s.mapBlockIndex best) → R .ok s)
    (hattach : ∀ s p l t exit s', Q s → rbegin s.mapBlockIndex s.setBlockIndexValid = some p →
      Branch s.mapBlockIndex p l t →
      attach setBest ((l ++ [t]).filter (heavier s.mapBlockIndex s.pindexBest)).reverse s =
        (exit,s') → R exit s')
    (hmark : ∀ s s' p t l, Q s → rbegin s.mapBlockIndex s.setBlockIndexValid = some p →
      FailedBranch s.mapBlockIndex p l t → Marked l s s' → Q s')
    {fuel : ℕ} {s : NodeState W} (hQ : Q s) (hfuel : s.setBlockIndexValid.length < fuel)
    {exit : ChainExit} {s' : NodeState W} (h : bestLoop setBest fuel s = (exit,s')) : R exit s' := by
  induction fuel generalizing s with
  | zero => omega
  | succ fuel ih =>
    obtain ⟨best,hbest⟩ := htip s hQ
    rw [bestLoop] at h
    split at h
    · rename_i hnone
      obtain ⟨rfl,rfl⟩ := Prod.mk.inj h
      exact hempty s hQ hnone
    rename_i p hp
    obtain ⟨hmem,-⟩ := rbegin_spec hp
    have hgood := hbest.candidates p hmem
    have hsome : (s.mapBlockIndex p).isSome = true := by
      cases hentry : s.mapBlockIndex p with
      | none => rw [hentry] at hgood; cases hgood
      | some pindex => rfl
    split at h
    · rename_i hcond
      rw [hbest.pindexBest, Option.any_some, Bool.or_eq_true, beq_iff_eq, beq_iff_eq] at hcond
      obtain ⟨rfl,rfl⟩ := Prod.mk.inj h
      exact hsame s best p hQ hbest.pindexBest hp hcond
    rcases checkAncestry_spec hbest.tree s.pindexBest hsome (Nat.lt_succ_self _) [] with
      ⟨l,t,hcheck,hbranch⟩ | ⟨l,t,hcheck,hbranch⟩
    · obtain ⟨l',hl,hpath⟩ :=
        hbest.tree.pathTo_spec hsome hbranch.path.anc (Nat.lt_succ_self _)
      obtain rfl := hpath.unique hbest.tree hbranch.path hsome
      rw [hcheck] at h
      dsimp only at h
      rw [hl] at h
      have hmarked := (markFailed_spec l' s).invalidChainFound p
      have hfailed := hbranch.failed
      apply ih (hmark s _ p t l' hQ hp hbranch hmarked) _ h
      -- the candidate itself is not failed, so it is below the failed block and leaves the set
      have hpl : p ∈ l' := by
        cases hpath with
        | nil => rw [hgood] at hfailed; cases hfailed
        | cons _ _ => exact List.mem_cons_self
      rw [hmarked.set]
      have hlt : (s.setBlockIndexValid.filter (· ∉ l')).length < s.setBlockIndexValid.length := by
        apply List.length_filter_lt_length_iff_exists.mpr
        exact ⟨p, hmem, by simp [hpl]⟩
      omega
    · rw [hcheck, List.append_nil] at h
      exact hattach s p l t exit s' hQ hp hbranch h

/-- The rule for attaching blocks one after the other: `Q` is kept by a block that is attached, and
`R` holds when the loop ends. -/
theorem attach_rule {Q : NodeState W → Prop} {R : ChainExit → NodeState W → Prop}
    {ps : List BlockPtr} (hdone : ∀ s, Q s → R .ok s)
    (hset : ∀ s, ∀ p ∈ ps, ∀ exit s', Q s → (s.mapBlockIndex p).isSome = true →
      setBest p s = (exit,s') → R exit s' ∧
        (exit = .ok → Q s' ∧ SameTree s.mapBlockIndex s'.mapBlockIndex))
    {s : NodeState W} (hQ : Q s) (hps : ∀ p ∈ ps, (s.mapBlockIndex p).isSome = true)
    {exit : ChainExit} {s' : NodeState W} (h : attach setBest ps s = (exit,s')) : R exit s' := by
  induction ps generalizing s with
  | nil =>
    obtain ⟨rfl,rfl⟩ := Prod.mk.inj h
    exact hdone s hQ
  | cons p ps ih =>
    rw [attach] at h
    generalize hr : setBest p s = r at h
    obtain ⟨exit1,s1⟩ := r
    obtain ⟨hR,hok⟩ := hset s p List.mem_cons_self exit1 s1 hQ (hps p List.mem_cons_self) hr
    split at h
    · rename_i s2 heq
      obtain ⟨rfl,rfl⟩ := Prod.mk.inj heq
      obtain ⟨hQ1,htree⟩ := hok rfl
      refine ih (fun s q hq => hset s q (List.mem_cons_of_mem _ hq)) hQ1 (fun q hq => ?_) h
      rw [htree.isSome]
      exact hps q (List.mem_cons_of_mem _ hq)
    · rename_i heq
      obtain ⟨rfl,rfl⟩ := Prod.mk.inj heq
      obtain ⟨rfl,rfl⟩ := Prod.mk.inj h
      exact hR

/-- The invariant rule of `ConnectBestBlock`: it returns, and keeps what `SetBestChain` and the
marking of failed blocks keep. -/
theorem connectBestBlock_keeps {sync : WalletSync W} {Q : NodeState W → Prop}
    {io : ℕ → BlockPtr → ChainIO} (htip : ∀ s, Q s → ∃ best, TipAt cons s best)
    (hset : ∀ nested depth s p exit s', Q s → (s.mapBlockIndex p).isSome = true →
      setBestChain cons sync nested (io depth p) p s = (exit,s') →
      Q s' ∧ Proper exit ∧ SameTree s.mapBlockIndex s'.mapBlockIndex)
    (hmark : ∀ l s s', Q s → Marked l s s' → Q s') {fuel depth : ℕ} {s : NodeState W} (hQ : Q s)
    {exit : ChainExit} {s' : NodeState W}
    (h : connectBestBlock cons sync io (fuel+1) depth s = (exit,s')) : Q s' ∧ Proper exit := by
  rw [connectBestBlock] at h
  refine bestLoop_rule (R := fun exit s' => Q s' ∧ Proper exit) htip (fun s hQ _ => ⟨hQ, trivial⟩)
    (fun s best p hQ _ _ _ => ⟨hQ, trivial⟩) ?_ (fun s s' p t l hQ _ _ => hmark l s s' hQ) hQ
    (Nat.lt_succ_self _) h
  intro s p l t exit s' hQ hp hbranch hattach
  refine attach_rule (R := fun exit s' => Q s' ∧ Proper exit) (fun s hQ => ⟨hQ, trivial⟩)
    (fun s p _ exit s' hQ hp hr => ?_) hQ (fun q hq => ?_) hattach
  · obtain ⟨hQ',hproper,htree⟩ := hset _ depth s p exit s' hQ hp hr
    exact ⟨⟨hQ', hproper⟩, fun _ => ⟨hQ', htree⟩⟩
  rw [List.mem_reverse, List.mem_filter] at hq
  exact hbranch.isSome hq.1

end Loops

section Insert
variable {W : Type} {cons : Consensus} {s : NodeState W} {block : CBlock} {best : BlockPtr}

theorem insertIndex_ne {p : BlockPtr} (h : p ≠ block.getHash cons.ext) :
    (insertIndex cons s block).mapBlockIndex p = s.mapBlockIndex p := Function.update_of_ne h _ _

theorem insertIndex_self : (insertIndex cons s block).mapBlockIndex (block.getHash cons.ext) =
    some (newIndex cons s.mapBlockIndex block) := Function.update_self _ _ _

/-- The entry of a block whose parent is known. -/
theorem newIndex_of_parent (hprev : (s.mapBlockIndex block.hashPrevBlock).isSome = true) :
    (newIndex cons s.mapBlockIndex block).pprev = some block.hashPrevBlock ∧
      (newIndex cons s.mapBlockIndex block).nHeight =
        heightOf s.mapBlockIndex block.hashPrevBlock+1 := by
  obtain ⟨pprev,hp⟩ := Option.isSome_iff_exists.mp hprev
  simp only [newIndex, hp, Option.map_some, Option.getD_some, and_self]

/-- A known entry is not that of a new block. -/
theorem ne_of_isSome (hnew : s.mapBlockIndex (block.getHash cons.ext) = none) {p : BlockPtr}
    (hp : (s.mapBlockIndex p).isSome = true) : p ≠ block.getHash cons.ext := by
  intro heq
  rw [heq, hnew] at hp
  cases hp

section Leaf
variable (hnew : s.mapBlockIndex (block.getHash cons.ext) = none)
include hnew

/-- What was known stays as it was. -/
theorem insertIndex_old {p : BlockPtr} (hp : (s.mapBlockIndex p).isSome = true) :
    (insertIndex cons s block).mapBlockIndex p = s.mapBlockIndex p :=
  insertIndex_ne (ne_of_isSome hnew hp)

theorem insertIndex_mem {p : BlockPtr} (hp : (s.mapBlockIndex p).isSome = true) :
    ((insertIndex cons s block).mapBlockIndex p).isSome = true := by
  rw [insertIndex_old hnew hp]
  exact hp

theorem insertIndex_parentOf {p : BlockPtr} (hp : (s.mapBlockIndex p).isSome = true) :
    parentOf (insertIndex cons s block).mapBlockIndex p = parentOf s.mapBlockIndex p := by
  rw [parentOf, insertIndex_old hnew hp, parentOf]

theorem insertIndex_heightOf {p : BlockPtr} (hp : (s.mapBlockIndex p).isSome = true) :
    heightOf (insertIndex cons s block).mapBlockIndex p = heightOf s.mapBlockIndex p := by
  rw [heightOf, insertIndex_old hnew hp, heightOf]

/-- The tree with one more leaf. -/
theorem insertIndex_tree {root : BlockPtr} (htree : TreeOk root s.mapBlockIndex)
    (hprev : (s.mapBlockIndex block.hashPrevBlock).isSome = true) :
    TreeOk root (insertIndex cons s block).mapBlockIndex := by
  obtain ⟨hpprev,hnHeight⟩ : (newIndex cons s.mapBlockIndex block).pprev = _ ∧ _ :=
    newIndex_of_parent hprev
  refine ⟨insertIndex_mem hnew htree.root_mem,
    (insertIndex_parentOf hnew htree.root_mem).trans htree.root_parent,
    (insertIndex_heightOf hnew htree.root_mem).trans htree.root_height, fun p hp hne => ?_⟩
  by_cases hself : p = block.getHash cons.ext
  · refine ⟨block.hashPrevBlock, ?_, insertIndex_mem hnew hprev, ?_⟩
    · rw [hself, parentOf, insertIndex_self, Option.bind_some, hpprev]
    · rw [insertIndex_heightOf hnew hprev, hself, heightOf, insertIndex_self]
      exact hnHeight
  · rw [insertIndex_ne hself] at hp
    obtain ⟨q,hq,hqmem,hqheight⟩ := htree.step p hp hne
    exact ⟨q, (insertIndex_parentOf hnew hp).trans hq, insertIndex_mem hnew hqmem,
      by rw [insertIndex_heightOf hnew hp, insertIndex_heightOf hnew hqmem]; exact hqheight⟩

omit hnew in
theorem insertIndex_hash (hhash : ∀ p pindex, s.mapBlockIndex p = some pindex →
      pindex.phashBlock = some p) {p : BlockPtr} {pindex : CBlockIndex}
    (hp : (insertIndex cons s block).mapBlockIndex p = some pindex) :
    pindex.phashBlock = some p := by
  by_cases hself : p = block.getHash cons.ext
  · rw [hself, insertIndex_self] at hp
    rw [← Option.some.inj hp, hself]
    rfl
  · rw [insertIndex_ne hself] at hp
    exact hhash p pindex hp

/-- A new leaf is above nothing that was there. -/
theorem insertIndex_anc {root p q : BlockPtr} (htree : TreeOk root s.mapBlockIndex)
    (hp : (s.mapBlockIndex p).isSome = true) :
    Anc (parentOf (insertIndex cons s block).mapBlockIndex) p q ↔ Anc (parentOf s.mapBlockIndex) p q :=
  htree.anc_congr (fun _ hx => insertIndex_parentOf hnew hx) hp

end Leaf

/-- A new leaf does not move the tip. -/
theorem insertIndex_tip (htip : TipAt cons s best)
    (hnew : s.mapBlockIndex (block.getHash cons.ext) = none)
    (hprev : (s.mapBlockIndex block.hashPrevBlock).isSome = true) :
    TipAt cons (insertIndex cons s block) best := by
  constructor
  · exact insertIndex_tree hnew htip.tree hprev
  · exact fun p pindex hp => insertIndex_hash htip.hash hp
  · intro p hp
    by_cases hself : p = block.getHash cons.ext
    · rw [hself, insertIndex_self]
      rfl
    · rw [insertIndex_ne hself]
      exact htip.candidates p ((List.mem_cons.mp hp).resolve_left hself)
  · exact insertIndex_mem hnew htip.mem
  · -- the best block of the coins is known, so the new entry cannot replace it
    have hcoins := htip.coins
    change s.pindexTip.or (s.pcoinsdbview.hashBestChain.filter _) = some best at hcoins
    change s.pindexTip.or (s.pcoinsdbview.hashBestChain.filter _) = some best
    cases hptr : s.pindexTip with
    | some p =>
      rw [hptr] at hcoins
      exact hcoins
    | none =>
      rw [hptr, Option.none_or, Option.filter_eq_some_iff] at hcoins
      rw [Option.none_or, Option.filter_eq_some_iff]
      exact ⟨hcoins.1, insertIndex_mem hnew hcoins.2⟩
  · exact htip.pindexBest
  · exact htip.hashBestChain
  · rw [insertIndex_heightOf hnew htip.mem]
    exact htip.nBestHeight
  · rw [workOf, insertIndex_old hnew htip.mem]
    exact htip.nBestChainWork
  · intro p q
    have hanc : Anc (parentOf (insertIndex cons s block).mapBlockIndex) best q ↔
        Anc (parentOf s.mapBlockIndex) best q := insertIndex_anc hnew htip.tree htip.mem
    have hiff := htip.next p q
    have hnext : nextOf (insertIndex cons s block).mapBlockIndex p = nextOf s.mapBlockIndex p := by
      by_cases hself : p = block.getHash cons.ext
      · rw [hself, nextOf, nextOf, insertIndex_self, hnew]
        rfl
      · rw [nextOf, insertIndex_ne hself, nextOf]
    rw [hnext, hiff, hanc]
    constructor
    · rintro ⟨hq,hbest⟩
      exact ⟨(insertIndex_parentOf hnew (htip.tree.anc_mem htip.mem hbest)).trans hq, hbest⟩
    · rintro ⟨hq,hbest⟩
      exact ⟨(insertIndex_parentOf hnew (htip.tree.anc_mem htip.mem hbest)).symm.trans hq, hbest⟩

end Insert

end Candypool.Chain
