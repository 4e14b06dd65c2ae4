import Candypool.Chain.Consistency

/-! Which block `ConnectBestBlock` ends on. Failed flags are set late: on the block that failed at
once, and on its descendants when they come up as the heaviest candidate. What carries the argument
is that a block without a failed ancestor is always a candidate, and that the new block is the only
one of them that may be heavier than the tip. -/
namespace Candypool.Chain
open Candypool.Prime Candypool.Core Candypool.Coins Candypool.Lib

/-- Neither the block nor an ancestor of it has a failed flag. -/
def Clean (m : BlockPtr → Option CBlockIndex) (p : BlockPtr) : Prop :=
  ∀ q, Anc (parentOf m) p q → (m q).map isFailed = some false

/-- The tip is clean and no clean block is heavier, but for a block `new` that is yet to be looked
at. -/
structure Selects {W : Type} (cons : Consensus) (new : Option BlockPtr) (s : NodeState W)
    (best : BlockPtr) : Prop where
  tip : TipAt cons s best
  clean : Clean s.mapBlockIndex best
  candidates : ∀ p, Clean s.mapBlockIndex p → p ∈ s.setBlockIndexValid
  heaviest : ∀ p, Clean s.mapBlockIndex p → new ≠ some p →
    workOf s.mapBlockIndex p ≤ workOf s.mapBlockIndex best

/-- The call was successful, or it was refused for the block: it is there already, or it or a block
before it is invalid. -/
def OnlyInvalid : ChainExit → Prop
  | .ok => True
  | .duplicate => True
  | .connect e => e.isInvalid = true
  | _ => False

section Clean
variable {m m' : BlockPtr → Option CBlockIndex} {p : BlockPtr}

theorem Clean.isSome (h : Clean m p) : (m p).isSome = true := by
  have hself := h p (Anc.refl p)
  cases hp : m p with
  | none =>
    rw [hp] at hself
    cases hself
  | some pindex => rfl

theorem Clean.anc {q : BlockPtr} (h : Clean m p) (hq : Anc (parentOf m) p q) : Clean m q :=
  fun x hx => h x (hq.trans hx)

/-- Cleanness only looks at the parents and the flags. -/
theorem Clean.congr (hparent : parentOf m' = parentOf m)
    (hflags : ∀ q, Anc (parentOf m) p q → (m' q).map isFailed = (m q).map isFailed) :
    Clean m' p ↔ Clean m p := by
  rw [Clean, Clean, hparent]
  constructor
  · intro h q hq
    rw [← hflags q hq]
    exact h q hq
  · intro h q hq
    rw [hflags q hq]
    exact h q hq

/-- A flagged block was there, so it is not clean. -/
theorem not_clean_of_flagged {q : BlockPtr} (hq : Anc (parentOf m) p q)
    (hflag : (m q).map isFailed = (m' q).map fun _ => true) : ¬ Clean m p := by
  intro hclean
  have hfalse := hclean q hq
  rw [hflag] at hfalse
  cases hentry : m' q with
  | none =>
    rw [hentry] at hfalse
    cases hfalse
  | some pindex =>
    rw [hentry] at hfalse
    cases hfalse

end Clean

section Steps
variable {W : Type} {cons : Consensus} {sync : WalletSync W} {s s' : NodeState W}
  {best p : BlockPtr} {new : Option BlockPtr}

/-- A tip that no candidate is heavier than is selected. -/
theorem Selects.all (h : Selects cons new s best)
    (hle : ∀ p ∈ s.setBlockIndexValid, workOf s.mapBlockIndex p ≤ workOf s.mapBlockIndex best) :
    Selects cons none s best :=
  ⟨h.tip, h.clean, h.candidates, fun p hp _ => hle p (h.candidates p hp)⟩

/-- Marking the descendants of a failed block marks no clean block. -/
theorem Selects.marked {l : List BlockPtr} {t : BlockPtr} (h : Selects cons new s best)
    (hpath : Path (parentOf s.mapBlockIndex) p l t)
    (hfailed : (s.mapBlockIndex t).map isFailed = some true) (hm : Marked l s s') :
    Selects cons new s' best := by
  have htree := hm.same.tree
  have hbelow : ∀ q ∈ l, ¬ Clean s.mapBlockIndex q := by
    intro q hq hclean
    have ht := hclean t (hpath.anc_end hq)
    rw [hfailed] at ht
    cases ht
  have hiff : ∀ q, Clean s'.mapBlockIndex q ↔ Clean s.mapBlockIndex q := by
    intro q
    by_cases hmeets : ∃ x ∈ l, Anc (parentOf s.mapBlockIndex) q x
    · -- such a block is clean neither before nor after
      obtain ⟨x,hx,hqx⟩ := hmeets
      constructor
      · intro hclean
        rw [← htree.parentOf] at hqx
        exact absurd hclean (not_clean_of_flagged hqx (hm.failed x hx))
      · intro hclean
        exact absurd (hclean.anc hqx) (hbelow x hx)
    · apply Clean.congr htree.parentOf
      intro x hx
      exact hm.others x fun hxl => hmeets ⟨x, hxl, hx⟩
  refine ⟨?_, (hiff best).mpr h.clean, ?_, ?_⟩
  · apply h.tip.of_same hm.same
    intro q hq
    rw [hm.set, List.mem_filter, decide_eq_true_eq] at hq
    exact (hm.others q hq.2).trans (h.tip.candidates q hq.1)
  · intro q hq
    have hclean := (hiff q).mp hq
    rw [hm.set, List.mem_filter, decide_eq_true_eq]
    exact ⟨h.candidates q hclean, fun hql => hbelow q hql hclean⟩
  · intro q hq hne
    rw [htree.workOf]
    exact h.heaviest q ((hiff q).mp hq) hne

/-- A clean block that is as heavy as the tip replaces it. -/
theorem Selects.moved (h : Selects cons new s best) (hclean : Clean s.mapBlockIndex p)
    (hnew : ∀ q, new = some q → q = p)
    (hwork : workOf s.mapBlockIndex best ≤ workOf s.mapBlockIndex p) (htip : TipAt cons s' p)
    (htree : SameTree s.mapBlockIndex s'.mapBlockIndex) (hflags : SameFlags s s') :
    Selects cons none s' p := by
  have hiff : ∀ q, Clean s'.mapBlockIndex q ↔ Clean s.mapBlockIndex q := fun q =>
    Clean.congr htree.parentOf fun x _ => hflags.failed x
  refine ⟨htip, (hiff p).mpr hclean, ?_, ?_⟩
  · intro q hq
    rw [hflags.set]
    exact h.candidates q ((hiff q).mp hq)
  · intro q hq _
    rw [htree.workOf]
    by_cases heq : q = p
    · rw [heq]
      exact BitVec.le_refl _
    · have hold := h.heaviest q ((hiff q).mp hq) fun hn => heq (hnew q hn)
      exact BitVec.le_trans hold hwork

/-- A block of the branch to the new block was found invalid: the tip stays, and the new block is
no longer clean. -/
theorem Selects.blamed {q : BlockPtr} (h : Selects cons new s best)
    (hnew : ∀ x, new = some x → x = p) (hq : OnBranch s.mapBlockIndex best p q)
    (hsame : SameChain s s') (hflag : Flagged q s s') : Selects cons none s' best := by
  have htree := hsame.tree
  -- what is clean afterwards was clean before and is not above the failed block
  have hback : ∀ x, Clean s'.mapBlockIndex x →
      ¬ Anc (parentOf s.mapBlockIndex) x q ∧ Clean s.mapBlockIndex x := by
    intro x hclean
    have hoff : ¬ Anc (parentOf s.mapBlockIndex) x q := by
      intro hxq
      rw [← htree.parentOf] at hxq
      exact not_clean_of_flagged hxq hflag.failed hclean
    refine ⟨hoff, (Clean.congr htree.parentOf fun y hy => ?_).mp hclean⟩
    exact hflag.others y fun heq => hoff (heq ▸ hy)
  have hbest : Clean s'.mapBlockIndex best := by
    refine (Clean.congr htree.parentOf fun y hy => ?_).mpr h.clean
    exact hflag.others y fun heq => hq.off (heq ▸ hy)
  refine ⟨h.tip.of_same hsame (hflag.candidates h.tip.candidates), hbest, ?_, ?_⟩
  · intro x hx
    obtain ⟨hoff,hclean⟩ := hback x hx
    rw [hflag.set, List.mem_filter, decide_eq_true_eq]
    refine ⟨h.candidates x hclean, fun heq => hoff ?_⟩
    rw [heq]
    exact Anc.refl q
  · intro x hx _
    obtain ⟨hoff,hclean⟩ := hback x hx
    rw [htree.workOf]
    apply h.heaviest x hclean
    intro hn
    exact hoff (hnew x hn ▸ hq.below)

/-- Attaching a clean block that is as heavy as the tip. The list has no other block in it, so a
failure leaves nothing behind that would have to be tried again. -/
theorem attach_selects {nested : NodeState W → ChainExit × NodeState W} {io : BlockPtr → ChainIO}
    {ps : List BlockPtr} (hps : ∀ q ∈ ps, q = p) (hnew : ∀ q, new = some q → q = p)
    (h : Selects cons new s best) (hdone : ps = [] → Selects cons none s best)
    (hclean : Clean s.mapBlockIndex p)
    (hwork : workOf s.mapBlockIndex best ≤ workOf s.mapBlockIndex p) {exit : ChainExit}
    (hattach : attach (fun p s => setBestChain cons sync nested (io p) p s) ps s = (exit,s'))
    (hexit : OnlyInvalid exit) : ∃ best, Selects cons none s' best := by
  induction ps generalizing s best new with
  | nil =>
    obtain ⟨-,rfl⟩ := Prod.mk.inj hattach
    exact ⟨best, hdone rfl⟩
  | cons q ps ih =>
    obtain rfl := hps q List.mem_cons_self
    rw [attach] at hattach
    generalize hr : setBestChain cons sync nested (io q) q s = r at hattach
    obtain ⟨exit1,s1⟩ := r
    rcases setBestChain_tip h.tip hclean.isSome hr with
      ⟨rfl,htip,htree,hflags,-⟩ | ⟨hearly,hsame,hblamed⟩ | ⟨-,hexit1,-⟩
    · have hmoved := h.moved hclean hnew hwork htip htree hflags
      dsimp only at hattach
      refine ih (fun x hx => hps x (List.mem_cons_of_mem _ hx)) (fun x hx => by cases hx) hmoved
        (fun _ => hmoved) hmoved.clean (BitVec.le_refl _) hattach
    · have hstop : exit = exit1 ∧ s' = s1 := by
        rcases hearly with rfl | rfl | ⟨e,rfl⟩ <;>
          exact ⟨(Prod.mk.inj hattach).1.symm, (Prod.mk.inj hattach).2.symm⟩
      obtain ⟨rfl,rfl⟩ := hstop
      rcases hblamed with ⟨-,hvalid⟩ | ⟨e,x,-,-,hx,hflag⟩
      · -- no other failure is left
        rcases hearly with rfl | rfl | ⟨e,rfl⟩
        · cases hexit
        · cases hexit
        · have htrue : e.isInvalid = true := hexit
          rw [hvalid e rfl] at htrue
          cases htrue
      · exact ⟨best, h.blamed hnew hx hsame hflag⟩
    · rcases hexit1 with rfl | rfl
      · obtain ⟨rfl,-⟩ := Prod.mk.inj hattach
        cases hexit
      · obtain ⟨rfl,-⟩ := Prod.mk.inj hattach
        cases hexit

/-- The walk back from the heaviest candidate met no failed block, so the candidate is clean. -/
theorem clean_of_path {l : List BlockPtr} {t : BlockPtr} (htip : TipAt cons s best)
    (hbest : Clean s.mapBlockIndex best) (hpath : Path (parentOf s.mapBlockIndex) p l t)
    (hgoods : ∀ q ∈ l ++ [t], (s.mapBlockIndex q).map isFailed = some false)
    (hend : parentOf s.mapBlockIndex t = none ∨ (nextOf s.mapBlockIndex t).isSome = true) :
    Clean s.mapBlockIndex p := by
  intro q hq
  rcases hpath.mem_or_anc hq with hmem | htq
  · exact hgoods q (List.mem_append_left _ hmem)
  have hlast : t ∈ l ++ [t] := List.mem_append_right _ (List.mem_singleton_self t)
  rcases hend with hroot | hnext
  · rcases htq.cases with heq | ⟨x,hx,-⟩
    · rw [← heq]
      exact hgoods t hlast
    · rw [hroot] at hx
      cases hx
  · -- the walk ended on the main chain
    obtain ⟨x,hx⟩ := Option.isSome_iff_exists.mp hnext
    obtain ⟨hparent,hanc⟩ := (htip.next t x).mp hx
    exact hbest q (hanc.trans (Anc.of_parent hparent htq))

/-- `ConnectBestBlock` selects the heaviest clean block, if only `new` can be heavier than the
tip. -/
theorem connectBestBlock_selects {io : ℕ → BlockPtr → ChainIO} {fuel depth : ℕ}
    (h : Selects cons new s best) {exit : ChainExit}
    (hrun : connectBestBlock cons sync io (fuel+1) depth s = (exit,s')) (hexit : OnlyInvalid exit) :
    ∃ best, Selects cons none s' best := by
  rw [connectBestBlock] at hrun
  have htip : ∀ s : NodeState W, (∃ best, Selects cons new s best) → ∃ best, TipAt cons s best :=
    fun s hs => hs.imp fun best hbest => hbest.tip
  refine bestLoop_rule (Q := fun s => ∃ best, Selects cons new s best)
    (R := fun exit s' => OnlyInvalid exit → ∃ best, Selects cons none s' best)
    htip ?_ ?_ ?_ ?_ ⟨best, h⟩ (Nat.lt_succ_self _) hrun hexit
  · rintro s ⟨best,hs⟩ hnone _
    refine ⟨best, hs.all fun p hp => ?_⟩
    rw [rbegin_none hnone] at hp
    cases hp
  · rintro s b p ⟨best,hs⟩ hb hp hcond _
    obtain rfl := Option.some.inj (hs.tip.pindexBest.symm.trans hb)
    obtain ⟨-,hmax⟩ := rbegin_spec hp
    refine ⟨best, hs.all fun q hq => ?_⟩
    rcases hcond with rfl | heq
    · exact hmax q hq
    · rw [← heq]
      exact hmax q hq
  · rintro s p l t exit s' ⟨best,hs⟩ hp ⟨hpath,-,hgoods,hend⟩ hattach hexit
    obtain ⟨-,hmax⟩ := rbegin_spec hp
    have hclean := clean_of_path hs.tip hs.clean hpath hgoods hend
    have hwork := hmax best (hs.candidates best hs.clean)
    have hqueued : ∀ q ∈ l ++ [t], Clean s.mapBlockIndex q := by
      intro q hq
      apply hclean.anc
      rcases List.mem_append.mp hq with hmem | hmem
      · exact hpath.anc_of_mem hmem
      · rw [List.mem_singleton.mp hmem]
        exact hpath.anc
    have hheavy : ∀ q, heavier s.mapBlockIndex s.pindexBest q = true →
        ¬ workOf s.mapBlockIndex q ≤ workOf s.mapBlockIndex best := by
      intro q hq hle
      rw [heavier, hs.tip.pindexBest, Option.all_some, decide_eq_true_eq] at hq
      exact BitVec.not_lt.mpr hle hq
    by_cases hpnew : new = some p
    · refine attach_selects (p := p) ?_ ?_ hs ?_ hclean hwork hattach hexit
      · intro q hq
        rw [List.mem_reverse, List.mem_filter] at hq
        -- only the new block can be heavier than the tip
        by_contra hne
        apply hheavy q hq.2
        apply hs.heaviest q (hqueued q hq.1)
        intro hqnew
        exact hne (Option.some.inj (hqnew.symm.trans hpnew))
      · intro q hq
        exact Option.some.inj (hq.symm.trans hpnew)
      · -- nothing is heavier than the tip
        intro hnil
        rw [List.reverse_eq_nil_iff, List.filter_eq_nil_iff] at hnil
        have hfirst : p ∈ l ++ [t] := by
          cases hpath with
          | nil => exact List.mem_singleton_self _
          | cons _ _ => exact List.mem_cons_self
        have hnot := hnil p hfirst
        rw [heavier, hs.tip.pindexBest, Option.all_some, decide_eq_true_eq] at hnot
        refine hs.all fun q hq => BitVec.le_trans (hmax q hq) (BitVec.not_lt.mp hnot)
    · -- an old candidate is not heavier, so the tip stays
      have hle := hs.heaviest p hclean hpnew
      have hselects : Selects cons none s best :=
        hs.all fun q hq => BitVec.le_trans (hmax q hq) hle
      have hnil : (l ++ [t]).filter (heavier s.mapBlockIndex s.pindexBest) = [] := by
        rw [List.filter_eq_nil_iff]
        intro q hq hheavier
        apply hheavy q hheavier
        exact BitVec.le_trans (hmax q (hs.candidates q (hqueued q hq))) hle
      rw [hnil] at hattach
      obtain ⟨-,rfl⟩ := Prod.mk.inj hattach
      exact ⟨best, hselects⟩
  · rintro s s' p t l ⟨best,hs⟩ _ hbranch hmarked
    exact ⟨best, hs.marked hbranch.path hbranch.failed hmarked⟩

/-- A new leaf is a candidate, and the rest is as it was. -/
theorem Selects.insert {block : CBlock} (h : Selects cons none s best)
    (hnew : s.mapBlockIndex (block.getHash cons.ext) = none)
    (hprev : (s.mapBlockIndex block.hashPrevBlock).isSome = true) :
    Selects cons (some (block.getHash cons.ext)) (insertIndex cons s block) best := by
  have hsame : ∀ p, (s.mapBlockIndex p).isSome = true →
      (insertIndex cons s block).mapBlockIndex p = s.mapBlockIndex p := fun p hp =>
    insertIndex_old hnew hp
  have hanc : ∀ p q, (s.mapBlockIndex p).isSome = true →
      (Anc (parentOf (insertIndex cons s block).mapBlockIndex) p q ↔
        Anc (parentOf s.mapBlockIndex) p q) := fun p q hp => insertIndex_anc hnew h.tip.tree hp
  -- a block that was there is clean exactly when it was clean before
  have hiff : ∀ p, (s.mapBlockIndex p).isSome = true →
      (Clean (insertIndex cons s block).mapBlockIndex p ↔ Clean s.mapBlockIndex p) := by
    intro p hp
    constructor
    · intro hclean q hq
      rw [← hsame q (h.tip.tree.anc_mem hp hq)]
      exact hclean q ((hanc p q hp).mpr hq)
    · intro hclean q hq
      have hq' := (hanc p q hp).mp hq
      rw [hsame q (h.tip.tree.anc_mem hp hq')]
      exact hclean q hq'
  have hold : ∀ p, Clean (insertIndex cons s block).mapBlockIndex p →
      p ≠ block.getHash cons.ext → Clean s.mapBlockIndex p := by
    intro p hclean hne
    have hp := hclean.isSome
    rw [insertIndex_ne hne] at hp
    exact (hiff p hp).mp hclean
  refine ⟨insertIndex_tip h.tip hnew hprev, (hiff best h.tip.mem).mpr h.clean, ?_, ?_⟩
  -- a clean block is the new one, or was a candidate before
  · intro p hclean
    by_cases hself : p = block.getHash cons.ext
    · rw [hself]
      exact List.mem_cons_self
    · exact List.mem_cons_of_mem _ (h.candidates p (hold p hclean hself))
  · intro p hclean hne
    have hp := hold p hclean fun heq => hne (heq ▸ rfl)
    rw [workOf, hsame p hp.isSome, workOf, hsame best h.tip.mem]
    exact h.heaviest p hp (by simp)

/-- `AddToBlockIndex` ends on the heaviest clean block. -/
theorem addToBlockIndex_selects {io : AddIO} {fuel : ℕ} {block : CBlock}
    (h : Selects cons none s best) (hprev : (s.mapBlockIndex block.hashPrevBlock).isSome = true)
    {exit : ChainExit} (hrun : addToBlockIndex cons sync io fuel block s = (exit,s'))
    (hexit : OnlyInvalid exit) : ∃ best, Selects cons none s' best := by
  rw [addToBlockIndex] at hrun
  by_cases hdup : (s.mapBlockIndex (block.getHash cons.ext)).isSome = true
  · rw [if_pos hdup] at hrun
    obtain ⟨-,rfl⟩ := Prod.mk.inj hrun
    exact ⟨best, h⟩
  rw [if_neg hdup] at hrun
  rw [Bool.not_eq_true, Option.isSome_eq_false_iff, Option.isNone_iff_eq_none] at hdup
  by_cases hwrite : (!io.writeBlockIndex) = true
  · rw [if_pos hwrite] at hrun
    obtain ⟨rfl,-⟩ := Prod.mk.inj hrun
    cases hexit
  rw [if_neg hwrite] at hrun
  dsimp only at hrun
  generalize hr : connectBestBlock cons sync io.chain (fuel+1) 0 (insertIndex cons s block) = r
    at hrun
  obtain ⟨exit1,s1⟩ := r
  split_ifs at hrun
  · obtain ⟨rfl,-⟩ := Prod.mk.inj hrun
    cases hexit
  · obtain ⟨rfl,rfl⟩ := Prod.mk.inj hrun
    exact connectBestBlock_selects (h.insert hdup hprev) hr hexit

end Steps

section Runs
variable {W : Type} (cons : Consensus) (sync : WalletSync W) (fuel : ℕ) (genesis : CBlock)
  (wallet : W)

theorem loadedGenesis_selects :
    Selects cons none (loadedGenesis cons genesis wallet) cons.hashGenesisBlock := by
  have htip : TipAt cons (loadedGenesis cons genesis wallet) cons.hashGenesisBlock :=
    loadedGenesis_tip genesis wallet
  have hself : (loadedGenesis cons genesis wallet).mapBlockIndex cons.hashGenesisBlock =
      some (genesisIndex cons genesis) := if_pos rfl
  have honly : ∀ p, ((loadedGenesis cons genesis wallet).mapBlockIndex p).isSome = true →
      p = cons.hashGenesisBlock := by
    intro p hp
    by_contra hne
    have hnone : (loadedGenesis cons genesis wallet).mapBlockIndex p = none := if_neg hne
    rw [hnone] at hp
    cases hp
  refine ⟨htip, fun q hq => ?_, fun p hclean => ?_, fun p hclean _ => ?_⟩
  · rw [honly q (htip.tree.anc_mem htip.mem hq), hself]
    rfl
  · rw [honly p hclean.isSome]
    exact List.mem_singleton_self _
  · rw [honly p hclean.isSome]
    exact BitVec.le_refl _

/-- A step of a run in which blocks arrive and fail only for being invalid. -/
def Op.Adds (s : NodeState W) (op : Op) : Prop :=
  (∃ block io, op = .addToBlockIndex block io) ∧ OnlyInvalid (op.exec cons sync fuel s).1

theorem reaches_selects {s : NodeState W} (h : Reaches cons sync fuel (Op.Adds cons sync fuel)
    (loadedGenesis cons genesis wallet) s) : ∃ best, Selects cons none s best := by
  refine h.invariant (Q := fun s => ∃ best, Selects cons none s best)
    ⟨_, loadedGenesis_selects cons genesis wallet⟩ ?_
  rintro s op ⟨best,hs⟩ hcalled ⟨⟨block,io,rfl⟩,hexit⟩
  generalize hr : Op.exec cons sync fuel s (.addToBlockIndex block io) = r at hexit
  exact addToBlockIndex_selects hs hcalled hr hexit

/-- After every call of a run in which blocks arrive, parents first, and fail only for being
invalid: the best block has no failed ancestor, no block without one is heavier, no candidate has
a failed flag, and the loops of the next call end. -/
theorem best_chain_selected (s : NodeState W) (h : Reaches cons sync fuel
      (Op.Adds cons sync fuel) (loadedGenesis cons genesis wallet) s) :
    (∃ best, s.pindexBest = some best ∧
      (∀ q, Anc (parentOf s.mapBlockIndex) best q →
        (s.mapBlockIndex q).map isFailed = some false) ∧
      ∀ p, (∀ q, Anc (parentOf s.mapBlockIndex) p q →
          (s.mapBlockIndex q).map isFailed = some false) →
        workOf s.mapBlockIndex p ≤ workOf s.mapBlockIndex best) ∧
    (∀ p ∈ s.setBlockIndexValid, (s.mapBlockIndex p).map isFailed = some false) ∧
    ∀ op : Op, op.Called s → op.Flushes → Proper (op.exec cons sync fuel s).1 := by
  obtain ⟨best,hs⟩ := reaches_selects cons sync fuel genesis wallet h
  refine ⟨⟨best, hs.tip.pindexBest, hs.clean, fun p hp => hs.heaviest p hp (by simp)⟩,
    hs.tip.candidates, fun op hcalled hflush => ?_⟩
  exact (Op.exec_tip hcalled hflush ⟨best, hs.tip⟩).2

end Runs

section TestNet

/-- A coinbase that pays too much. -/
def greedyTx : CTransaction := testCoinbase [0x52, 0x52] (100*coin)

def greedyTxId : Uint256 := 0xb176b5c0669fd65b3474e81755424eef6f64a973ed96acc0425d8b6ac8015139

/-- A second block on top of the genesis block, with the coinbase of the first. -/
def forkBlock : CBlock :=
  ⟨⟨2, testGenesisHash, testTx0Id, 1400000030, 0x05000000, 34, 10603157925360⟩, [testTx0]⟩

def forkHash : Uint256 := 0x76a44fc283b63d948917e7006b87148ed987c8973ea754932726e83abfaf766e

/-- An invalid block on top of it, which makes the branch the heavier one. -/
def greedyBlock : CBlock :=
  ⟨⟨2, forkHash, greedyTxId, 1400000090, 0x05000000, 2, 41959083896730⟩, [greedyTx]⟩

def greedyHash : Uint256 := 0x18d721e5be0c6798d665666a560bc754892b2e350bf78d3e52d0f7e786a17368

def forkExternals : Externals where
  txHash tx := if tx = greedyTx then greedyTxId else testExternals.txHash tx
  blockHash header := if header = forkBlock.toCBlockHeader then forkHash
    else if header = greedyBlock.toCBlockHeader then greedyHash else testExternals.blockHash header
  nodeHash := testExternals.nodeHash
  verifyScript := testExternals.verifyScript

def forkNet : Consensus := { testNet with ext := forkExternals }

def forkOp (block : CBlock) : Op := .addToBlockIndex block (testAddOutcome true)

def forkStart : NodeState Unit := loadedGenesis forkNet testGenesis ()

/-- The first block arrives, then the fork, then the invalid block on top of the fork. -/
def forkState1 : NodeState Unit := ((forkOp testBlockA).exec forkNet noWallet 0 forkStart).2
def forkState2 : NodeState Unit := ((forkOp forkBlock).exec forkNet noWallet 0 forkState1).2
def forkState3 : NodeState Unit := ((forkOp greedyBlock).exec forkNet noWallet 0 forkState2).2

theorem forkOp_adds {block : CBlock} {s : NodeState Unit} (exit : ChainExit)
    (h : ((forkOp block).exec forkNet noWallet 0 s).1 = exit) (hexit : OnlyInvalid exit) :
    (forkOp block).Adds forkNet noWallet 0 s :=
  ⟨⟨block, testAddOutcome true, rfl⟩, h ▸ hexit⟩

/-- The branch fails in the middle, after its first block was connected: the first block stays
the best one. -/
theorem best_chain_selected_testNet :
    ((forkOp greedyBlock).exec forkNet noWallet 0 forkState2).1 = .connect .coinbasePaysTooMuch ∧
      workOf forkState3.mapBlockIndex testHashA < workOf forkState3.mapBlockIndex greedyHash ∧
      forkState3.pindexBest = some testHashA ∧
      ∀ p ∈ forkState3.setBlockIndexValid,
        (forkState3.mapBlockIndex p).map isFailed = some false := by
  have hlast : ((forkOp greedyBlock).exec forkNet noWallet 0 forkState2).1 =
      .connect .coinbasePaysTooMuch := by
    decide +kernel
  have hrun : Reaches forkNet noWallet 0 (Op.Adds forkNet noWallet 0) forkStart forkState3 := by
    refine Reaches.step (forkOp greedyBlock) (Reaches.step (forkOp forkBlock)
      (Reaches.step (forkOp testBlockA) Reaches.start ?_ ?_) ?_ ?_) ?_ ?_
    · change (forkStart.mapBlockIndex testGenesisHash).isSome = true
      decide +kernel
    · exact forkOp_adds .ok (by decide +kernel) trivial
    · change (forkState1.mapBlockIndex testGenesisHash).isSome = true
      decide +kernel
    · exact forkOp_adds .ok (by decide +kernel) trivial
    · change (forkState2.mapBlockIndex forkHash).isSome = true
      decide +kernel
    · exact forkOp_adds _ hlast rfl
  have hselected := best_chain_selected forkNet noWallet 0 testGenesis () forkState3 hrun
  exact ⟨hlast, by decide +kernel, by decide +kernel, hselected.2.1⟩

end TestNet

end Candypool.Chain
