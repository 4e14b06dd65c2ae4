import Candypool.Chain.Consistency

/-! The main chain as `pnext` has it, and the lookups by height that follow these links from a
pointer an earlier lookup has left behind. -/
namespace Candypool.Chain
open Candypool.Prime Candypool.Core Candypool.Coins Candypool.Lib

section Defs
variable {W : Type}

def isInMainChain (s : NodeState W) (p : BlockPtr) : Bool :=
  (nextOf s.mapBlockIndex p).isSome || s.pindexBest == some p

/-- The node and the pointer `FindBlockByHeight` keeps between calls. -/
structure HeightCache (W : Type) where
  node : NodeState W
  pblockindexFBBHLast : Option BlockPtr

/-- The first loop of `FindBlockByHeight`; `none` is a null pointer that is followed, or a loop
that was cut off. -/
def walkBack (m : BlockPtr → Option CBlockIndex) (nHeight : ℤ) : ℕ → Option BlockPtr → Option BlockPtr
  | 0, _ => none
  | fuel+1, pblockindex => do
    let p ← pblockindex
    let pindex ← m p
    if (pindex.nHeight : ℤ) > nHeight then walkBack m nHeight fuel pindex.pprev else some p

/-- The second loop. -/
def walkForward (m : BlockPtr → Option CBlockIndex) (nHeight : ℤ) :
    ℕ → Option BlockPtr → Option BlockPtr
  | 0, _ => none
  | fuel+1, pblockindex => do
    let p ← pblockindex
    let pindex ← m p
    if (pindex.nHeight : ℤ) < nHeight then walkForward m nHeight fuel pindex.pnext else some p

/-- The nearer end of the main chain. -/
def nearerEnd (cons : Consensus) (s : NodeState W) (nHeight : ℤ) : Option BlockPtr :=
  if nHeight < s.nBestHeight.tdiv 2 then some cons.hashGenesisBlock else s.pindexBest

/-- The pointer the loops start from. -/
def lookupStart (cons : Consensus) (c : HeightCache W) (nHeight : ℤ) : Option BlockPtr := do
  let m := c.node.mapBlockIndex
  let p ← nearerEnd cons c.node nHeight
  let pindex ← m p
  match c.pblockindexFBBHLast with
  | none => some p
  | some last =>
    let lastIndex ← m last
    if |nHeight-pindex.nHeight| > |nHeight-lastIndex.nHeight| then some last else some p

def findBlockByHeight (cons : Consensus) (c : HeightCache W) (nHeight : ℤ) :
    Option (BlockPtr × HeightCache W) := do
  let m := c.node.mapBlockIndex
  let start ← lookupStart cons c nHeight
  let p ← walkBack m nHeight (heightOf m start+1) (some start)
  let p ← walkForward m nHeight ((nHeight-heightOf m p).toNat+1) (some p)
  return (p, { c with pblockindexFBBHLast := some p })

/-- A block comes to the index, the chain is switched or the switch is refused, or a height is
looked up. A switch forgets the pointer. -/
inductive HeightCache.Step (cons : Consensus) (sync : WalletSync W) :
    HeightCache W → HeightCache W → Prop
  | insert {c : HeightCache W} (block : CBlock)
      (new : c.node.mapBlockIndex (block.getHash cons.ext) = none)
      (prev : (c.node.mapBlockIndex block.hashPrevBlock).isSome = true) :
      Step cons sync c { c with node := insertIndex cons c.node block }
  | setBestChain {c : HeightCache W} (nested : NodeState W → ChainExit × NodeState W)
      (io : ChainIO) (p : BlockPtr) (s' : NodeState W)
      (mem : (c.node.mapBlockIndex p).isSome = true)
      (ok : Chain.setBestChain cons sync nested io p c.node = (.ok,s')) :
      Step cons sync c ⟨s', none⟩
  | refused {c : HeightCache W} (nested : NodeState W → ChainExit × NodeState W)
      (io : ChainIO) (p : BlockPtr) (exit : ChainExit) (s' : NodeState W)
      (mem : (c.node.mapBlockIndex p).isSome = true)
      (result : Chain.setBestChain cons sync nested io p c.node = (exit,s')) (early : exit.Early) :
      Step cons sync c { c with node := s' }
  | findBlockByHeight {c c' : HeightCache W} (nHeight : ℤ) (p : BlockPtr) (low : 0 ≤ nHeight)
      (high : nHeight ≤ c.node.nBestHeight)
      (result : Chain.findBlockByHeight cons c nHeight = some (p,c')) : Step cons sync c c'

/-- The pointer that was left behind is on the main chain. -/
def HeightCache.Ok (cons : Consensus) (c : HeightCache W) : Prop :=
  ∃ best, TipAt cons c.node best ∧
    ∀ last, c.pblockindexFBBHLast = some last → Anc (parentOf c.node.mapBlockIndex) best last

end Defs

section Links
variable {W : Type} {cons : Consensus} {s : NodeState W} {best : BlockPtr}

theorem heightOf_entry {m : BlockPtr → Option CBlockIndex} {p : BlockPtr} {pindex : CBlockIndex}
    (hp : m p = some pindex) : heightOf m p = pindex.nHeight := by
  rw [heightOf, hp]
  rfl

/-- An entry of the main chain below the best block has a child on it. -/
theorem TipAt.exists_next (h : TipAt cons s best) {p : BlockPtr}
    (hp : Anc (parentOf s.mapBlockIndex) best p) (hne : p ≠ best) :
    ∃ q, nextOf s.mapBlockIndex p = some q ∧ parentOf s.mapBlockIndex q = some p ∧
      Anc (parentOf s.mapBlockIndex) best q := by
  rcases Relation.ReflTransGen.cases_tail hp with heq | ⟨q,hq,hstep⟩
  · exact absurd heq.symm (Ne.symm hne)
  · exact ⟨q, (h.next p q).mpr ⟨hstep, hq⟩, hstep, hq⟩

theorem TipAt.isInMainChain_iff (h : TipAt cons s best) (p : BlockPtr) :
    isInMainChain s p = true ↔ Anc (parentOf s.mapBlockIndex) best p := by
  rw [isInMainChain, Bool.or_eq_true, beq_iff_eq, h.pindexBest]
  constructor
  · rintro (hnext | hbest)
    · obtain ⟨q,hq⟩ := Option.isSome_iff_exists.mp hnext
      obtain ⟨hparent,hanc⟩ := (h.next p q).mp hq
      exact hanc.trans (Anc.of_parent hparent (Anc.refl p))
    · rw [Option.some.inj hbest]
      exact Anc.refl p
  · intro hp
    by_cases hne : p = best
    · exact Or.inr (congrArg some hne.symm)
    · obtain ⟨q,hq,-,-⟩ := h.exists_next hp hne
      rw [hq]
      exact Or.inl rfl

/-- Going back from the main chain stays on it and stops at the height or below it. -/
theorem TipAt.walkBack_spec (h : TipAt cons s best) {nHeight : ℤ} (hlow : 0 ≤ nHeight) {fuel : ℕ}
    {p : BlockPtr} (hp : Anc (parentOf s.mapBlockIndex) best p)
    (hfuel : heightOf s.mapBlockIndex p < fuel) :
    ∃ q, walkBack s.mapBlockIndex nHeight fuel (some p) = some q ∧
      Anc (parentOf s.mapBlockIndex) best q ∧ (heightOf s.mapBlockIndex q : ℤ) ≤ nHeight := by
  induction fuel generalizing p with
  | zero => omega
  | succ fuel ih =>
    have hmem := h.tree.anc_mem h.mem hp
    obtain ⟨pindex,hpindex⟩ := Option.isSome_iff_exists.mp hmem
    have hheight := heightOf_entry hpindex
    simp only [walkBack, hpindex, Option.bind_eq_bind, Option.bind_some]
    by_cases hgt : (pindex.nHeight : ℤ) > nHeight
    · have hne : p ≠ cons.hashGenesisBlock := by
        intro heq
        have hroot := h.tree.root_height
        rw [← heq] at hroot
        omega
      obtain ⟨q,hq,-,hup⟩ := h.tree.step p hmem hne
      have hprev : pindex.pprev = some q := by
        rw [parentOf, hpindex] at hq
        exact hq
      rw [if_pos hgt, hprev]
      exact ih (hp.trans (Anc.of_parent hq (Anc.refl q))) (by omega)
    · rw [if_neg hgt]
      exact ⟨p, rfl, hp, by omega⟩

/-- Going forward from the main chain follows it up to the height. -/
theorem TipAt.walkForward_spec (h : TipAt cons s best) {nHeight : ℤ}
    (hhigh : nHeight ≤ heightOf s.mapBlockIndex best) {fuel : ℕ} {p : BlockPtr}
    (hp : Anc (parentOf s.mapBlockIndex) best p)
    (hle : (heightOf s.mapBlockIndex p : ℤ) ≤ nHeight)
    (hfuel : nHeight-heightOf s.mapBlockIndex p < fuel) :
    ∃ q, walkForward s.mapBlockIndex nHeight fuel (some p) = some q ∧
      Anc (parentOf s.mapBlockIndex) best q ∧ (heightOf s.mapBlockIndex q : ℤ) = nHeight := by
  induction fuel generalizing p with
  | zero => omega
  | succ fuel ih =>
    obtain ⟨pindex,hpindex⟩ := Option.isSome_iff_exists.mp (h.tree.anc_mem h.mem hp)
    have hheight := heightOf_entry hpindex
    simp only [walkForward, hpindex, Option.bind_eq_bind, Option.bind_some]
    by_cases hlt : (pindex.nHeight : ℤ) < nHeight
    · have hne : p ≠ best := by
        intro heq
        rw [heq] at hheight
        omega
      obtain ⟨q,hnext,hparent,hq⟩ := h.exists_next hp hne
      have hup := (h.tree.of_parent (h.tree.anc_mem h.mem hq) hparent).2
      have hpnext : pindex.pnext = some q := by
        rw [nextOf, hpindex] at hnext
        exact hnext
      rw [if_pos hlt, hpnext]
      exact ih hq (by omega) (by omega)
    · rw [if_neg hlt]
      exact ⟨p, rfl, hp, by omega⟩

end Links

section Run
variable {W : Type} {cons : Consensus} {sync : WalletSync W}

/-- Every lookup in range finds the block of the main chain. -/
theorem HeightCache.lookup {c : HeightCache W} {best : BlockPtr} (h : TipAt cons c.node best)
    (hlast : ∀ last, c.pblockindexFBBHLast = some last →
      Anc (parentOf c.node.mapBlockIndex) best last) {nHeight : ℤ} (hlow : 0 ≤ nHeight)
    (hhigh : nHeight ≤ c.node.nBestHeight) :
    ∃ p, findBlockByHeight cons c nHeight =
        some (p, { c with pblockindexFBBHLast := some p }) ∧
      Anc (parentOf c.node.mapBlockIndex) best p ∧
      (heightOf c.node.mapBlockIndex p : ℤ) = nHeight := by
  have hbest := h.nBestHeight
  have hstart : ∃ start, lookupStart cons c nHeight = some start ∧
      Anc (parentOf c.node.mapBlockIndex) best start := by
    -- the genesis block and the best block are on the main chain
    obtain ⟨p,hp,hanc⟩ : ∃ p, nearerEnd cons c.node nHeight = some p ∧
        Anc (parentOf c.node.mapBlockIndex) best p := by
      rw [nearerEnd]
      by_cases hhalf : nHeight < c.node.nBestHeight.tdiv 2
      · rw [if_pos hhalf]
        exact ⟨_, rfl, h.tree.anc_root h.mem⟩
      · rw [if_neg hhalf]
        exact ⟨best, h.pindexBest, Anc.refl best⟩
    obtain ⟨pindex,hpindex⟩ := Option.isSome_iff_exists.mp (h.tree.anc_mem h.mem hanc)
    simp only [lookupStart, hp, hpindex, Option.bind_eq_bind, Option.bind_some]
    cases hptr : c.pblockindexFBBHLast with
    | none => exact ⟨p, rfl, hanc⟩
    | some last =>
      obtain ⟨lastIndex,hindex⟩ :=
        Option.isSome_iff_exists.mp (h.tree.anc_mem h.mem (hlast last hptr))
      simp only [hindex, Option.bind_some]
      split_ifs
      · exact ⟨last, rfl, hlast last hptr⟩
      · exact ⟨p, rfl, hanc⟩
  obtain ⟨start,hstart,hanc⟩ := hstart
  obtain ⟨q,hq,hqanc,hqle⟩ := h.walkBack_spec hlow hanc (Nat.lt_succ_self _)
  obtain ⟨p,hp,hpanc,hpheight⟩ : ∃ p, walkForward c.node.mapBlockIndex nHeight
      ((nHeight-heightOf c.node.mapBlockIndex q).toNat+1) (some q) = some p ∧
      Anc (parentOf c.node.mapBlockIndex) best p ∧
      (heightOf c.node.mapBlockIndex p : ℤ) = nHeight :=
    h.walkForward_spec (by omega) hqanc hqle (by omega)
  refine ⟨p, ?_, hpanc, hpheight⟩
  rw [findBlockByHeight]
  simp only [hstart, hq, hp, Option.bind_eq_bind, Option.bind_some, Option.pure_def]

theorem HeightCache.step_ok {c c' : HeightCache W} (hstep : HeightCache.Step cons sync c c')
    (h : c.Ok cons) : c'.Ok cons := by
  obtain ⟨best,htip,hlast⟩ := h
  cases hstep with
  | insert block new prev =>
    refine ⟨best, insertIndex_tip htip new prev, fun last hptr => ?_⟩
    refine (htip.tree.anc_congr (fun p hp => ?_) htip.mem).mpr (hlast last hptr)
    rw [parentOf, insertIndex_ne (ne_of_isSome new hp), parentOf]
  | setBestChain nested io p s' mem ok =>
    rcases setBestChain_tip htip mem ok with ⟨-,htip',-⟩ | ⟨hearly,-⟩ | ⟨-,hexit,-⟩
    · refine ⟨p, htip', fun last hptr => ?_⟩
      cases hptr
    · rcases hearly with h | h | ⟨e,h⟩ <;> cases h
    · rcases hexit with h | h <;> cases h
  | refused nested io p exit s' mem result early =>
    rcases setBestChain_tip htip mem result with ⟨rfl,-⟩ | ⟨-,hsame,hblamed⟩ | ⟨-,hexit,-⟩
    · rcases early with h | h | ⟨e,h⟩ <;> cases h
    · refine ⟨best, htip.of_same hsame (hblamed.candidates htip.candidates), fun last hptr => ?_⟩
      change Anc (parentOf s'.mapBlockIndex) best last
      rw [hsame.tree.parentOf]
      exact hlast last hptr
    · rcases hexit with rfl | rfl <;> rcases early with h | h | ⟨e,h⟩ <;> cases h
  | findBlockByHeight nHeight p low high result =>
    obtain ⟨q,hq,hanc,-⟩ := HeightCache.lookup htip hlast low high
    obtain ⟨-,rfl⟩ := Prod.mk.inj (Option.some.inj (hq.symm.trans result))
    refine ⟨best, htip, fun last hptr => ?_⟩
    obtain rfl := Option.some.inj hptr
    exact hanc

theorem HeightCache.run_ok {genesis : CBlock} {wallet : W} {c : HeightCache W}
    (h : Relation.ReflTransGen (HeightCache.Step cons sync)
      ⟨loadedGenesis cons genesis wallet, none⟩ c) : c.Ok cons := by
  induction h with
  | refl =>
    refine ⟨_, loadedGenesis_tip genesis wallet, fun last hptr => ?_⟩
    cases hptr
  | tail _ hstep ih => exact HeightCache.step_ok hstep ih

/-- In any interleaving of chain switches and lookups the links are the main chain, and a lookup
in range returns its block of that height. -/
theorem pnext_is_main_chain (cons : Consensus) (sync : WalletSync W) (genesis : CBlock) (wallet : W)
    (c : HeightCache W) (h : Relation.ReflTransGen (HeightCache.Step cons sync)
      ⟨loadedGenesis cons genesis wallet, none⟩ c) :
    ∃ best, c.node.pindexBest = some best ∧
      (∀ b, isInMainChain c.node b = true ↔ Anc (parentOf c.node.mapBlockIndex) best b) ∧
      (∀ b q, Anc (parentOf c.node.mapBlockIndex) best b →
        (nextOf c.node.mapBlockIndex b = some q ↔
          parentOf c.node.mapBlockIndex q = some b ∧
            Anc (parentOf c.node.mapBlockIndex) best q)) ∧
      ∀ nHeight, 0 ≤ nHeight → nHeight ≤ c.node.nBestHeight →
        ∃ p, (findBlockByHeight cons c nHeight).map Prod.fst = some p ∧
          Anc (parentOf c.node.mapBlockIndex) best p ∧
          (heightOf c.node.mapBlockIndex p : ℤ) = nHeight ∧
          ∀ q, Anc (parentOf c.node.mapBlockIndex) best q →
            (heightOf c.node.mapBlockIndex q : ℤ) = nHeight → q = p := by
  obtain ⟨best,htip,hlast⟩ := HeightCache.run_ok h
  refine ⟨best, htip.pindexBest, htip.isInMainChain_iff, fun b q _ => htip.next b q, ?_⟩
  intro nHeight hlow hhigh
  obtain ⟨p,hp,hanc,hheight⟩ := HeightCache.lookup htip hlast hlow hhigh
  refine ⟨p, by rw [hp]; rfl, hanc, hheight, fun q hq hqheight => ?_⟩
  have hqp := htip.tree.anc_of_height htip.mem hq hanc (by omega)
  exact htip.tree.eq_of_anc_height (htip.tree.anc_mem htip.mem hq) hqp (by omega)

end Run

section TestNet

def testInserted : NodeState Unit := insertIndex testNet testStart testBlockA

/-- The first block of the test network is the best one, and nothing was looked up yet. -/
def testCache : HeightCache Unit :=
  ⟨(setBestChain testNet noWallet (fun s => (.ok, s)) (testChainOutcome true) testHashA testInserted).2,
    none⟩

theorem testCache_run :
    Relation.ReflTransGen (HeightCache.Step testNet noWallet) ⟨testStart, none⟩ testCache := by
  have hok : (setBestChain testNet noWallet (fun s => (.ok, s)) (testChainOutcome true) testHashA
      testInserted).1 = .ok := by
    decide +kernel
  refine Relation.ReflTransGen.tail (Relation.ReflTransGen.single
    (HeightCache.Step.insert testBlockA (by decide +kernel) (by decide +kernel))) ?_
  exact HeightCache.Step.setBestChain (fun s => (.ok, s)) (testChainOutcome true) testHashA _
    (by decide +kernel) (Prod.ext hok rfl)

theorem pnext_is_main_chain_testNet : testCache.node.pindexBest = some testHashA ∧
    isInMainChain testCache.node testGenesisHash = true ∧
    ∃ p, (findBlockByHeight testNet testCache 0).map Prod.fst = some p ∧
      (heightOf testCache.node.mapBlockIndex p : ℤ) = 0 := by
  obtain ⟨best,hbest,hmain,-,hlookup⟩ :=
    pnext_is_main_chain testNet noWallet testGenesis () testCache testCache_run
  obtain ⟨p,hp,-,hheight,-⟩ := hlookup 0 (by decide) (by decide +kernel)
  exact ⟨by decide +kernel, by decide +kernel, p, hp, hheight⟩

end TestNet

end Candypool.Chain
