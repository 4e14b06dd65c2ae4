import Candypool.Chain.Consistency
import Candypool.Chain.Retarget
import Mathlib.Data.List.Sort

/-! `AcceptBlock` and the two walks it makes from the parent of a block: the median of the last
times and the target of the next block. -/
namespace Candypool.Chain
open Candypool.Prime Candypool.Core Candypool.Coins Candypool.Lib

def nMedianTimeSpan : ℕ := 99

/-- The times of the last blocks, the newest first. -/
def timesBack (m : BlockPtr → Option CBlockIndex) : ℕ → Option BlockPtr → List ℤ
  | 0, _ => []
  | _+1, none => []
  | n+1, some p => match m p with
    | none => []
    | some pindex => (pindex.nTime : ℤ) :: timesBack m n pindex.pprev

def getMedianTimePast (m : BlockPtr → Option CBlockIndex) (p : BlockPtr) : ℤ :=
  let pmedian := (timesBack m nMedianTimeSpan (some p)).insertionSort (· ≤ ·)
  pmedian.getD (pmedian.length/2) 0

/-- `nActualSpacing`, unless the next block is one of the first two. -/
def actualSpacing (m : BlockPtr → Option CBlockIndex) (pindexLast : BlockPtr) : Option ℤ := do
  let pindexPrev ← m pindexLast
  let pprev ← pindexPrev.pprev
  let pindexPrevPrev ← m pprev
  let _ ← pindexPrevPrev.pprev
  return (pindexPrev.nTime : ℤ)-pindexPrevPrev.nTime

/-- `none` is the exception of a division by zero. An error is the target 0. -/
def getNextWorkRequired (params : TargetParams) (m : BlockPtr → Option CBlockIndex) :
    Option BlockPtr → Option (BitVec 32)
  | none => some (targetGetLimit params)
  | some pindexLast => match actualSpacing m pindexLast with
    | none => some (targetGetInitial params)
    | some nActualSpacing =>
      (targetGetNext params (((m pindexLast).map CBlockIndex.nBits).getD 0)
        (nTargetTimespan/nTargetSpacing) nTargetSpacing nActualSpacing).map
        fun result => if result.1 then result.2 else 0

/-- The loop of `IsSuperMajority`. The version of an entry is that of its block. -/
def superMajorityLoop (m : BlockPtr → Option CBlockIndex) (nVersion : BlockPtr → ℤ) (minVersion : ℤ)
    (nRequired : ℕ) : ℕ → ℕ → Option BlockPtr → Bool
  | 0, nFound, _ => decide (nFound ≥ nRequired)
  | _+1, nFound, none => decide (nFound ≥ nRequired)
  | n+1, nFound, some pstart =>
    if nFound < nRequired then
      superMajorityLoop m nVersion minVersion nRequired n
        (if nVersion pstart ≥ minVersion then nFound+1 else nFound) (parentOf m pstart)
    else true

def isSuperMajority (m : BlockPtr → Option CBlockIndex) (nVersion : BlockPtr → ℤ) (minVersion : ℤ)
    (pstart : BlockPtr) (nRequired nToCheck : ℕ) : Bool :=
  superMajorityLoop m nVersion minVersion nRequired nToCheck 0 (some pstart)

/-- The network and the `-checkpoints` argument. -/
structure NetParams where
  fTestNet : Bool
  fCheckpoints : Bool
  mapCheckpoints : ℕ → Option Uint256

/-- `Checkpoints::CheckBlock`. -/
def NetParams.checkBlock (net : NetParams) (nHeight : ℕ) (hash : Uint256) : Bool :=
  if !net.fCheckpoints then true
  else (net.mapCheckpoints nHeight).all fun checkpoint => hash == checkpoint

inductive AcceptBlockError
  | duplicate
  | prevNotFound
  | targetException
  | incorrectProofOfWork
  | timeTooEarly
  | nonFinal
  | checkpoint
  | syncCheckpoint
  | version
  | coinbaseHeight
  | findBlockPos
  | writeToDisk
  | addToBlockIndex (exit : ChainExit)
  deriving DecidableEq, Repr

/-- The outcomes of one `AcceptBlock` call that the node does not decide: the clock, whether an
enforced sync checkpoint rules the block out, and the disk. -/
structure AcceptBlockIO where
  nAdjustedTime : ℤ
  syncCheckpointRejects : Bool
  findBlockPos : Bool
  writeToDisk : Bool
  add : AddIO

section Defs
variable {W : Type} (cons : Consensus) (net : NetParams) (sync : WalletSync W)

/-- The checks of a block against its parent. -/
def contextualCheck (io : AcceptBlockIO) (s : NodeState W) (block : CBlock) (pindexPrev : BlockPtr) :
    Option AcceptBlockError :=
  let m := s.mapBlockIndex
  let nHeight := heightOf m pindexPrev+1
  let nVersion := fun p => ((s.blockFile p).map fun block => block.nVersion).getD 0
  let scriptSig := ((block.vtx.head?.bind fun tx => tx.vin.head?).map CTxIn.scriptSig).getD []
  match getNextWorkRequired cons.target m (some pindexPrev) with
  | none => some .targetException
  | some nBits =>
    if block.nBits ≠ nBits then some .incorrectProofOfWork
    else if (block.nTime : ℤ) ≤ getMedianTimePast m pindexPrev then some .timeTooEarly
    else if block.vtx.any fun tx =>
        !tx.isFinal s.nBestHeight io.nAdjustedTime nHeight block.nTime then some .nonFinal
    else if !net.checkBlock nHeight (block.getHash cons.ext) then some .checkpoint
    else if io.syncCheckpointRejects then some .syncCheckpoint
    else if block.nVersion < 2 then some .version
    -- the coinbase starts with the height once enough blocks have version 2
    else if ((!net.fTestNet && isSuperMajority m nVersion 2 pindexPrev 750 1000) ||
        (net.fTestNet && isSuperMajority m nVersion 2 pindexPrev 51 100)) &&
        !(pushUint64 nHeight).isPrefixOf scriptSig then some .coinbaseHeight
    else none

def acceptBlock (io : AcceptBlockIO) (fuel : ℕ) (block : CBlock) (s : NodeState W) :
    Option AcceptBlockError × NodeState W :=
  let hash := block.getHash cons.ext
  let checks :=
    if (s.mapBlockIndex hash).isSome then some .duplicate
    else if hash = cons.hashGenesisBlock then none
    else if (s.mapBlockIndex block.hashPrevBlock).isNone then some .prevNotFound
    else contextualCheck cons net io s block block.hashPrevBlock
  match checks with
  | some e => (some e, s)
  | none =>
    if !io.findBlockPos then (some .findBlockPos, s)
    else if !io.writeToDisk then (some .writeToDisk, s)
    else match addToBlockIndex cons sync io.add fuel block s with
      | (.ok, s) => (none, s)
      | (exit, s) => (some (.addToBlockIndex exit), s)

end Defs

section Tree
variable {W : Type} {cons : Consensus} {sync : WalletSync W}

/-- A call that keeps the tree, whatever it does to the chain. -/
def KeepsTree (call : NodeState W → ChainExit × NodeState W) : Prop :=
  ∀ s, SameTree s.mapBlockIndex (call s).2.mapBlockIndex

theorem invalidBlockFound_tree {nested : NodeState W → ChainExit × NodeState W}
    (hn : KeepsTree nested) (s : NodeState W) (p : BlockPtr) :
    SameTree s.mapBlockIndex (invalidBlockFound nested s p).2.mapBlockIndex := by
  rw [invalidBlockFound]
  dsimp only
  generalize hs1 : NodeState.invalidChainFound _ p = s1
  have htree : SameTree s.mapBlockIndex s1.mapBlockIndex := by
    rw [← hs1]
    refine SameTree.trans ?_ (invalidChainFound_same _ p).1.tree
    exact modifyIndex_map fixed fun _ _ => rfl
  split_ifs
  · generalize hr : nested s1 = r
    have hnested : SameTree s.mapBlockIndex r.2.mapBlockIndex := by
      rw [← hr]
      exact htree.trans (hn s1)
    obtain ⟨exit,s2⟩ := r
    cases exit <;> exact hnested
  · exact htree

theorem connectFailed_tree {nested : NodeState W → ChainExit × NodeState W} (hn : KeepsTree nested)
    (pindexNew p : BlockPtr) (e : ConnectError) (s : NodeState W) :
    SameTree s.mapBlockIndex (connectFailed nested pindexNew p e s).2.mapBlockIndex := by
  rw [connectFailed]
  split_ifs
  · have htree := (invalidChainFound_same s pindexNew).1.tree.trans
      (invalidBlockFound_tree hn (s.invalidChainFound pindexNew) p)
    generalize invalidBlockFound nested (s.invalidChainFound pindexNew) p = r at htree
    obtain ⟨exit,s1⟩ := r
    cases exit <;> exact htree
  · exact SameTree.refl _

theorem connectLoop_tree {nested : NodeState W → ChainExit × NodeState W} (hn : KeepsTree nested)
    (io : ChainIO) (pindexNew : BlockPtr) (ps : List BlockPtr) (s : NodeState W)
    (view : CCoinsViewCache) (vDelete : List CTransaction) : SameTree s.mapBlockIndex
      (connectLoop cons sync nested io pindexNew ps s view vDelete).node.mapBlockIndex := by
  induction ps generalizing s view vDelete with
  | nil => exact SameTree.refl _
  | cons p ps ih =>
    rw [connectLoop]
    split
    · exact SameTree.refl _
    rename_i pindex hp
    split
    · exact SameTree.refl _
    rename_i block hblock
    dsimp only
    generalize hr : connectBlock cons (io.connect p) s.mapBlockIndex block p pindex view false = r
    have htree := (@connected_same W cons sync s _ p block pindex view r hp hr).1.tree
    split
    · rename_i e he
      exact htree.trans (connectFailed_tree hn pindexNew p e _)
    · exact htree.trans (ih _ _ _)

theorem updateMemory_tree (io : ChainIO) (s : NodeState W) (vDisconnect vConnect : List BlockPtr)
    (vResurrect vDelete : List CTransaction) (pindexNew : BlockPtr) : SameTree s.mapBlockIndex
      (updateMemory cons sync io s vDisconnect vConnect vResurrect vDelete
        pindexNew).mapBlockIndex := by
  rw [updateMemory_eq io s _ vDisconnect vConnect vResurrect vDelete pindexNew rfl]
  exact relink_same vDisconnect vConnect

theorem setBestChain_tree {nested : NodeState W → ChainExit × NodeState W} (hn : KeepsTree nested)
    (io : ChainIO) (pindexNew : BlockPtr) :
    KeepsTree (setBestChain cons sync nested io pindexNew) := by
  intro s
  rw [setBestChain]
  split
  · exact SameTree.refl _
  rename_i vDisconnect vConnect hbranches
  split
  · exact SameTree.refl _
  rename_i view vResurrect hdisconnect
  dsimp only
  have htree : SameTree s.mapBlockIndex (connectLoop cons sync nested io pindexNew vConnect s view
      []).node.mapBlockIndex := connectLoop_tree hn io pindexNew vConnect s view []
  generalize connectLoop cons sync nested io pindexNew vConnect s view [] = c at htree
  split
  · rw [pushView]
    dsimp only
    split_ifs
    · exact htree
    · exact htree
    · exact htree.trans (updateMemory_tree io (c.node.flushView c.view).flushTip _ _ _ _ _)
    · exact htree.trans (updateMemory_tree io (c.node.flushView c.view) _ _ _ _ _)
  · exact htree

theorem attach_tree {setBest : BlockPtr → NodeState W → ChainExit × NodeState W}
    (hset : ∀ p, KeepsTree (setBest p)) (ps : List BlockPtr) : KeepsTree (attach setBest ps) := by
  intro s
  induction ps generalizing s with
  | nil => exact SameTree.refl _
  | cons p ps ih =>
    have htree := hset p s
    rw [attach]
    generalize setBest p s = r at htree
    obtain ⟨exit,s1⟩ := r
    cases exit
    case ok => exact htree.trans (ih s1)
    all_goals exact htree

theorem bestLoop_tree {setBest : BlockPtr → NodeState W → ChainExit × NodeState W}
    (hset : ∀ p, KeepsTree (setBest p)) (fuel : ℕ) : KeepsTree (bestLoop setBest fuel) := by
  intro s
  induction fuel generalizing s with
  | zero => exact SameTree.refl _
  | succ fuel ih =>
    rw [bestLoop]
    split
    · exact SameTree.refl _
    rename_i pindexNewBest hbest
    split_ifs
    · exact SameTree.refl _
    split
    · exact SameTree.refl _
    · rename_i vAttach hattach
      exact attach_tree hset vAttach s
    · rename_i pindexTest hfailed
      split
      · exact SameTree.refl _
      · rename_i descendants hpath
        have hmarked := (markFailed_spec descendants s).invalidChainFound pindexNewBest
        exact hmarked.same.tree.trans (ih _)

theorem connectBestBlock_tree (io : ℕ → BlockPtr → ChainIO) (fuel depth : ℕ) :
    KeepsTree (connectBestBlock cons sync io fuel depth) := by
  induction fuel generalizing depth with
  | zero => exact fun s => SameTree.refl _
  | succ fuel ih =>
    intro s
    rw [connectBestBlock]
    exact bestLoop_tree (fun p => setBestChain_tree (ih (depth+1)) (io depth p) p) _ s

theorem addToBlockIndex_tree (io : AddIO) (fuel : ℕ) {block : CBlock} {s : NodeState W}
    (hnew : s.mapBlockIndex (block.getHash cons.ext) = none) :
    SameTree (insertIndex cons s block).mapBlockIndex
      (addToBlockIndex cons sync io fuel block s).2.mapBlockIndex := by
  rw [addToBlockIndex, hnew, Option.isSome_none, if_neg Bool.false_ne_true]
  have htree := @connectBestBlock_tree W cons sync io.chain (fuel+1) 0 (insertIndex cons s block)
  split_ifs
  · exact SameTree.refl _
  · dsimp only
    split_ifs
    · exact htree
    · exact htree

/-- A block that passed the checks of `AcceptBlock` is in the tree, and nothing else is new. -/
structure Accepted (cons : Consensus) (net : NetParams) (io : AcceptBlockIO) (block : CBlock)
    (s s' : NodeState W) : Prop where
  fresh : s.mapBlockIndex (block.getHash cons.ext) = none
  parent : (s.mapBlockIndex block.hashPrevBlock).isSome = true
  checks : contextualCheck cons net io s block block.hashPrevBlock = none
  tree : SameTree (insertIndex cons s block).mapBlockIndex s'.mapBlockIndex

/-- The block passes the checks and is written to the disk. -/
structure Passes (cons : Consensus) (net : NetParams) (io : AcceptBlockIO) (block : CBlock)
    (s : NodeState W) : Prop where
  fresh : s.mapBlockIndex (block.getHash cons.ext) = none
  parent : (s.mapBlockIndex block.hashPrevBlock).isSome = true
  checks : contextualCheck cons net io s block block.hashPrevBlock = none
  findBlockPos : io.findBlockPos = true
  writeToDisk : io.writeToDisk = true

/-- A block that passes goes to `AddToBlockIndex`; any other one changes nothing. -/
theorem acceptBlock_run {net : NetParams} {io : AcceptBlockIO} {fuel : ℕ} {block : CBlock}
    {s s' : NodeState W} {e : Option AcceptBlockError}
    (hgenesis : (s.mapBlockIndex cons.hashGenesisBlock).isSome = true)
    (h : acceptBlock cons net sync io fuel block s = (e,s')) :
    s' = s ∧ e ≠ none ∨ Passes cons net io block s ∧
      ∃ exit, addToBlockIndex cons sync io.add fuel block s = (exit,s') ∧ (e = none → exit = .ok) := by
  rw [acceptBlock] at h
  split at h
  · obtain ⟨rfl,rfl⟩ := Prod.mk.inj h
    exact Or.inl ⟨rfl, Option.some_ne_none _⟩
  rename_i hchecks
  split_ifs at hchecks with hdup hroot hprev
  · -- the genesis block is in the index already
    rw [hroot] at hdup
    exact absurd hgenesis hdup
  split_ifs at h with hpos hdisk
  · obtain ⟨rfl,rfl⟩ := Prod.mk.inj h
    exact Or.inl ⟨rfl, Option.some_ne_none _⟩
  · obtain ⟨rfl,rfl⟩ := Prod.mk.inj h
    exact Or.inl ⟨rfl, Option.some_ne_none _⟩
  rw [Bool.not_eq_true, Option.isSome_eq_false_iff, Option.isNone_iff_eq_none] at hdup
  rw [Bool.not_eq_true, Option.isNone_eq_false_iff] at hprev
  rw [Bool.not_eq_true', Bool.not_eq_false] at hpos hdisk
  refine Or.inr ⟨⟨hdup, hprev, hchecks, hpos, hdisk⟩, ?_⟩
  generalize addToBlockIndex cons sync io.add fuel block s = r at h
  obtain ⟨exit,s1⟩ := r
  cases exit <;> obtain ⟨rfl,rfl⟩ := Prod.mk.inj h
  case ok => exact ⟨_, rfl, fun _ => rfl⟩
  all_goals exact ⟨_, rfl, fun hnone => absurd hnone (Option.some_ne_none _)⟩

theorem acceptBlock_cases {net : NetParams} {io : AcceptBlockIO} {fuel : ℕ} {block : CBlock}
    {s s' : NodeState W} {e : Option AcceptBlockError}
    (hgenesis : (s.mapBlockIndex cons.hashGenesisBlock).isSome = true)
    (h : acceptBlock cons net sync io fuel block s = (e,s')) :
    s' = s ∧ e ≠ none ∨ Accepted cons net io block s s' := by
  refine (acceptBlock_run hgenesis h).imp_right ?_
  rintro ⟨hpass,exit,hadd,-⟩
  have htree := @addToBlockIndex_tree W cons sync io.add fuel block s hpass.fresh
  rw [hadd] at htree
  exact ⟨hpass.fresh, hpass.parent, hpass.checks, htree⟩

end Tree

section Run
variable {W : Type} (cons : Consensus) (net : NetParams) (sync : WalletSync W)

/-- The states a node can reach when blocks come through `CheckBlock` and `AcceptBlock`; `ok` is
asked of every block that arrives. The other calls may come at any time. -/
inductive AcceptRun (fuel : ℕ) (ok : NodeState W → CBlock → Prop) (start : NodeState W) :
    NodeState W → Prop
  | start : AcceptRun fuel ok start start
  | accept {s : NodeState W} (block : CBlock) (io : AcceptBlockIO) (rest : AcceptRun fuel ok start s)
      (checked : block.checkBlock cons.ext io.nAdjustedTime true = .ok ()) (meets : ok s block) :
      AcceptRun fuel ok start (acceptBlock cons net sync io fuel block s).2
  | other {s : NodeState W} (op : Op) (rest : AcceptRun fuel ok start s)
      (hop : ∀ block io, op ≠ .addToBlockIndex block io) :
      AcceptRun fuel ok start (op.exec cons sync fuel s).2

/-- The divisor that `GetNextWorkRequired` hands to `TargetGetNext` for the block after `p` is
positive, for every block `p` of the index. -/
def DividesSafely (s : NodeState W) : Prop :=
  ∀ p nActualSpacing, actualSpacing s.mapBlockIndex p = some nActualSpacing →
    0 < targetDivisor (nTargetTimespan/nTargetSpacing) nTargetSpacing nActualSpacing

/-- The block is not older than its parent by 302370 seconds or more, unless its parent is the
genesis block. -/
def NotTooOld (s : NodeState W) (block : CBlock) : Prop :=
  ∀ pindexPrev, s.mapBlockIndex block.hashPrevBlock = some pindexPrev → pindexPrev.pprev ≠ none →
    (pindexPrev.nTime : ℤ)-302370 < block.nTime

end Run

section Divisor
variable {W : Type} {cons : Consensus} {net : NetParams} {sync : WalletSync W}

theorem actualSpacing_eq_some {m : BlockPtr → Option CBlockIndex} {p : BlockPtr} {a : ℤ} :
    actualSpacing m p = some a ↔ ∃ pindex q prev, m p = some pindex ∧ pindex.pprev = some q ∧
      m q = some prev ∧ prev.pprev ≠ none ∧ (pindex.nTime : ℤ)-prev.nTime = a := by
  rw [actualSpacing]
  constructor
  · intro h
    obtain ⟨pindex,hp,h⟩ := Option.bind_eq_some_iff.mp h
    obtain ⟨q,hq,h⟩ := Option.bind_eq_some_iff.mp h
    obtain ⟨prev,hprev,h⟩ := Option.bind_eq_some_iff.mp h
    obtain ⟨r,hr,h⟩ := Option.bind_eq_some_iff.mp h
    exact ⟨pindex, q, prev, hp, hq, hprev, by rw [hr]; exact Option.some_ne_none _,
      Option.some.inj h⟩
  · rintro ⟨pindex,q,prev,hp,hq,hprev,hne,rfl⟩
    obtain ⟨r,hr⟩ := Option.ne_none_iff_exists'.mp hne
    simp only [hp, hq, hprev, hr, Option.bind_eq_bind, Option.bind_some, Option.pure_def]

theorem SameTree.actualSpacing {m m' : BlockPtr → Option CBlockIndex} (h : SameTree m m')
    {p : BlockPtr} {a : ℤ} (ha : actualSpacing m p = some a) : actualSpacing m' p = some a := by
  obtain ⟨pindex,q,prev,hp,hq,hprev,hne,rfl⟩ := actualSpacing_eq_some.mp ha
  obtain ⟨pindex',hp',hfixed⟩ := h.entry hp
  obtain ⟨prev',hprev',hfixed'⟩ := h.entry hprev
  have htime : pindex'.nTime = pindex.nTime := (congrArg CBlockIndex.nTime hfixed :)
  have hparent : pindex'.pprev = pindex.pprev := (congrArg CBlockIndex.pprev hfixed :)
  have htime' : prev'.nTime = prev.nTime := (congrArg CBlockIndex.nTime hfixed' :)
  have hparent' : prev'.pprev = prev.pprev := (congrArg CBlockIndex.pprev hfixed' :)
  refine actualSpacing_eq_some.mpr ⟨pindex', q, prev', hp', hparent.trans hq, hprev', ?_, ?_⟩
  · rwa [hparent']
  · rw [htime, htime']

/-- The genesis block is in the index, and so is the parent of every entry. -/
structure Rooted (root : BlockPtr) (m : BlockPtr → Option CBlockIndex) : Prop where
  root : (m root).isSome = true
  parent : ∀ p q, parentOf m p = some q → (m q).isSome = true

theorem Rooted.same {root : BlockPtr} {m m' : BlockPtr → Option CBlockIndex} (h : Rooted root m)
    (hsame : SameTree m m') : Rooted root m' := by
  refine ⟨(hsame.isSome root).trans h.root, fun p q hpq => ?_⟩
  rw [hsame.parentOf] at hpq
  exact (hsame.isSome q).trans (h.parent p q hpq)

theorem insertIndex_isSome {s : NodeState W} {block : CBlock} {p : BlockPtr}
    (hp : (s.mapBlockIndex p).isSome = true) :
    ((insertIndex cons s block).mapBlockIndex p).isSome = true := by
  by_cases h : p = block.getHash cons.ext
  · rw [h, insertIndex_self]
    rfl
  · rwa [insertIndex_ne h]

theorem Rooted.insert {root : BlockPtr} {s : NodeState W} {block : CBlock}
    (h : Rooted root s.mapBlockIndex) (hprev : (s.mapBlockIndex block.hashPrevBlock).isSome = true) :
    Rooted root (insertIndex cons s block).mapBlockIndex := by
  refine ⟨insertIndex_isSome h.root, fun p q hpq => ?_⟩
  apply insertIndex_isSome
  by_cases hp : p = block.getHash cons.ext
  · rw [parentOf, hp, insertIndex_self, Option.bind_some, (newIndex_of_parent hprev).1] at hpq
    rwa [← Option.some.inj hpq]
  · rw [parentOf, insertIndex_ne hp] at hpq
    exact h.parent p q hpq

/-- The spacings after a new block: the old ones, and its own if its parent is not the first. -/
theorem actualSpacing_insert {root : BlockPtr} {s : NodeState W} {block : CBlock}
    (h : Rooted root s.mapBlockIndex) (hnew : s.mapBlockIndex (block.getHash cons.ext) = none)
    {prev : CBlockIndex} (hprev : s.mapBlockIndex block.hashPrevBlock = some prev)
    {p : BlockPtr} {a : ℤ} :
    actualSpacing (insertIndex cons s block).mapBlockIndex p = some a ↔
      if p = block.getHash cons.ext then prev.pprev ≠ none ∧ (block.nTime : ℤ)-prev.nTime = a
      else actualSpacing s.mapBlockIndex p = some a := by
  have hisSome : (s.mapBlockIndex block.hashPrevBlock).isSome = true := by rw [hprev]; rfl
  have hprev' : (insertIndex cons s block).mapBlockIndex block.hashPrevBlock = some prev := by
    rw [insertIndex_ne (ne_of_isSome hnew hisSome), hprev]
  rw [actualSpacing_eq_some]
  split_ifs with hp
  · rw [hp, insertIndex_self]
    constructor
    · rintro ⟨pindex,q,prev',hpindex,hq,hq',hne,rfl⟩
      rw [← Option.some.inj hpindex, (newIndex_of_parent hisSome).1] at hq
      rw [← Option.some.inj hq, hprev'] at hq'
      obtain rfl := Option.some.inj hq'
      rw [← Option.some.inj hpindex]
      exact ⟨hne, rfl⟩
    · rintro ⟨hne,rfl⟩
      exact ⟨_, _, prev, rfl, (newIndex_of_parent hisSome).1, hprev', hne, rfl⟩
  · rw [insertIndex_ne hp, actualSpacing_eq_some]
    -- the parent of an entry was there before
    have hold : ∀ pindex q, s.mapBlockIndex p = some pindex → pindex.pprev = some q →
        (insertIndex cons s block).mapBlockIndex q = s.mapBlockIndex q := by
      intro pindex q hpindex hq
      apply insertIndex_ne
      apply ne_of_isSome hnew
      apply h.parent p q
      rw [parentOf, hpindex, Option.bind_some, hq]
    constructor
    · rintro ⟨pindex,q,prev',hpindex,hq,hq',hrest⟩
      exact ⟨pindex, q, prev', hpindex, hq, (hold pindex q hpindex hq) ▸ hq', hrest⟩
    · rintro ⟨pindex,q,prev',hpindex,hq,hq',hrest⟩
      exact ⟨pindex, q, prev', hpindex, hq, (hold pindex q hpindex hq).symm ▸ hq', hrest⟩

theorem targetDivisor_pos (a : ℤ) :
    0 < targetDivisor (nTargetTimespan/nTargetSpacing) nTargetSpacing a ↔ -302370 < a := by
  have hinterval : nTargetTimespan/nTargetSpacing = 10080 := by decide
  have hspacing : nTargetSpacing = 60 := rfl
  rw [hinterval, hspacing, targetDivisor]
  omega

theorem DividesSafely.same {s s' : NodeState W} (h : DividesSafely s)
    (hsame : SameTree s.mapBlockIndex s'.mapBlockIndex) : DividesSafely s' := by
  intro p a ha
  have hback : SameTree s'.mapBlockIndex s.mapBlockIndex := fun p => (hsame p).symm
  exact h p a (hback.actualSpacing ha)

/-- One accepted block keeps the divisors positive if it is not too old. -/
theorem Accepted.dividesSafely {io : AcceptBlockIO} {block : CBlock} {s s' : NodeState W}
    (h : Accepted cons net io block s s') (hroot : Rooted cons.hashGenesisBlock s.mapBlockIndex)
    (hsafe : DividesSafely s) (hold : NotTooOld s block) : DividesSafely s' := by
  obtain ⟨prev,hprev⟩ := Option.isSome_iff_exists.mp h.parent
  refine DividesSafely.same ?_ h.tree
  intro p a ha
  rw [actualSpacing_insert hroot h.fresh hprev] at ha
  split_ifs at ha with hp
  · rw [targetDivisor_pos, ← ha.2]
    have := hold prev hprev ha.1
    omega
  · exact hsafe p a ha

/-- And only if it is not too old. -/
theorem Accepted.notTooOld {io : AcceptBlockIO} {block : CBlock} {s s' : NodeState W}
    (h : Accepted cons net io block s s') (hroot : Rooted cons.hashGenesisBlock s.mapBlockIndex)
    (hafter : DividesSafely s') : NotTooOld s block := by
  intro prev hprev hne
  have hspacing : actualSpacing s'.mapBlockIndex (block.getHash cons.ext) =
      some ((block.nTime : ℤ)-prev.nTime) := by
    apply h.tree.actualSpacing
    rw [actualSpacing_insert hroot h.fresh hprev, if_pos rfl]
    exact ⟨hne, rfl⟩
  have := (targetDivisor_pos _).mp (hafter _ _ hspacing)
  omega

theorem Op.exec_tree {op : Op} (hop : ∀ block io, op ≠ .addToBlockIndex block io) (fuel : ℕ)
    (s : NodeState W) : SameTree s.mapBlockIndex (op.exec cons sync fuel s).2.mapBlockIndex := by
  cases op with
  | setBestChain p io =>
    exact setBestChain_tree (connectBestBlock_tree io fuel 1) (io 0 p) p s
  | addToBlockIndex block io => exact absurd rfl (hop block io)
  | acceptToMemoryPool tx fCheckInputs fLimitFree io =>
    obtain ⟨mempool,wallet,h⟩ : ∃ mempool wallet,
      (s.acceptToMemoryPool cons sync io tx fCheckInputs fLimitFree).getD s = _ :=
      acceptToMemoryPool_eq io s tx fCheckInputs fLimitFree
    change SameTree s.mapBlockIndex
      ((s.acceptToMemoryPool cons sync io tx fCheckInputs fLimitFree).getD s).mapBlockIndex
    rw [h]
    exact SameTree.refl _

theorem loadedGenesis_rooted (genesis : CBlock) (wallet : W) :
    Rooted cons.hashGenesisBlock (loadedGenesis cons genesis wallet).mapBlockIndex := by
  have hself : (loadedGenesis cons genesis wallet).mapBlockIndex cons.hashGenesisBlock =
      some (genesisIndex cons genesis) := if_pos rfl
  refine ⟨by rw [hself]; rfl, fun p q hpq => ?_⟩
  by_cases hp : p = cons.hashGenesisBlock
  · rw [parentOf, hp, hself] at hpq
    cases hpq
  · have hnone : (loadedGenesis cons genesis wallet).mapBlockIndex p = none := if_neg hp
    rw [parentOf, hnone] at hpq
    cases hpq

theorem loadedGenesis_dividesSafely (genesis : CBlock) (wallet : W) :
    DividesSafely (loadedGenesis cons genesis wallet) := by
  intro p a ha
  obtain ⟨pindex,q,prev,hp,hq,-⟩ := actualSpacing_eq_some.mp ha
  by_cases hroot : p = cons.hashGenesisBlock
  · have hself : (loadedGenesis cons genesis wallet).mapBlockIndex p =
      some (genesisIndex cons genesis) := if_pos hroot
    rw [hself] at hp
    rw [← Option.some.inj hp] at hq
    cases hq
  · have hnone : (loadedGenesis cons genesis wallet).mapBlockIndex p = none := if_neg hroot
    rw [hnone] at hp
    cases hp

theorem AcceptRun.rooted {fuel : ℕ} {ok : NodeState W → CBlock → Prop} {genesis : CBlock}
    {wallet : W} {s : NodeState W}
    (h : AcceptRun cons net sync fuel ok (loadedGenesis cons genesis wallet) s) :
    Rooted cons.hashGenesisBlock s.mapBlockIndex := by
  induction h with
  | start => exact loadedGenesis_rooted genesis wallet
  | @accept s block io _ _ _ ih =>
    generalize hr : acceptBlock cons net sync io fuel block s = r
    obtain ⟨e,s'⟩ := r
    rcases acceptBlock_cases ih.root hr with ⟨rfl,-⟩ | hacc
    · exact ih
    · exact (ih.insert hacc.parent).same hacc.tree
  | @other s op _ hop ih => exact ih.same (Op.exec_tree hop fuel s)

/-- In every run whose blocks are each less than 302370 seconds older than their parents, the
divisor of every retargeting is positive; the first accepted block that is older makes it zero or
negative. -/
theorem retarget_divisor_positive (cons : Consensus) (net : NetParams) (sync : WalletSync W)
    (fuel : ℕ) (genesis : CBlock) (wallet : W) :
    (∀ s, AcceptRun cons net sync fuel NotTooOld (loadedGenesis cons genesis wallet) s →
      DividesSafely s) ∧
    (∀ ok s block io, AcceptRun cons net sync fuel ok (loadedGenesis cons genesis wallet) s →
      (acceptBlock cons net sync io fuel block s).1 = none → ¬NotTooOld s block →
      ¬DividesSafely (acceptBlock cons net sync io fuel block s).2) := by
  constructor
  · intro s h
    induction h with
    | start => exact loadedGenesis_dividesSafely genesis wallet
    | @accept s block io rest _ meets ih =>
      generalize hr : acceptBlock cons net sync io fuel block s = r
      obtain ⟨e,s'⟩ := r
      rcases acceptBlock_cases rest.rooted.root hr with ⟨rfl,-⟩ | hacc
      · exact ih
      · exact hacc.dividesSafely rest.rooted ih meets
    | @other s op _ hop ih => exact ih.same (Op.exec_tree hop fuel s)
  · intro ok s block io hrun hok hold hafter
    generalize hr : acceptBlock cons net sync io fuel block s = r at hok hafter
    obtain ⟨e,s'⟩ := r
    rcases acceptBlock_cases hrun.rooted.root hr with ⟨-,herr⟩ | hacc
    · exact herr hok
    · exact hold (hacc.notTooOld hrun.rooted hafter)

end Divisor

section TestNet

/-- A block three and a half days after the first. -/
def lateBlock : CBlock :=
  ⟨⟨2, testHashA, testTx2Id, 1400302371, 0x05000000, 17, 86355011212470⟩, [testTx2]⟩

def lateHash : Uint256 := 0x79710986136167cd292781ea8d498cc18d2b46a56f7fe1fd3507de0afe72b813

/-- A block on top of it, one second after the first. -/
def earlyBlock : CBlock :=
  ⟨⟨2, lateHash, testTx3Id, 1400000001, 0x04ff0000, 306, 42869748992070⟩, [testTx3]⟩

def earlyHash : Uint256 := 0x798afe5dbb2204b5d953c3bea4c5a2d327365f60f5fb1ee130aaf0da2642bdd9

def lateExternals : Externals where
  txHash tx := if tx = testTx2 then testTx2Id else if tx = testTx3 then testTx3Id
    else testExternals.txHash tx
  blockHash header := if header = lateBlock.toCBlockHeader then lateHash
    else if header = earlyBlock.toCBlockHeader then earlyHash else testExternals.blockHash header
  nodeHash := testExternals.nodeHash
  verifyScript := testExternals.verifyScript

def lateNet : Consensus := { testNet with ext := lateExternals }

def testParams : NetParams where
  fTestNet := true
  fCheckpoints := true
  mapCheckpoints nHeight := if nHeight = 0 then some testGenesisHash else none

/-- A call when the clock shows the time of the late block. -/
def lateAccept : AcceptBlockIO where
  nAdjustedTime := 1400302371
  syncCheckpointRejects := false
  findBlockPos := true
  writeToDisk := true
  add := ⟨true, true, fun _ _ => { testChainOutcome true with
    connect := fun _ => ⟨1400302371, true, true, true, true, true⟩ }⟩

def lateStart : NodeState Unit := loadedGenesis lateNet testGenesis ()

/-- The result and the state after one more block. -/
def lateStep (block : CBlock) (s : NodeState Unit) : Option AcceptBlockError × NodeState Unit :=
  acceptBlock lateNet testParams noWallet lateAccept 1 block s

/-- The node after the first block, after the late one, and after the early one on top of it. -/
def lateState1 : NodeState Unit := (lateStep testBlockA lateStart).2
def lateState2 : NodeState Unit := (lateStep lateBlock lateState1).2
def lateState3 : NodeState Unit := (lateStep earlyBlock lateState2).2

theorem late_run {ok : NodeState Unit → CBlock → Prop} (hfirst : ok lateStart testBlockA)
    (hlate : ok lateState1 lateBlock) :
    AcceptRun lateNet testParams noWallet 1 ok lateStart lateState2 :=
  AcceptRun.accept lateBlock lateAccept
    (AcceptRun.accept testBlockA lateAccept AcceptRun.start rfl hfirst) rfl hlate

/-- After the late block the divisor is positive, and the early block is too old. -/
theorem retarget_divisor_positive_testNet :
    actualSpacing lateState2.mapBlockIndex lateHash = some 302371 ∧
      0 < targetDivisor (nTargetTimespan/nTargetSpacing) nTargetSpacing 302371 ∧
      ¬DividesSafely lateState3 := by
  obtain ⟨hsafe,hdanger⟩ :=
    retarget_divisor_positive lateNet testParams noWallet 1 testGenesis ()
  have hspacing : actualSpacing lateState2.mapBlockIndex lateHash = some 302371 := by
    decide +kernel
  have hrun : AcceptRun lateNet testParams noWallet 1 NotTooOld lateStart lateState2 := by
    apply late_run
    · intro pindexPrev hprev hne
      have hgenesis : (lateStart.mapBlockIndex testBlockA.hashPrevBlock).bind CBlockIndex.pprev =
        none := by decide +kernel
      rw [hprev, Option.bind_some] at hgenesis
      exact absurd hgenesis hne
    · intro pindexPrev hprev hne
      have htime : (lateState1.mapBlockIndex lateBlock.hashPrevBlock).map CBlockIndex.nTime =
        some 1400000000 := by decide +kernel
      rw [hprev, Option.map_some] at htime
      rw [Option.some.inj htime]
      decide
  refine ⟨hspacing, hsafe lateState2 hrun lateHash 302371 hspacing, ?_⟩
  refine hdanger NotTooOld lateState2 earlyBlock lateAccept hrun (by decide +kernel) ?_
  intro hold
  obtain ⟨pindexPrev,hprev⟩ : ∃ pindexPrev, lateState2.mapBlockIndex lateHash = some pindexPrev :=
    Option.isSome_iff_exists.mp (by decide +kernel)
  have htime : (lateState2.mapBlockIndex lateHash).map CBlockIndex.nTime = some 1400302371 := by
    decide +kernel
  have hparent : (lateState2.mapBlockIndex lateHash).bind CBlockIndex.pprev = some testHashA := by
    decide +kernel
  rw [hprev, Option.map_some] at htime
  rw [hprev, Option.bind_some] at hparent
  have hlt := hold pindexPrev hprev (by rw [hparent]; exact Option.some_ne_none _)
  rw [Option.some.inj htime] at hlt
  exact absurd hlt (by decide)

/-- `AcceptBlock` accepts the three blocks, and the target after the third is a division by
zero. -/
theorem retarget_divides_by_zero :
    AcceptRun lateNet testParams noWallet 1 (fun _ _ => True) lateStart lateState3 ∧
      (lateStep testBlockA lateStart).1 = none ∧ (lateStep lateBlock lateState1).1 = none ∧
      (lateStep earlyBlock lateState2).1 = none ∧
      actualSpacing lateState3.mapBlockIndex earlyHash = some (-302370) ∧
      targetDivisor (nTargetTimespan/nTargetSpacing) nTargetSpacing (-302370) = 0 ∧
      getNextWorkRequired lateNet.target lateState3.mapBlockIndex (some earlyHash) = none := by
  refine ⟨AcceptRun.accept earlyBlock lateAccept (late_run trivial trivial) rfl trivial, ?_⟩
  decide +kernel

end TestNet

end Candypool.Chain
