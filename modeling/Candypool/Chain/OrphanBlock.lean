import Candypool.Chain.SyncCheckpoint
import Candypool.Prime.ProofOfWork
import Mathlib.Data.List.AList

/-! Blocks that came before their parents: `ProcessBlock` with the orphan maps and the queue that is
worked off when a parent arrives. -/
namespace Candypool.Chain
open Candypool.Prime Candypool.Core Candypool.Coins Candypool.Lib

/-- The orphans by their hash, and by the hash of their parent in the order they came. -/
structure OrphanBlocks where
  mapOrphanBlocks : AList fun _ : Uint256 => CBlock
  mapOrphanBlocksByPrev : Uint256 → List CBlock

def OrphanBlocks.empty : OrphanBlocks := ⟨∅, fun _ => []⟩

def OrphanBlocks.insert (o : OrphanBlocks) (hash : Uint256) (block : CBlock) : OrphanBlocks where
  mapOrphanBlocks := o.mapOrphanBlocks.insert hash block
  mapOrphanBlocksByPrev := Function.update o.mapOrphanBlocksByPrev block.hashPrevBlock
    (o.mapOrphanBlocksByPrev block.hashPrevBlock ++ [block])

def targetSetLength (nLength nBits : BitVec 32) : BitVec 32 :=
  if nLength ≥ 0xff then nBits else (nBits &&& targetFractionalMask) ||| (nLength <<< nFractionalBits)

/-- The time that has passed plays no part. -/
def computeMinWork (params : TargetParams) (nBase : BitVec 32) (_nTime : ℤ) : BitVec 32 :=
  targetSetLength params.nTargetMinLength nBase

/-- The hash of a header without its certificate, the heights of the checkpoints with the highest
first, and the fuel of the prime tests. -/
structure ProcessParams where
  headerHash : CBlockHeader → Uint256
  nHeights : List ℕ
  powFuel : ℕ

/-- `Checkpoints::GetLastCheckpoint`. -/
def NetParams.getLastCheckpoint (net : NetParams) (nHeights : List ℕ)
    (m : BlockPtr → Option CBlockIndex) : Option CBlockIndex :=
  if !net.fCheckpoints then none
  else nHeights.findSome? fun nHeight => (net.mapCheckpoints nHeight).bind m

inductive ProcessBlockError
  | alreadyHave
  | alreadyHaveOrphan
  | checkBlock (e : CheckBlockError)
  | proofOfWork
  | beforeLastCheckpoint
  | tooLittleProofOfWork
  | acceptBlock (e : AcceptBlockError)
  | exception
  deriving DecidableEq, Repr

/-- The clock, whether the block comes from a peer, what each call of `AcceptBlock` finds, and the
checkpoint that a node with the master key sends. -/
structure ProcessIO where
  nAdjustedTime : ℤ
  fPeer : Bool
  accept : ℕ → AcceptBlockIO × SyncIO
  send : Option ( SyncIO × CSyncCheckpoint)

/-- The chain and the orphans. -/
structure BlockNode (W : Type) where
  chain : SyncState W
  orphans : OrphanBlocks

/-- A call of `AcceptBlock`: the state it is made in, and its arguments. -/
structure BlockOffer (W : Type) where
  node : BlockNode W
  block : CBlock
  io : AcceptBlockIO × SyncIO

/-- The loop over `vWorkQueue`, with the calls of `AcceptBlock` so far. An exception ends it. -/
structure BlockQueue (W : Type) where
  node : BlockNode W
  vWorkQueue : List Uint256
  offers : List (BlockOffer W)
  fThrown : Bool

/-- The outcome of `ProcessBlock`, with the calls of `AcceptBlock` it made. -/
structure ProcessResult (W : Type) where
  error : Option ProcessBlockError
  node : BlockNode W
  offers : List (BlockOffer W)

section Defs
variable {W : Type} (cons : Consensus) (net : NetParams) (sync : WalletSync W) (fuel : ℕ)
  (params : ProcessParams)

def BlockOffer.exec (o : BlockOffer W) : Option AcceptBlockError × SyncState W :=
  acceptBlockSync cons net sync fuel o.io.1 o.io.2 o.block o.node.chain

/-- The body of the inner loop. -/
def resolveOrphanBlock (io : ProcessIO) (q : BlockQueue W) (pblockOrphan : CBlock) : BlockQueue W :=
  if q.fThrown then q
  else
    let offer : BlockOffer W := ⟨q.node, pblockOrphan, io.accept q.offers.length⟩
    let r := offer.exec cons net sync fuel
    let hash := pblockOrphan.getHash cons.ext
    if r.1 = some .targetException then { q with offers := q.offers ++ [offer], fThrown := true }
    else
      { node := ⟨r.2, { q.node.orphans with
          mapOrphanBlocks := q.node.orphans.mapOrphanBlocks.erase hash }⟩
        vWorkQueue := if r.1 = none then q.vWorkQueue ++ [hash] else q.vWorkQueue
        offers := q.offers ++ [offer]
        fThrown := false }

/-- What a turn of the outer loop leaves: the orphans of one parent are gone. -/
def BlockQueue.clearPrev (q : BlockQueue W) (hashPrev : Uint256) : BlockQueue W :=
  { q with node := ⟨q.node.chain, { q.node.orphans with
    mapOrphanBlocksByPrev :=
      Function.update q.node.orphans.mapOrphanBlocksByPrev hashPrev [] }⟩ }

/-- The loop over `vWorkQueue`; it has no value when the fuel runs out. -/
def resolveBlocks (io : ProcessIO) : ℕ → ℕ → BlockQueue W → Option (BlockQueue W)
  | 0, _, _ => none
  | loopFuel+1, i, q =>
    match q.vWorkQueue[i]? with
    | none => some q
    | some hashPrev =>
      let q := (q.node.orphans.mapOrphanBlocksByPrev hashPrev).foldl
        (resolveOrphanBlock cons net sync fuel io) q
      if q.fThrown then some q else resolveBlocks io loopFuel (i+1) (q.clearPrev hashPrev)

/-- The checks of `ProcessBlock` before the block is stored. -/
def processChecks (io : ProcessIO) (s : BlockNode W) (block : CBlock) : Option ProcessBlockError :=
  let hash := block.getHash cons.ext
  let m := s.chain.node.mapBlockIndex
  if (m hash).isSome then some .alreadyHave
  else if (s.orphans.mapOrphanBlocks.lookup hash).isSome then some .alreadyHaveOrphan
  else match block.checkBlock cons.ext io.nAdjustedTime true with
    | .error e => some (.checkBlock e)
    | .ok () =>
      match checkPrimeProofOfWork cons.target params.powFuel (params.headerHash block.toCBlockHeader)
          block.nBits block.bnPrimeChainMultiplier false with
      | some (.ok _) =>
        match net.getLastCheckpoint params.nHeights m with
        | none => none
        | some pcheckpoint =>
          if block.hashPrevBlock ≠ s.chain.node.hashBestChain then
            let deltaTime := (block.nTime : ℤ)-pcheckpoint.nTime
            if deltaTime < 0 then some .beforeLastCheckpoint
            else if block.nBits < computeMinWork cons.target pcheckpoint.nBits deltaTime then
              some .tooLittleProofOfWork
            else none
          else none
      | _ => some .proofOfWork

def processBlock (io : ProcessIO) (loopFuel : ℕ) (block : CBlock) (s : BlockNode W) :
    Option (ProcessResult W) :=
  let hash := block.getHash cons.ext
  match processChecks cons net params io s block with
  | some e => some ⟨some e, s, []⟩
  | none =>
    if block.hashPrevBlock ≠ 0 ∧ (s.chain.node.mapBlockIndex block.hashPrevBlock).isNone then
      -- an orphan is kept as long as there is a node to ask for its parents
      some ⟨none, if io.fPeer then ⟨s.chain, s.orphans.insert hash block⟩ else s, []⟩
    else
      let offer : BlockOffer W := ⟨s, block, io.accept 0⟩
      match offer.exec cons net sync fuel with
      | (some .targetException, chain) => some ⟨some .exception, ⟨chain, s.orphans⟩, [offer]⟩
      | (some e, chain) => some ⟨some (.acceptBlock e), ⟨chain, s.orphans⟩, [offer]⟩
      | (none, chain) => do
        let q ← resolveBlocks cons net sync fuel io loopFuel 0
          ⟨⟨chain, s.orphans⟩, [hash], [offer], false⟩
        if q.fThrown then return ⟨some .exception, q.node, q.offers⟩
        else
          let chain := match io.send with
            | some (outcome,checkpoint) =>
              if io.fPeer then (processSyncCheckpoint cons sync fuel outcome true checkpoint
                q.node.chain).2 else q.node.chain
            | none => q.node.chain
          return ⟨none, ⟨chain, q.node.orphans⟩, q.offers⟩

/-- The states that received blocks lead to from a node without orphans; `P` is asked of each call
and its calls of `AcceptBlock`. -/
inductive ProcessRun (P : ProcessResult W → Prop) (start : SyncState W) : BlockNode W → Prop
  | start : ProcessRun P start ⟨start, OrphanBlocks.empty⟩
  | block {s : BlockNode W} {io : ProcessIO} {loopFuel : ℕ} {block : CBlock} {r : ProcessResult W}
      (h : ProcessRun P start s)
      (hrun : processBlock cons net sync fuel params io loopFuel block s = some r) (hr : P r) :
      ProcessRun P start r.node

/-- `AcceptBlock` fails although the block went into the index, and orphans wait for the block; or it
throws while an orphan is offered. -/
def BlockOffer.Strands (o : BlockOffer W) : Prop :=
  (o.node.orphans.mapOrphanBlocksByPrev (o.block.getHash cons.ext) ≠ [] ∧
    ∃ exit, (o.exec cons net sync fuel).1 = some (.addToBlockIndex exit)) ∨
  (o.block ∈ o.node.orphans.mapOrphanBlocksByPrev o.block.hashPrevBlock ∧
    (o.exec cons net sync fuel).1 = some .targetException)

end Defs

/-- The two maps hold the same blocks. -/
structure OrphanBlocks.Same (ext : Externals) (o : OrphanBlocks) : Prop where
  key : ∀ hash block, o.mapOrphanBlocks.lookup hash = some block → block.getHash ext = hash
  prev : ∀ p, ∀ block ∈ o.mapOrphanBlocksByPrev p, block.hashPrevBlock = p
  mem : ∀ block, o.mapOrphanBlocks.lookup (block.getHash ext) = some block ↔
    block ∈ o.mapOrphanBlocksByPrev block.hashPrevBlock
  nodup : ∀ p, (o.mapOrphanBlocksByPrev p).Nodup

/-- No orphan is left behind: the maps agree, and no orphan has its parent in the index. -/
structure BlockNode.NoneLeft {W : Type} (ext : Externals) (s : BlockNode W) : Prop where
  same : s.orphans.Same ext
  unknown : ∀ hash block, s.orphans.mapOrphanBlocks.lookup hash = some block →
    s.chain.node.mapBlockIndex block.hashPrevBlock = none

section Index
variable {W : Type} {cons : Consensus} {net : NetParams} {sync : WalletSync W} {fuel : ℕ}

/-- The index has one more block. -/
def Gains (hash : Uint256) (m m' : BlockPtr → Option CBlockIndex) : Prop :=
  ∀ p, (m' p).isSome = true ↔ p = hash ∨ (m p).isSome = true

/-- The index has the blocks it had. -/
def SameBlocks (m m' : BlockPtr → Option CBlockIndex) : Prop :=
  ∀ p, (m' p).isSome = (m p).isSome

theorem contextualCheck_ne {io : AcceptBlockIO} {s : NodeState W} {block : CBlock}
    {pindexPrev : BlockPtr} {exit : ChainExit} :
    contextualCheck cons net io s block pindexPrev ≠ some (.addToBlockIndex exit) := by
  rw [contextualCheck]
  split
  · exact fun h => by cases h
  · split_ifs <;> exact fun h => by cases h

/-- `AcceptBlock` puts the block into the index if it gets as far as `AddToBlockIndex`, whatever comes
of that, and leaves the index otherwise. -/
theorem acceptBlock_index {io : AcceptBlockIO} {block : CBlock} {s s' : NodeState W}
    {e : Option AcceptBlockError} (h : acceptBlock cons net sync io fuel block s = (e,s')) :
    ((e = none ∨ ∃ exit, e = some (.addToBlockIndex exit)) ∧
      s.mapBlockIndex (block.getHash cons.ext) = none ∧
      Gains (block.getHash cons.ext) s.mapBlockIndex s'.mapBlockIndex) ∨
    ((∃ err, e = some err ∧ ∀ exit, err ≠ .addToBlockIndex exit) ∧ s' = s) := by
  rw [acceptBlock] at h
  split at h
  · rename_i err hchecks
    obtain ⟨rfl,rfl⟩ := Prod.mk.inj h
    refine Or.inr ⟨⟨err, rfl, fun exit heq => ?_⟩, rfl⟩
    subst heq
    split_ifs at hchecks
    all_goals first | cases hchecks | exact contextualCheck_ne hchecks
  rename_i hchecks
  split_ifs at h with hpos hdisk
  · obtain ⟨rfl,rfl⟩ := Prod.mk.inj h
    exact Or.inr ⟨⟨_, rfl, fun exit heq => by cases heq⟩, rfl⟩
  · obtain ⟨rfl,rfl⟩ := Prod.mk.inj h
    exact Or.inr ⟨⟨_, rfl, fun exit heq => by cases heq⟩, rfl⟩
  have hnew : s.mapBlockIndex (block.getHash cons.ext) = none := by
    cases hmem : s.mapBlockIndex (block.getHash cons.ext) with
    | none => rfl
    | some pindex =>
      rw [hmem, Option.isSome_some, if_pos rfl] at hchecks
      cases hchecks
  -- the block enters the index whatever the chain then does with it
  have htree := @addToBlockIndex_tree W cons sync io.add fuel block s hnew
  have hgains : ∀ r, r = addToBlockIndex cons sync io.add fuel block s →
      Gains (block.getHash cons.ext) s.mapBlockIndex r.2.mapBlockIndex := by
    rintro r rfl p
    rw [htree.isSome]
    by_cases hp : p = block.getHash cons.ext
    · rw [hp, insertIndex_self]
      exact iff_of_true rfl (Or.inl rfl)
    · rw [insertIndex_ne hp, or_iff_right hp]
  generalize hr : addToBlockIndex cons sync io.add fuel block s = r at h
  have hgain := hgains r hr.symm
  obtain ⟨exit,s1⟩ := r
  cases exit <;> obtain ⟨rfl,rfl⟩ := Prod.mk.inj h
  case ok => exact Or.inl ⟨Or.inl rfl, hnew, hgain⟩
  all_goals exact Or.inl ⟨Or.inr ⟨_, rfl⟩, hnew, hgain⟩

theorem writeSyncCheckpoint_node (io : SyncIO) (hashCheckpoint : Uint256) (s : SyncState W) :
    (writeSyncCheckpoint io hashCheckpoint s).2.node = s.node := by
  rw [writeSyncCheckpoint]
  split_ifs <;> rfl

theorem moveSyncCheckpoint_blocks (io : SyncIO) (hashCheckpoint : Uint256) (s : SyncState W) :
    SameBlocks s.node.mapBlockIndex
      (moveSyncCheckpoint cons sync fuel io hashCheckpoint s).2.2.node.mapBlockIndex := by
  obtain ⟨hashInvalid,hstate⟩ := validateSyncCheckpoint_state s hashCheckpoint
  rw [moveSyncCheckpoint]
  generalize validateSyncCheckpoint s hashCheckpoint = r at hstate
  obtain ⟨valid,s1⟩ := r
  dsimp only at hstate
  rw [hstate]
  cases valid with
  | false => exact fun p => rfl
  | true =>
    dsimp only
    obtain ⟨node,hashInvalid',hnode,htree⟩ := @enforceCheckpoint_state W cons sync fuel io
      hashCheckpoint { s with hashInvalidCheckpoint := hashInvalid }
    generalize enforceCheckpoint cons sync fuel io hashCheckpoint _ = r at hnode
    obtain ⟨switched,s2⟩ := r
    dsimp only at hnode
    rw [hnode]
    cases switched with
    | false => exact htree.isSome
    | true =>
      intro p
      dsimp only
      rw [writeSyncCheckpoint_node]
      exact htree.isSome p

theorem acceptPendingSyncCheckpoint_blocks (io : SyncIO) (s : SyncState W) :
    SameBlocks s.node.mapBlockIndex
      (acceptPendingSyncCheckpoint cons sync fuel io s).2.node.mapBlockIndex := by
  rw [acceptPendingSyncCheckpoint]
  split_ifs
  · have hmove := @moveSyncCheckpoint_blocks W cons sync fuel io s.hashPendingCheckpoint s
    generalize moveSyncCheckpoint cons sync fuel io s.hashPendingCheckpoint s = r at hmove
    obtain ⟨valid,written,s1⟩ := r
    cases valid <;> cases written <;> exact hmove
  · exact fun p => rfl

theorem processSyncCheckpoint_blocks (io : SyncIO) (signed : Bool) (checkpoint : CSyncCheckpoint)
    (s : SyncState W) : SameBlocks s.node.mapBlockIndex
      (processSyncCheckpoint cons sync fuel io signed checkpoint s).2.node.mapBlockIndex := by
  rw [processSyncCheckpoint]
  split_ifs
  · exact fun p => rfl
  · exact fun p => rfl
  · have hmove := @moveSyncCheckpoint_blocks W cons sync fuel io checkpoint.hashCheckpoint s
    generalize moveSyncCheckpoint cons sync fuel io checkpoint.hashCheckpoint s = r at hmove
    obtain ⟨valid,written,s1⟩ := r
    cases written <;> exact hmove

/-- The same of the call with the checkpoints around it. -/
theorem BlockOffer.exec_index (o : BlockOffer W) :
    (((o.exec cons net sync fuel).1 = none ∨
        ∃ exit, (o.exec cons net sync fuel).1 = some (.addToBlockIndex exit)) ∧
      o.node.chain.node.mapBlockIndex (o.block.getHash cons.ext) = none ∧
      Gains (o.block.getHash cons.ext) o.node.chain.node.mapBlockIndex
        (o.exec cons net sync fuel).2.node.mapBlockIndex) ∨
    ((∃ err, (o.exec cons net sync fuel).1 = some err ∧ ∀ exit, err ≠ .addToBlockIndex exit) ∧
      (o.exec cons net sync fuel).2 = o.node.chain) := by
  rw [BlockOffer.exec, acceptBlockSync]
  generalize hr : acceptBlock cons net sync _ fuel o.block o.node.chain.node = r
  obtain ⟨e,node⟩ := r
  rcases acceptBlock_index hr with ⟨he,hnew,hgain⟩ | ⟨⟨err,rfl,herr⟩,rfl⟩
  · left
    cases e with
    | none =>
      refine ⟨Or.inl rfl, hnew, fun p => ?_⟩
      dsimp only
      rw [acceptPendingSyncCheckpoint_blocks]
      exact hgain p
    | some err => exact ⟨he, hnew, hgain⟩
  · exact Or.inr ⟨⟨err, rfl, herr⟩, rfl⟩

end Index

section Maps
variable {ext : Externals} {o : OrphanBlocks}

theorem OrphanBlocks.Same.listed (h : o.Same ext) {hash : Uint256} {block : CBlock}
    (hlookup : o.mapOrphanBlocks.lookup hash = some block) :
    block ∈ o.mapOrphanBlocksByPrev block.hashPrevBlock :=
  (h.mem block).mp (by rw [h.key hash block hlookup, hlookup])

theorem OrphanBlocks.Same.lookup (h : o.Same ext) {p : Uint256} {block : CBlock}
    (hmem : block ∈ o.mapOrphanBlocksByPrev p) :
    o.mapOrphanBlocks.lookup (block.getHash ext) = some block :=
  (h.mem block).mpr (by rwa [h.prev p block hmem])

theorem empty_same (ext : Externals) : OrphanBlocks.empty.Same ext := by
  refine ⟨fun hash block h => ?_, fun p block h => ?_, fun block => ?_, fun p => ?_⟩
  · cases h
  · cases h
  · exact iff_of_false (fun h => by cases h) (fun h => by cases h)
  · exact List.nodup_nil

theorem OrphanBlocks.Same.insert (h : o.Same ext) {block : CBlock}
    (hnew : o.mapOrphanBlocks.lookup (block.getHash ext) = none) :
    (o.insert (block.getHash ext) block).Same ext := by
  -- no block that waits has this hash
  have hold : ∀ p, block ∉ o.mapOrphanBlocksByPrev p := by
    intro p hmem
    rw [h.lookup hmem] at hnew
    cases hnew
  -- what the map holds afterwards
  have hlookup : ∀ hash block', (o.insert (block.getHash ext) block).mapOrphanBlocks.lookup hash =
      some block' ↔ hash = block.getHash ext ∧ block' = block ∨
        o.mapOrphanBlocks.lookup hash = some block' := by
    intro hash block'
    by_cases heq : hash = block.getHash ext
    · subst heq
      have hself : (o.mapOrphanBlocks.insert (block.getHash ext) block).lookup (block.getHash ext) =
          some block := AList.lookup_insert _
      rw [OrphanBlocks.insert, hself, hnew]
      simp [eq_comm]
    · have hother : (o.mapOrphanBlocks.insert (block.getHash ext) block).lookup hash =
          o.mapOrphanBlocks.lookup hash := AList.lookup_insert_ne heq
      rw [OrphanBlocks.insert, hother, or_iff_right fun h => heq h.1]
  have hmem : ∀ p block', block' ∈ (o.insert (block.getHash ext) block).mapOrphanBlocksByPrev p ↔
      p = block.hashPrevBlock ∧ block' = block ∨ block' ∈ o.mapOrphanBlocksByPrev p := by
    intro p block'
    by_cases heq : p = block.hashPrevBlock
    · subst heq
      simp [OrphanBlocks.insert, or_comm]
    · simp [OrphanBlocks.insert, heq]
  constructor
  · intro hash block' hl
    rcases (hlookup hash block').mp hl with ⟨rfl,rfl⟩ | hl
    · rfl
    · exact h.key hash block' hl
  · intro p block' hm
    rcases (hmem p block').mp hm with ⟨rfl,rfl⟩ | hm
    · rfl
    · exact h.prev p block' hm
  · intro block'
    rw [hlookup, hmem, h.mem block']
    refine or_congr_left ⟨?_, ?_⟩
    · rintro ⟨-,rfl⟩
      exact ⟨rfl, rfl⟩
    · rintro ⟨-,rfl⟩
      exact ⟨rfl, rfl⟩
  · intro p
    by_cases heq : p = block.hashPrevBlock
    · subst heq
      simpa [OrphanBlocks.insert, List.nodup_append] using
        ⟨h.nodup _, fun b hb hbl => hold _ (hbl ▸ hb)⟩
    · simpa [OrphanBlocks.insert, heq] using h.nodup p

/-- The orphans of one parent are taken out of both maps. -/
theorem OrphanBlocks.Same.clearPrev (h : o.Same ext) {hashPrev : Uint256}
    {m : AList fun _ : Uint256 => CBlock}
    (hm : ∀ hash, m.lookup hash = if ∃ block ∈ o.mapOrphanBlocksByPrev hashPrev,
      block.getHash ext = hash then none else o.mapOrphanBlocks.lookup hash) :
    (⟨m, Function.update o.mapOrphanBlocksByPrev hashPrev []⟩ : OrphanBlocks).Same ext ∧
      ∀ hash block, m.lookup hash = some block →
        o.mapOrphanBlocks.lookup hash = some block ∧ block.hashPrevBlock ≠ hashPrev := by
  have hkept : ∀ hash block, m.lookup hash = some block ↔
      o.mapOrphanBlocks.lookup hash = some block ∧ block.hashPrevBlock ≠ hashPrev := by
    intro hash block
    rw [hm hash]
    constructor
    · intro hl
      split_ifs at hl with hex
      refine ⟨hl, fun hprev => hex ⟨block, ?_, h.key hash block hl⟩⟩
      rw [← hprev]
      exact h.listed hl
    · rintro ⟨hl,hne⟩
      rw [if_neg, hl]
      rintro ⟨block',hmem,rfl⟩
      -- two orphans of one hash are one
      rw [h.lookup hmem] at hl
      obtain rfl := Option.some.inj hl
      exact hne (h.prev _ _ hmem)
  refine ⟨⟨?_, ?_, ?_, ?_⟩, fun hash block hl => (hkept hash block).mp hl⟩
  · exact fun hash block hl => h.key hash block ((hkept hash block).mp hl).1
  · intro p block hmem
    by_cases heq : p = hashPrev
    · subst heq
      simp at hmem
    · exact h.prev p block (by simpa [heq] using hmem)
  · intro block
    rw [hkept, h.mem block]
    by_cases heq : block.hashPrevBlock = hashPrev
    · simp [heq]
    · simp [heq]
  · intro p
    by_cases heq : p = hashPrev
    · simp [heq]
    · simpa [heq] using h.nodup p

end Maps

section Queue
variable {W : Type} {cons : Consensus} {net : NetParams} {sync : WalletSync W} {fuel : ℕ}
  {io : ProcessIO} {q : BlockQueue W} {i : ℕ}

/-- The block is in the index of the queue's node. -/
def BlockQueue.Known (q : BlockQueue W) (hash : Uint256) : Prop :=
  (q.node.chain.node.mapBlockIndex hash).isSome = true

def BlockQueue.orphan (q : BlockQueue W) (hash : Uint256) : Option CBlock :=
  q.node.orphans.mapOrphanBlocks.lookup hash

/-- The invariant of the inner loop: an orphan whose parent is known waits for a turn of the outer
loop that is not over. -/
structure BlockQueue.Pending (q : BlockQueue W) (i : ℕ) : Prop where
  quiet : q.fThrown = false
  turn : i ≤ q.vWorkQueue.length
  listed : ∀ hash block, q.orphan hash = some block →
    block ∈ q.node.orphans.mapOrphanBlocksByPrev block.hashPrevBlock
  known : ∀ hash block, q.orphan hash = some block → q.Known block.hashPrevBlock →
    block.hashPrevBlock ∈ q.vWorkQueue.drop i

theorem resolveOrphanBlock_offers (q : BlockQueue W) (block : CBlock) :
    q.offers ⊆ (resolveOrphanBlock cons net sync fuel io q block).offers := by
  rw [resolveOrphanBlock]
  split_ifs
  · exact List.Subset.refl _
  · dsimp only
    split_ifs <;> exact List.subset_append_left _ _

theorem resolveOrphanBlocks_offers (l : List CBlock) (q : BlockQueue W) :
    q.offers ⊆ (l.foldl (resolveOrphanBlock cons net sync fuel io) q).offers := by
  induction l generalizing q with
  | nil => exact List.Subset.refl _
  | cons block l ih => exact List.Subset.trans (resolveOrphanBlock_offers q block) (ih _)

/-- What the inner loop does to the orphans and the queue while nothing is thrown. -/
structure BlockQueue.Moves (ext : Externals) (q q' : BlockQueue W) (l : List CBlock) : Prop where
  byPrev : q'.node.orphans.mapOrphanBlocksByPrev = q.node.orphans.mapOrphanBlocksByPrev
  queue : ∃ pushed, q'.vWorkQueue = q.vWorkQueue ++ pushed
  orphan : ∀ hash, q'.orphan hash =
    if ∃ block ∈ l, block.getHash ext = hash then none else q.orphan hash

theorem BlockQueue.Moves.nil (ext : Externals) (q : BlockQueue W) : q.Moves ext q [] := by
  refine ⟨rfl, ⟨[], (List.append_nil _).symm⟩, fun hash => ?_⟩
  rw [if_neg]
  rintro ⟨block,hmem,-⟩
  cases hmem

theorem BlockQueue.Moves.before {ext : Externals} {q₁ q₂ : BlockQueue W} {block : CBlock}
    {l : List CBlock} (h : q.Moves ext q₁ [block]) (h' : q₁.Moves ext q₂ l) :
    q.Moves ext q₂ (block :: l) := by
  obtain ⟨pushed,hpushed⟩ := h.queue
  obtain ⟨pushed',hpushed'⟩ := h'.queue
  refine ⟨h'.byPrev.trans h.byPrev, ⟨pushed ++ pushed', ?_⟩, fun hash => ?_⟩
  · rw [hpushed', hpushed, List.append_assoc]
  · rw [h'.orphan]
    by_cases hl : ∃ block' ∈ l, block'.getHash ext = hash
    · rw [if_pos hl, if_pos]
      obtain ⟨block',hmem,heq⟩ := hl
      exact ⟨block', List.mem_cons_of_mem _ hmem, heq⟩
    · rw [if_neg hl, h.orphan]
      by_cases hb : block.getHash ext = hash
      · rw [if_pos ⟨block, List.mem_singleton_self _, hb⟩, if_pos ⟨block, List.mem_cons_self, hb⟩]
      · rw [if_neg, if_neg]
        · rintro ⟨block',hmem,heq⟩
          rcases List.mem_cons.mp hmem with rfl | hmem
          · exact hb heq
          · exact hl ⟨block', hmem, heq⟩
        · rintro ⟨block',hmem,heq⟩
          rw [List.mem_singleton.mp hmem] at heq
          exact hb heq

/-- One orphan is offered. -/
theorem resolveOrphanBlock_pending (h : q.Pending i) {block : CBlock}
    (hmem : block ∈ q.node.orphans.mapOrphanBlocksByPrev block.hashPrevBlock)
    (hsafe : ¬BlockOffer.Strands cons net sync fuel
      ⟨q.node, block, io.accept q.offers.length⟩) :
    (resolveOrphanBlock cons net sync fuel io q block).Pending i ∧
      q.Moves cons.ext (resolveOrphanBlock cons net sync fuel io q block) [block] := by
  set offer : BlockOffer W := ⟨q.node, block, io.accept q.offers.length⟩ with hoffer
  have hthrow : (offer.exec cons net sync fuel).1 ≠ some .targetException :=
    fun hthrow => hsafe (Or.inr ⟨hmem, hthrow⟩)
  have hstep : resolveOrphanBlock cons net sync fuel io q block =
      { node := ⟨(offer.exec cons net sync fuel).2, { q.node.orphans with
          mapOrphanBlocks := q.node.orphans.mapOrphanBlocks.erase (block.getHash cons.ext) }⟩
        vWorkQueue := if (offer.exec cons net sync fuel).1 = none then
          q.vWorkQueue ++ [block.getHash cons.ext] else q.vWorkQueue
        offers := q.offers ++ [offer]
        fThrown := false } := by
    rw [resolveOrphanBlock, if_neg (by rw [h.quiet]; exact Bool.false_ne_true)]
    exact if_neg hthrow
  have herase : ∀ hash, (q.node.orphans.mapOrphanBlocks.erase (block.getHash cons.ext)).lookup hash =
      if hash = block.getHash cons.ext then none else q.orphan hash := by
    intro hash
    split_ifs with heq
    · rw [heq]
      exact AList.lookup_erase _ _
    · exact AList.lookup_erase_ne heq
  have hkept : ∀ hash block', (q.node.orphans.mapOrphanBlocks.erase
      (block.getHash cons.ext)).lookup hash = some block' → q.orphan hash = some block' := by
    intro hash block' hl
    rw [herase] at hl
    split_ifs at hl
    exact hl
  rw [hstep]
  constructor
  · constructor
    · rfl
    · dsimp only
      split_ifs
      · exact h.turn.trans (by simp)
      · exact h.turn
    · exact fun hash block' hl => h.listed hash block' (hkept hash block' hl)
    · intro hash block' hl hknown
      have hl := hkept hash block' hl
      have hdrop : ∀ l, (q.vWorkQueue ++ l).drop i = q.vWorkQueue.drop i ++ l := fun l =>
        List.drop_append_of_le_length h.turn
      rcases @BlockOffer.exec_index W cons net sync fuel offer with ⟨hresult,-,hgain⟩ | ⟨⟨err,herr,-⟩,hsame⟩
      · rcases (hgain block'.hashPrevBlock).mp hknown with heq | hold
        · rcases hresult with hok | ⟨exit,hexit⟩
          · -- accepted: its hash is pushed
            dsimp only
            rw [if_pos hok, hdrop, heq]
            exact List.mem_append_right _ (List.mem_singleton_self _)
          · -- refused with orphans that wait for it
            refine absurd (Or.inl ⟨?_, exit, hexit⟩) hsafe
            refine List.ne_nil_of_mem (a := block') ?_
            change block' ∈ q.node.orphans.mapOrphanBlocksByPrev (block.getHash cons.ext)
            rw [← heq]
            exact h.listed hash block' hl
        · dsimp only
          split_ifs
          · rw [hdrop]
            exact List.mem_append_left _ (h.known hash block' hl hold)
          · exact h.known hash block' hl hold
      · have hknown' : q.Known block'.hashPrevBlock := by
          rw [BlockQueue.Known] at hknown ⊢
          dsimp only at hknown
          rwa [hsame] at hknown
        dsimp only
        rw [if_neg (by rw [herr]; exact Option.some_ne_none _)]
        exact h.known hash block' hl hknown'
  · refine ⟨rfl, ?_, fun hash => ?_⟩
    · dsimp only
      split_ifs
      · exact ⟨_, rfl⟩
      · exact ⟨[], (List.append_nil _).symm⟩
    · change (q.node.orphans.mapOrphanBlocks.erase (block.getHash cons.ext)).lookup hash = _
      rw [herase]
      simp [eq_comm]

/-- The orphans of one parent are offered. -/
theorem resolveOrphanBlocks_pending {l : List CBlock} (h : q.Pending i)
    (hmem : ∀ block ∈ l, block ∈ q.node.orphans.mapOrphanBlocksByPrev block.hashPrevBlock)
    (hsafe : ∀ o ∈ (l.foldl (resolveOrphanBlock cons net sync fuel io) q).offers,
      ¬o.Strands cons net sync fuel) :
    (l.foldl (resolveOrphanBlock cons net sync fuel io) q).Pending i ∧
      q.Moves cons.ext (l.foldl (resolveOrphanBlock cons net sync fuel io) q) l := by
  induction l generalizing q with
  | nil => exact ⟨h, BlockQueue.Moves.nil _ _⟩
  | cons block l ih =>
    rw [List.foldl_cons] at hsafe ⊢
    have hoffer : ¬BlockOffer.Strands cons net sync fuel
        ⟨q.node, block, io.accept q.offers.length⟩ := by
      apply hsafe
      apply resolveOrphanBlocks_offers
      rw [resolveOrphanBlock, if_neg (by rw [h.quiet]; exact Bool.false_ne_true)]
      dsimp only
      split_ifs <;> exact List.mem_append_right _ (List.mem_singleton_self _)
    obtain ⟨hpending,hmoves⟩ := resolveOrphanBlock_pending h (hmem block List.mem_cons_self) hoffer
    obtain ⟨hpending',hmoves'⟩ := ih hpending (fun block' hm => by
      rw [hmoves.byPrev]
      exact hmem block' (List.mem_cons_of_mem _ hm)) hsafe
    exact ⟨hpending', hmoves.before hmoves'⟩

/-- A turn of the outer loop: none of the orphans that are left has the parent of the turn. -/
theorem turn_pending {hashPrev : Uint256} (hsame : q.node.orphans.Same cons.ext) (h : q.Pending i)
    (hturn : q.vWorkQueue[i]? = some hashPrev)
    (hsafe : ∀ o ∈ ((q.node.orphans.mapOrphanBlocksByPrev hashPrev).foldl
      (resolveOrphanBlock cons net sync fuel io) q).offers, ¬o.Strands cons net sync fuel) :
    let q' := (q.node.orphans.mapOrphanBlocksByPrev hashPrev).foldl
      (resolveOrphanBlock cons net sync fuel io) q
    q'.fThrown = false ∧ (q'.clearPrev hashPrev).node.orphans.Same cons.ext ∧
      (q'.clearPrev hashPrev).Pending (i+1) := by
  obtain ⟨hpending,hmoves⟩ := resolveOrphanBlocks_pending h (fun block hm => by
    rwa [hsame.prev _ _ hm]) hsafe
  dsimp only
  generalize (q.node.orphans.mapOrphanBlocksByPrev hashPrev).foldl
    (resolveOrphanBlock cons net sync fuel io) q = q' at hpending hmoves
  obtain ⟨hclear,hkept⟩ := hsame.clearPrev hmoves.orphan
  obtain ⟨pushed,hpushed⟩ := hmoves.queue
  have hlt : i < q.vWorkQueue.length := (List.getElem?_eq_some_iff.mp hturn).choose
  have hdrop : q'.vWorkQueue.drop i = hashPrev :: q'.vWorkQueue.drop (i+1) := by
    have hlt' : i < q'.vWorkQueue.length := by
      rw [hpushed, List.length_append]
      omega
    have hget : q'.vWorkQueue[i]? = some hashPrev := by
      rw [hpushed, List.getElem?_append_left hlt, hturn]
    rw [List.drop_eq_getElem_cons hlt', (List.getElem?_eq_some_iff.mp hget).choose_spec]
  have hsame' : (q'.clearPrev hashPrev).node.orphans.Same cons.ext := by
    rw [BlockQueue.clearPrev, hmoves.byPrev]
    exact hclear
  refine ⟨hpending.quiet, hsame', ⟨hpending.quiet, ?_, fun _ _ hl => hsame'.listed hl, ?_⟩⟩
  · change i+1 ≤ q'.vWorkQueue.length
    rw [hpushed, List.length_append]
    omega
  · intro hash block hl hknown
    have hwaits := hpending.known hash block hl hknown
    rw [hdrop] at hwaits
    exact (List.mem_cons.mp hwaits).resolve_left (hkept hash block hl).2

theorem resolveBlocks_offers {loopFuel : ℕ} {q q' : BlockQueue W}
    (h : resolveBlocks cons net sync fuel io loopFuel i q = some q') : q.offers ⊆ q'.offers := by
  induction loopFuel generalizing i q with
  | zero => cases h
  | succ loopFuel ih =>
    rw [resolveBlocks] at h
    split at h
    · rw [Option.some.inj h]
      exact List.Subset.refl _
    · dsimp only at h
      split_ifs at h
      · rw [← Option.some.inj h]
        exact resolveOrphanBlocks_offers _ _
      · exact fun o ho => ih h (resolveOrphanBlocks_offers _ _ ho)

/-- The queue is worked off without leaving an orphan behind. -/
theorem resolveBlocks_noneLeft {loopFuel : ℕ} {q' : BlockQueue W}
    (hsame : q.node.orphans.Same cons.ext) (hq : q.Pending i)
    (h : resolveBlocks cons net sync fuel io loopFuel i q = some q')
    (hsafe : ∀ o ∈ q'.offers, ¬o.Strands cons net sync fuel) :
    q'.fThrown = false ∧ q'.node.NoneLeft cons.ext := by
  induction loopFuel generalizing i q with
  | zero => cases h
  | succ loopFuel ih =>
    rw [resolveBlocks] at h
    split at h
    · rename_i hend
      obtain rfl := Option.some.inj h
      refine ⟨hq.quiet, hsame, fun hash block hl => ?_⟩
      have hdrop : q.vWorkQueue.drop i = [] :=
        List.drop_eq_nil_of_le (List.getElem?_eq_none_iff.mp hend)
      by_contra hne
      have hwaits := hq.known hash block hl (Option.isSome_iff_ne_none.mpr hne)
      rw [hdrop] at hwaits
      cases hwaits
    · rename_i hashPrev hturn
      dsimp only at h
      have hoffers : ((q.node.orphans.mapOrphanBlocksByPrev hashPrev).foldl
          (resolveOrphanBlock cons net sync fuel io) q).offers ⊆ q'.offers := by
        split_ifs at h
        · rw [← Option.some.inj h]
          exact List.Subset.refl _
        · exact fun o ho => resolveBlocks_offers h ho
      obtain ⟨hquiet,hsame',hpending⟩ := turn_pending hsame hq hturn fun o ho =>
        hsafe o (hoffers ho)
      rw [hquiet, if_neg Bool.false_ne_true] at h
      exact ih hsame' hpending h

end Queue

section Runs
variable {W : Type} {cons : Consensus} {net : NetParams} {sync : WalletSync W} {fuel : ℕ}
  {params : ProcessParams} {io : ProcessIO} {s : BlockNode W} {block : CBlock}

theorem processChecks_new (h : processChecks cons net params io s block = none) :
    s.orphans.mapOrphanBlocks.lookup (block.getHash cons.ext) = none := by
  cases hl : s.orphans.mapOrphanBlocks.lookup (block.getHash cons.ext) with
  | none => rfl
  | some c =>
    simp only [processChecks, hl, Option.isSome_some, if_true] at h
    split_ifs at h

/-- The call of `AcceptBlock` for the block itself, as the start of the queue. -/
theorem accepted_pending {offer : BlockOffer W} (hs : s.NoneLeft cons.ext)
    (hnode : offer.node = s) (hok : (offer.exec cons net sync fuel).1 = none) :
    BlockQueue.Pending ⟨⟨(offer.exec cons net sync fuel).2, s.orphans⟩,
      [offer.block.getHash cons.ext], [offer], false⟩ 0 := by
  subst hnode
  refine ⟨rfl, Nat.zero_le _, fun hash c hl => hs.same.listed hl, fun hash c hl hknown => ?_⟩
  rcases @BlockOffer.exec_index W cons net sync fuel offer with ⟨-,-,hgain⟩ | ⟨⟨err,herr,-⟩,-⟩
  · rcases (hgain c.hashPrevBlock).mp hknown with heq | hold
    · rw [heq]
      exact List.mem_singleton_self _
    · rw [hs.unknown hash c hl] at hold
      cases hold
  · rw [hok] at herr
    cases herr

/-- The call fails: the index gains no block that an orphan waits for. -/
theorem refused_noneLeft {offer : BlockOffer W} (hs : s.NoneLeft cons.ext) (hnode : offer.node = s)
    (hfail : (offer.exec cons net sync fuel).1 ≠ none) (hsafe : ¬offer.Strands cons net sync fuel) :
    BlockNode.NoneLeft cons.ext ⟨(offer.exec cons net sync fuel).2, s.orphans⟩ := by
  subst hnode
  refine ⟨hs.same, fun hash c hl => ?_⟩
  rcases @BlockOffer.exec_index W cons net sync fuel offer with
    ⟨hresult,-,hgain⟩ | ⟨-,hsame⟩
  · obtain ⟨exit,hexit⟩ := hresult.resolve_left hfail
    by_contra hne
    rcases (hgain c.hashPrevBlock).mp (Option.isSome_iff_ne_none.mpr hne) with heq | hold
    · refine hsafe (Or.inl ⟨List.ne_nil_of_mem (a := c) ?_, exit, hexit⟩)
      rw [← heq]
      exact hs.same.listed hl
    · rw [hs.unknown hash c hl] at hold
      cases hold
  · dsimp only
    rw [hsame]
    exact hs.unknown hash c hl

/-- One call of `ProcessBlock`. -/
theorem processBlock_noneLeft (hs : s.NoneLeft cons.ext) {loopFuel : ℕ} {r : ProcessResult W}
    (h : processBlock cons net sync fuel params io loopFuel block s = some r)
    (hsafe : ∀ o ∈ r.offers, ¬o.Strands cons net sync fuel) : r.node.NoneLeft cons.ext := by
  rw [processBlock] at h
  dsimp only at h
  split at h
  · rw [← Option.some.inj h]
    exact hs
  rename_i hchecks
  by_cases hprev : block.hashPrevBlock ≠ 0 ∧
    (s.chain.node.mapBlockIndex block.hashPrevBlock).isNone = true
  -- the parent is not known: the block waits
  · rw [if_pos hprev] at h
    rw [← Option.some.inj h]
    dsimp only
    split_ifs
    · refine ⟨hs.same.insert (processChecks_new hchecks), fun hash c hl => ?_⟩
      by_cases heq : hash = block.getHash cons.ext
      · subst heq
        have hc : some block = some c := (AList.lookup_insert _).symm.trans hl
        rw [← Option.some.inj hc]
        exact Option.isNone_iff_eq_none.mp hprev.2
      · exact hs.unknown hash c ((AList.lookup_insert_ne heq).symm.trans hl)
    · exact hs
  rw [if_neg hprev] at h
  -- the parent is known: the block is offered to the chain
  set offer : BlockOffer W := ⟨s, block, io.accept 0⟩ with hoffer
  have hrefused := @refused_noneLeft W cons net sync fuel s offer hs rfl
  have hpending := @accepted_pending W cons net sync fuel s offer hs rfl
  generalize hexec : offer.exec cons net sync fuel = e at h hrefused hpending
  obtain ⟨result,chain⟩ := e
  dsimp only at hrefused hpending
  split at h
  · rename_i heq
    obtain ⟨rfl,rfl⟩ := Prod.mk.inj heq
    rw [← Option.some.inj h] at hsafe ⊢
    exact hrefused (Option.some_ne_none _) (hsafe offer (List.mem_singleton_self _))
  · rename_i heq
    obtain ⟨rfl,rfl⟩ := Prod.mk.inj heq
    rw [← Option.some.inj h] at hsafe ⊢
    exact hrefused (Option.some_ne_none _) (hsafe offer (List.mem_singleton_self _))
  · rename_i heq
    obtain ⟨rfl,rfl⟩ := Prod.mk.inj heq
    obtain ⟨q,hq,hr⟩ := Option.bind_eq_some_iff.mp h
    have hoffers : r.offers = q.offers := by
      split_ifs at hr <;> rw [← Option.some.inj hr]
    rw [hoffers] at hsafe
    obtain ⟨hquiet,hnone⟩ := resolveBlocks_noneLeft hs.same (hpending rfl) hq hsafe
    rw [hquiet, if_neg Bool.false_ne_true] at hr
    rw [← Option.some.inj hr]
    refine ⟨hnone.same, fun hash c hl => ?_⟩
    have hunknown := hnone.unknown hash c hl
    dsimp only
    -- a pending checkpoint leaves the waiting blocks as they are
    split
    · rename_i outcome checkpoint _
      split_ifs
      · have hblocks := @processSyncCheckpoint_blocks W cons sync fuel outcome true checkpoint
          q.node.chain c.hashPrevBlock
        rw [hunknown] at hblocks
        exact Option.isNone_iff_eq_none.mp (by simpa using hblocks)
      · exact hunknown
    · exact hunknown

/-- While no call of `AcceptBlock` strands an orphan, none is left behind. -/
theorem no_orphan_block_left (cons : Consensus) (net : NetParams) (sync : WalletSync W) (fuel : ℕ)
    (params : ProcessParams) (start : SyncState W) (s : BlockNode W)
    (h : ProcessRun cons net sync fuel params
      (fun r => ∀ o ∈ r.offers, ¬o.Strands cons net sync fuel) start s) : s.NoneLeft cons.ext := by
  induction h with
  | start => exact ⟨empty_same _, fun hash c hl => by cases hl⟩
  | block _ hrun hsafe ih => exact processBlock_noneLeft ih hrun hsafe

end Runs

section Sample

/-- A coinbase that pays far more than the subsidy. -/
def overpaidTx : CTransaction := testCoinbase [0x51, 0x51] (1000*coin)

def overpaidTxId : Uint256 := 0x6342ced27614901dc4d7a1997f5c088050bf564b56bc83a14e981adc795fe78f

/-- A block with it, and one on top of that. -/
def overpaidBlock : CBlock :=
  ⟨⟨2, testGenesisHash, overpaidTxId, 1400000000, 0x05000000, 10, 17349886319675910⟩, [overpaidTx]⟩

def overpaidHash : Uint256 := 0x736b0578015eab34f62ef9b351101a2f985434b161cce0246d479769ddea4842

def waitingBlock : CBlock :=
  ⟨⟨2, overpaidHash, testTx2Id, 1400000100, 0x05000000, 1, 311062902255945840⟩, [testTx2]⟩

def waitingHash : Uint256 := 0x139315b8690f355ec262ac97f73601166b9000b2ecaf890446d9e4f5e1bf29e0

def orphanExternals : Externals where
  txHash tx := if tx = overpaidTx then overpaidTxId else if tx = testTx2 then testTx2Id
    else testExternals.txHash tx
  blockHash header := if header = overpaidBlock.toCBlockHeader then overpaidHash
    else if header = waitingBlock.toCBlockHeader then waitingHash
    else lateExternals.blockHash header
  nodeHash := testExternals.nodeHash
  verifyScript := testExternals.verifyScript

def orphanNet : Consensus := { testNet with ext := orphanExternals }

/-- SHA-256 of the headers without their certificates. -/
def orphanParams : ProcessParams where
  headerHash header :=
    if header = overpaidBlock.toCBlockHeader then
      0xf352040dc53a1ddabd5dad876de46787883ba9d7c16251c44c2bc3303f90ce99
    else if header = waitingBlock.toCBlockHeader then
      0xc9fb19716230d793c7870cc37a1ae99baeedcec8ae3ab4e8e584c152bc92682d
    else if header = testBlockA.toCBlockHeader then
      0x8846cd5acf3fed68ffe29609fbaced731c0a049058802232e598feb049267b08
    else if header = lateBlock.toCBlockHeader then
      0xf0b83d0a12a23dba0f4528204696b58f0dae8b4e03ad5d4983f66341d2639aa5
    else 0
  nHeights := [0]
  powFuel := 10

def orphanOutcome : ProcessIO where
  nAdjustedTime := lateAccept.nAdjustedTime
  fPeer := true
  accept _ := (lateAccept, ⟨true, true, lateAccept.add.chain⟩)
  send := none

def orphanStart : BlockNode Unit where
  chain := ⟨loadedGenesis orphanNet testGenesis (), testGenesisHash, 0, 0, .null, .null⟩
  orphans := OrphanBlocks.empty

def orphanStep (block : CBlock) (s : BlockNode Unit) : Option (ProcessResult Unit) :=
  processBlock orphanNet testParams noWallet 1 orphanParams orphanOutcome 3 block s

/-- The node after a block, unless the loop was cut off. -/
def orphanNode (block : CBlock) (s : BlockNode Unit) : BlockNode Unit :=
  ((orphanStep block s).map ProcessResult.node).getD s

theorem orphanNode_run {P : ProcessResult Unit → Prop} {s : BlockNode Unit} {block : CBlock}
    (h : ProcessRun orphanNet testParams noWallet 1 orphanParams P orphanStart.chain s)
    (hsome : (orphanStep block s).isSome = true) (hP : ∀ r, orphanStep block s = some r → P r) :
    ProcessRun orphanNet testParams noWallet 1 orphanParams P orphanStart.chain
      (orphanNode block s) := by
  obtain ⟨r,hr⟩ := Option.isSome_iff_exists.mp hsome
  rw [orphanNode, hr]
  exact .block h hr (hP r hr)

/-- A step whose calls of `AcceptBlock` all succeed. -/
theorem orphanStep_safe {s : BlockNode Unit} {block : CBlock}
    (hall : (orphanStep block s).all (fun r => r.offers.all fun o =>
      (o.exec orphanNet testParams noWallet 1).1 = none) = true) (r : ProcessResult Unit)
    (hr : orphanStep block s = some r) (o : BlockOffer Unit) (ho : o ∈ r.offers) :
    ¬o.Strands orphanNet testParams noWallet 1 := by
  rw [hr, Option.all_some, List.all_eq_true] at hall
  have hok := of_decide_eq_true (hall o ho)
  rintro (⟨-,exit,hexit⟩ | ⟨-,hthrow⟩)
  · rw [hok] at hexit
    cases hexit
  · rw [hok] at hthrow
    cases hthrow

/-- A child comes before its parent and is taken out when the parent arrives. -/
theorem no_orphan_block_left_late :
    (orphanNode lateBlock orphanStart).orphans.mapOrphanBlocks.lookup lateHash = some lateBlock ∧
      ((orphanNode testBlockA (orphanNode lateBlock orphanStart)).chain.node.mapBlockIndex
        lateHash).isSome = true ∧
      (orphanNode testBlockA (orphanNode lateBlock orphanStart)).NoneLeft orphanExternals := by
  refine ⟨by decide +kernel, by decide +kernel, no_orphan_block_left orphanNet testParams noWallet 1
    orphanParams orphanStart.chain _ ?_⟩
  apply orphanNode_run _ (by decide +kernel) (orphanStep_safe (by decide +kernel))
  exact orphanNode_run .start (by decide +kernel) (orphanStep_safe (by decide +kernel))

/-- A child comes before its parent, and the parent goes into the index but cannot be connected. -/
theorem orphan_block_left_behind :
    ¬∀ s, ProcessRun orphanNet testParams noWallet 1 orphanParams (fun _ => True) orphanStart.chain s →
      s.NoneLeft orphanExternals := by
  intro hall
  have hnone := hall (orphanNode overpaidBlock (orphanNode waitingBlock orphanStart)) (by
    apply orphanNode_run _ (by decide +kernel) fun _ _ => trivial
    exact orphanNode_run .start (by decide +kernel) fun _ _ => trivial)
  have hunknown := hnone.unknown waitingHash waitingBlock (by decide +kernel)
  have hknown : ((orphanNode overpaidBlock (orphanNode waitingBlock
      orphanStart)).chain.node.mapBlockIndex waitingBlock.hashPrevBlock).isSome = true := by
    decide +kernel
  rw [hunknown] at hknown
  cases hknown

end Sample

end Candypool.Chain
