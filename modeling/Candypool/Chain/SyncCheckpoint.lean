import Candypool.Chain.AcceptBlock
import Candypool.Chain.MainChain

/-! Synchronized checkpoints: signed messages that name a block the chain has to contain. A checkpoint
for a block that has not arrived yet is kept as pending. -/
namespace Candypool.Chain
open Candypool.Prime Candypool.Core Candypool.Coins Candypool.Lib

structure CSyncCheckpoint where
  nVersion : ℤ
  hashCheckpoint : Uint256
  vchMsg : List UInt8
  vchSig : List UInt8
  deriving DecidableEq, Repr

/-- What `SetNull` leaves. -/
def CSyncCheckpoint.null : CSyncCheckpoint := ⟨1, 0, [], []⟩

/-- The node and the globals of the checkpoints. -/
structure SyncState (W : Type) where
  node : NodeState W
  hashSyncCheckpoint : Uint256
  hashPendingCheckpoint : Uint256
  hashInvalidCheckpoint : Uint256
  checkpointMessage : CSyncCheckpoint
  checkpointMessagePending : CSyncCheckpoint

/-- The mode, and what a call finds outside: the database and the outcomes of chain selection. -/
structure SyncIO where
  fEnforced : Bool
  writeSyncCheckpoint : Bool
  chain : ℕ → BlockPtr → ChainIO

/-- Step back while the block is higher than `nHeight`; `none` if a parent is missing. -/
def traceBack (m : BlockPtr → Option CBlockIndex) (nHeight : ℕ) (p : BlockPtr) : Option BlockPtr :=
  climb (parentOf m) (heightOf m) nHeight (heightOf m p+1) p

def getBlockHash (m : BlockPtr → Option CBlockIndex) (p : BlockPtr) : Option Uint256 :=
  (m p).bind CBlockIndex.phashBlock

section Defs
variable {W : Type} (cons : Consensus) (net : NetParams) (sync : WalletSync W) (fuel : ℕ)

/-- Only a descendant of the current checkpoint is allowed. -/
def validateSyncCheckpoint (s : SyncState W) (hashCheckpoint : Uint256) : Bool × SyncState W :=
  let m := s.node.mapBlockIndex
  if (m s.hashSyncCheckpoint).isNone then (false, s)
  else if (m hashCheckpoint).isNone then (false, s)
  else if heightOf m hashCheckpoint ≤ heightOf m s.hashSyncCheckpoint then
    -- an older checkpoint: the current one should descend from it
    match traceBack m (heightOf m hashCheckpoint) s.hashSyncCheckpoint with
    | none => (false, s)
    | some pindex =>
      if getBlockHash m pindex ≠ some hashCheckpoint then
        (false, { s with hashInvalidCheckpoint := hashCheckpoint })
      else (false, s)
  else
    match traceBack m (heightOf m s.hashSyncCheckpoint) hashCheckpoint with
    | none => (false, s)
    | some pindex =>
      if getBlockHash m pindex ≠ some s.hashSyncCheckpoint then
        (false, { s with hashInvalidCheckpoint := hashCheckpoint })
      else (true, s)

def writeSyncCheckpoint (io : SyncIO) (hashCheckpoint : Uint256) (s : SyncState W) :
    Bool × SyncState W :=
  if io.writeSyncCheckpoint then (true, { s with hashSyncCheckpoint := hashCheckpoint })
  else (false, s)

/-- In enforce mode the chain is switched to a checkpoint that is not on it. -/
def enforceCheckpoint (io : SyncIO) (hashCheckpoint : Uint256) (s : SyncState W) :
    Bool × SyncState W :=
  if io.fEnforced && !isInMainChain s.node hashCheckpoint then
    match setBestChain cons sync (connectBestBlock cons sync io.chain fuel 1)
        (io.chain 0 hashCheckpoint) hashCheckpoint s.node with
    | (.ok, node) => (true, { s with node := node })
    | (_, node) => (false, { s with node := node, hashInvalidCheckpoint := hashCheckpoint })
  else (true, s)

/-- What both functions below do with a checkpoint whose block is known: whether it was valid, and
whether it was written. -/
def moveSyncCheckpoint (io : SyncIO) (hashCheckpoint : Uint256) (s : SyncState W) :
    Bool × Bool × SyncState W :=
  match validateSyncCheckpoint s hashCheckpoint with
  | (false, s) => (false, false, s)
  | (true, s) => match enforceCheckpoint cons sync fuel io hashCheckpoint s with
    | (false, s) => (true, false, s)
    | (true, s) => (true, writeSyncCheckpoint io hashCheckpoint s)

def acceptPendingSyncCheckpoint (io : SyncIO) (s : SyncState W) : Bool × SyncState W :=
  if s.hashPendingCheckpoint ≠ 0 ∧ (s.node.mapBlockIndex s.hashPendingCheckpoint).isSome then
    match moveSyncCheckpoint cons sync fuel io s.hashPendingCheckpoint s with
    | (false, _, s) =>
      (false, { s with hashPendingCheckpoint := 0, checkpointMessagePending := .null })
    | (true, false, s) => (false, s)
    | (true, true, s) => (true, { s with
      hashPendingCheckpoint := 0
      checkpointMessage := s.checkpointMessagePending
      checkpointMessagePending := .null })
  else (false, s)

/-- `signed` is whether the signature of the message was verified. -/
def processSyncCheckpoint (io : SyncIO) (signed : Bool) (checkpoint : CSyncCheckpoint)
    (s : SyncState W) : Bool × SyncState W :=
  if !signed then (false, s)
  else if (s.node.mapBlockIndex checkpoint.hashCheckpoint).isNone then
    (false, { s with hashPendingCheckpoint := checkpoint.hashCheckpoint
                     checkpointMessagePending := checkpoint })
  else match moveSyncCheckpoint cons sync fuel io checkpoint.hashCheckpoint s with
    | (_, false, s) => (false, s)
    | (_, true, s) => (true, { s with
      checkpointMessage := checkpoint
      hashPendingCheckpoint := 0
      checkpointMessagePending := .null })

/-- `none` is the failed assertion that the checkpoint is an accepted block. -/
def checkSyncCheckpoint (s : SyncState W) (hashBlock : Uint256) (pindexPrev : BlockPtr) :
    Option Bool :=
  let m := s.node.mapBlockIndex
  let nHeight := heightOf m pindexPrev+1
  let nHeightSync := heightOf m s.hashSyncCheckpoint
  if (m s.hashSyncCheckpoint).isNone then none
  -- only a descendant of the checkpoint can pass
  else if nHeight > nHeightSync ∧ (traceBack m nHeightSync pindexPrev).all (fun pindex =>
      decide (heightOf m pindex < nHeightSync) ||
        getBlockHash m pindex != some s.hashSyncCheckpoint) then some false
  else if nHeight = nHeightSync ∧ hashBlock ≠ s.hashSyncCheckpoint then some false
  else if nHeight < nHeightSync ∧ (m hashBlock).isNone then some false
  else some true

/-- In enforce mode, whether the checkpoint rules a block out. The assertion never fails while the
checkpoint is in the index. -/
def syncCheckpointRejects (syncOutcome : SyncIO) (s : SyncState W) (block : CBlock) : Bool :=
  syncOutcome.fEnforced &&
    !(checkSyncCheckpoint s (block.getHash cons.ext) block.hashPrevBlock).getD false

/-- `AcceptBlock` with the check against the checkpoint, and with the pending checkpoint that a new
block may bring. -/
def acceptBlockSync (io : AcceptBlockIO) (syncOutcome : SyncIO) (block : CBlock) (s : SyncState W) :
    Option AcceptBlockError × SyncState W :=
  let io := { io with syncCheckpointRejects := syncCheckpointRejects cons syncOutcome s block }
  match acceptBlock cons net sync io fuel block s.node with
  | (none, node) =>
    (none, (acceptPendingSyncCheckpoint cons sync fuel syncOutcome { s with node := node }).2)
  | (some e, node) => (some e, { s with node := node })

/-- The calls of a run. `ResetSyncCheckpoint` is not one of them. -/
inductive SyncOp
  | processSyncCheckpoint (io : SyncIO) (signed : Bool) (checkpoint : CSyncCheckpoint)
  | acceptPendingSyncCheckpoint (io : SyncIO)
  | acceptBlock (io : AcceptBlockIO) (syncOutcome : SyncIO) (block : CBlock)

def SyncOp.exec (s : SyncState W) : SyncOp → SyncState W
  | .processSyncCheckpoint io signed checkpoint =>
    (Chain.processSyncCheckpoint cons sync fuel io signed checkpoint s).2
  | .acceptPendingSyncCheckpoint io => (Chain.acceptPendingSyncCheckpoint cons sync fuel io s).2
  | .acceptBlock io syncOutcome block =>
    (acceptBlockSync cons net sync fuel io syncOutcome block s).2

/-- The states a run of calls that meet `ok` can reach. -/
inductive SyncRun (ok : SyncState W → SyncOp → Prop) (start : SyncState W) : SyncState W → Prop
  | start : SyncRun ok start start
  | step {s : SyncState W} (op : SyncOp) (rest : SyncRun ok start s) (meets : ok s op) :
      SyncRun ok start (op.exec cons net sync fuel s)

end Defs

section Index
variable {W : Type} {cons : Consensus}

/-- The entries form a tree and are stored under their hashes. -/
structure IndexOk (cons : Consensus) (m : BlockPtr → Option CBlockIndex) : Prop where
  tree : TreeOk cons.hashGenesisBlock m
  hash : ∀ p pindex, m p = some pindex → pindex.phashBlock = some p

theorem TipAt.indexOk {s : NodeState W} {best : BlockPtr} (h : TipAt cons s best) :
    IndexOk cons s.mapBlockIndex := ⟨h.tree, h.hash⟩

theorem IndexOk.same {m m' : BlockPtr → Option CBlockIndex} (h : IndexOk cons m)
    (hsame : SameTree m m') : IndexOk cons m' := by
  refine ⟨hsame.treeOk h.tree, fun p pindex hp => ?_⟩
  have hread := hsame.read CBlockIndex.phashBlock (fun _ => rfl) p
  rw [hp, Option.map_some] at hread
  obtain ⟨pindex',hp',heq⟩ := Option.map_eq_some_iff.mp hread.symm
  rw [← heq]
  exact h.hash p pindex' hp'

theorem IndexOk.insert {s : NodeState W} {block : CBlock} (h : IndexOk cons s.mapBlockIndex)
    (hnew : s.mapBlockIndex (block.getHash cons.ext) = none)
    (hprev : (s.mapBlockIndex block.hashPrevBlock).isSome = true) :
    IndexOk cons (insertIndex cons s block).mapBlockIndex :=
  ⟨insertIndex_tree hnew h.tree hprev, fun _ _ hp => insertIndex_hash h.hash hp⟩

theorem IndexOk.getBlockHash {m : BlockPtr → Option CBlockIndex} (h : IndexOk cons m) {p : BlockPtr}
    (hp : (m p).isSome = true) : getBlockHash m p = some p := by
  obtain ⟨pindex,hpindex⟩ := Option.isSome_iff_exists.mp hp
  rw [Chain.getBlockHash, hpindex, Option.bind_some]
  exact h.hash p pindex hpindex

/-- Tracing back to the height of a block ends at this block exactly if it is above the start. -/
theorem IndexOk.traceBack {m : BlockPtr → Option CBlockIndex} (h : IndexOk cons m) {p q : BlockPtr}
    (hp : (m p).isSome = true) (hheight : heightOf m q ≤ heightOf m p) :
    ∃ r, traceBack m (heightOf m q) p = some r ∧ (m r).isSome = true ∧
      heightOf m r = heightOf m q ∧ (r = q ↔ Anc (parentOf m) p q) := by
  obtain ⟨r,hr,hanc,-,heq⟩ := h.tree.climb_spec (h := heightOf m q) hp (Nat.lt_succ_self _)
  refine ⟨r, hr, h.tree.anc_mem hp hanc, heq hheight, fun hrq => hrq ▸ hanc, fun hq => ?_⟩
  have hrq := h.tree.anc_of_height hp hanc hq (heq hheight).ge
  exact h.tree.eq_of_anc_height (h.tree.anc_mem hp hanc) hrq (heq hheight).le

/-- Only the root of a chain of equal heights: a block strictly above another one is lower. -/
theorem IndexOk.height_lt {m : BlockPtr → Option CBlockIndex} (h : IndexOk cons m) {p q : BlockPtr}
    (hp : (m p).isSome = true) (hanc : Anc (parentOf m) p q) (hne : p ≠ q) :
    heightOf m q < heightOf m p := by
  by_contra hle
  exact hne (h.tree.eq_of_anc_height hp hanc (not_lt.mp hle))

end Index

section Checks
variable {W : Type} {cons : Consensus} {s : SyncState W}

theorem not_isNone {α : Type} {x : Option α} (h : x.isSome = true) : ¬ x.isNone = true := by
  rw [Option.isNone_iff_eq_none]
  exact Option.isSome_iff_ne_none.mp h

/-- `p` is a strict descendant of `q`. -/
def Below (m : BlockPtr → Option CBlockIndex) (p q : BlockPtr) : Prop :=
  p ≠ q ∧ (m p).isSome = true ∧ Anc (parentOf m) p q

theorem validateSyncCheckpoint_iff (h : IndexOk cons s.node.mapBlockIndex)
    (hsync : (s.node.mapBlockIndex s.hashSyncCheckpoint).isSome = true) (hashCheckpoint : Uint256) :
    (validateSyncCheckpoint s hashCheckpoint).1 = true ↔
      Below s.node.mapBlockIndex hashCheckpoint s.hashSyncCheckpoint := by
  rw [validateSyncCheckpoint, if_neg (not_isNone hsync)]
  by_cases hmem : (s.node.mapBlockIndex hashCheckpoint).isSome = true
  swap
  · rw [if_pos (by rwa [Bool.not_eq_true, Option.isSome_eq_false_iff] at hmem)]
    exact ⟨fun h => absurd h Bool.false_ne_true, fun h => absurd h.2.1 hmem⟩
  rw [if_neg (not_isNone hmem)]
  by_cases hold : heightOf s.node.mapBlockIndex hashCheckpoint ≤
      heightOf s.node.mapBlockIndex s.hashSyncCheckpoint
  · rw [if_pos hold]
    have hnot : ¬ Below s.node.mapBlockIndex hashCheckpoint s.hashSyncCheckpoint := by
      rintro ⟨hne,-,hanc⟩
      have := h.height_lt hmem hanc hne
      omega
    refine ⟨fun htrue => absurd htrue ?_, fun hbelow => absurd hbelow hnot⟩
    split
    · exact Bool.false_ne_true
    · split_ifs <;> exact id
  · rw [if_neg hold]
    obtain ⟨r,hr,hrmem,-,hiff⟩ := h.traceBack hmem (not_le.mp hold).le
    rw [hr]
    dsimp only
    rw [h.getBlockHash hrmem]
    split_ifs with hne
    · refine ⟨fun htrue => absurd htrue id, fun hbelow => ?_⟩
      exact absurd (congrArg some (hiff.mpr hbelow.2.2)) hne
    · rw [ne_eq, not_not] at hne
      refine ⟨fun _ => ⟨?_, hmem, hiff.mp (Option.some.inj hne)⟩, fun _ => rfl⟩
      intro heq
      exact hold (heq ▸ le_rfl)

/-- The validation leaves at most a note of an invalid checkpoint. -/
theorem validateSyncCheckpoint_state (s : SyncState W) (hashCheckpoint : Uint256) : ∃ hashInvalid,
    (validateSyncCheckpoint s hashCheckpoint).2 = { s with hashInvalidCheckpoint := hashInvalid } := by
  rw [validateSyncCheckpoint]
  split_ifs
  · exact ⟨s.hashInvalidCheckpoint, rfl⟩
  · exact ⟨s.hashInvalidCheckpoint, rfl⟩
  · split
    · exact ⟨s.hashInvalidCheckpoint, rfl⟩
    · split_ifs
      · exact ⟨hashCheckpoint, rfl⟩
      · exact ⟨s.hashInvalidCheckpoint, rfl⟩
  · split
    · exact ⟨s.hashInvalidCheckpoint, rfl⟩
    · split_ifs
      · exact ⟨hashCheckpoint, rfl⟩
      · exact ⟨s.hashInvalidCheckpoint, rfl⟩

theorem checkSyncCheckpoint_iff (h : IndexOk cons s.node.mapBlockIndex)
    (hsync : (s.node.mapBlockIndex s.hashSyncCheckpoint).isSome = true) {hashBlock : Uint256}
    {pindexPrev : BlockPtr} (hnew : s.node.mapBlockIndex hashBlock = none)
    (hprev : (s.node.mapBlockIndex pindexPrev).isSome = true) :
    ∃ result, checkSyncCheckpoint s hashBlock pindexPrev = some result ∧
      (result = true ↔ Anc (parentOf s.node.mapBlockIndex) pindexPrev s.hashSyncCheckpoint) := by
  have hne : hashBlock ≠ s.hashSyncCheckpoint := by
    intro heq
    rw [heq] at hnew
    rw [hnew] at hsync
    exact absurd hsync Bool.false_ne_true
  rw [checkSyncCheckpoint, if_neg (not_isNone hsync)]
  by_cases hheight : heightOf s.node.mapBlockIndex s.hashSyncCheckpoint ≤
      heightOf s.node.mapBlockIndex pindexPrev
  · obtain ⟨r,hr,hrmem,hrheight,hiff⟩ := h.traceBack hprev hheight
    rw [hr, Option.all_some, h.getBlockHash hrmem, hrheight, decide_eq_false (lt_irrefl _),
      Bool.false_or]
    by_cases hrq : r = s.hashSyncCheckpoint
    · rw [if_neg (by rw [hrq]; simp), if_neg (by omega), if_neg (by omega)]
      exact ⟨true, rfl, fun _ => hiff.mp hrq, fun _ => rfl⟩
    · rw [if_pos ⟨by omega, by simpa using hrq⟩]
      exact ⟨false, rfl, fun hfalse => absurd hfalse Bool.false_ne_true,
        fun hanc => absurd (hiff.mpr hanc) hrq⟩
  · have hnot : ¬ Anc (parentOf s.node.mapBlockIndex) pindexPrev s.hashSyncCheckpoint :=
      fun hanc => hheight (h.tree.anc_height hprev hanc)
    rw [if_neg (by omega)]
    refine ⟨false, ?_, fun hfalse => absurd hfalse Bool.false_ne_true, fun hanc => absurd hanc hnot⟩
    by_cases hsame : heightOf s.node.mapBlockIndex pindexPrev+1 =
        heightOf s.node.mapBlockIndex s.hashSyncCheckpoint
    · rw [if_pos ⟨hsame, hne⟩]
    · rw [if_neg (by tauto), if_pos ⟨by omega, by rw [hnew]; rfl⟩]

end Checks

section Steps
variable {W : Type} {cons : Consensus} {net : NetParams} {sync : WalletSync W} {fuel : ℕ}
  {s s' s'' : SyncState W}

/-- The checkpoint is an accepted block of a well-formed index. -/
structure SyncOk (cons : Consensus) (s : SyncState W) : Prop where
  index : IndexOk cons s.node.mapBlockIndex
  mem : (s.node.mapBlockIndex s.hashSyncCheckpoint).isSome = true

/-- What a call does to the index and to the checkpoint: entries come, and the checkpoint stays or
moves to a strict descendant. -/
structure Advances (cons : Consensus) (s s' : SyncState W) : Prop where
  ok : SyncOk cons s'
  kept : ∀ p, (s.node.mapBlockIndex p).isSome = true → (s'.node.mapBlockIndex p).isSome = true
  parent : ∀ p, (s.node.mapBlockIndex p).isSome = true →
    parentOf s'.node.mapBlockIndex p = parentOf s.node.mapBlockIndex p
  moved : s'.hashSyncCheckpoint = s.hashSyncCheckpoint ∨
    Below s'.node.mapBlockIndex s'.hashSyncCheckpoint s.hashSyncCheckpoint

theorem Advances.of_tree (h : SyncOk cons s) (htree : SameTree s.node.mapBlockIndex s'.node.mapBlockIndex)
    (hmoved : s'.hashSyncCheckpoint = s.hashSyncCheckpoint ∨
      Below s.node.mapBlockIndex s'.hashSyncCheckpoint s.hashSyncCheckpoint) : Advances cons s s' := by
  have hmem : ∀ p, (s.node.mapBlockIndex p).isSome = true → (s'.node.mapBlockIndex p).isSome = true :=
    fun p hp => (htree.isSome p).trans hp
  refine ⟨⟨h.index.same htree, ?_⟩, hmem, fun p _ => by rw [htree.parentOf], ?_⟩
  · rcases hmoved with heq | hbelow
    · rw [heq]
      exact hmem _ h.mem
    · exact hmem _ hbelow.2.1
  · refine hmoved.imp_right fun hbelow => ⟨hbelow.1, hmem _ hbelow.2.1, ?_⟩
    rw [htree.parentOf]
    exact hbelow.2.2

/-- The new index, then a step of the checkpoint. -/
theorem Advances.trans_same (h : Advances cons s s') (hsame : s'.hashSyncCheckpoint = s.hashSyncCheckpoint)
    (h' : Advances cons s' s'') : Advances cons s s'' := by
  refine ⟨h'.ok, fun p hp => h'.kept p (h.kept p hp), fun p hp => ?_, ?_⟩
  · rw [h'.parent p (h.kept p hp), h.parent p hp]
  · rw [← hsame]
    exact h'.moved

/-- Switching the chain to a checkpoint leaves the checkpoints alone, but for a note of an invalid
one. -/
theorem enforceCheckpoint_state (io : SyncIO) (hashCheckpoint : Uint256) (s : SyncState W) :
    ∃ node hashInvalid, (enforceCheckpoint cons sync fuel io hashCheckpoint s).2 =
        { s with node := node, hashInvalidCheckpoint := hashInvalid } ∧
      SameTree s.node.mapBlockIndex node.mapBlockIndex := by
  rw [enforceCheckpoint]
  split_ifs
  · have hnested : KeepsTree (connectBestBlock cons sync io.chain fuel 1) :=
      connectBestBlock_tree io.chain fuel 1
    have htree := @setBestChain_tree W cons sync _ hnested (io.chain 0 hashCheckpoint)
      hashCheckpoint s.node
    generalize setBestChain cons sync (connectBestBlock cons sync io.chain fuel 1)
      (io.chain 0 hashCheckpoint) hashCheckpoint s.node = r at htree
    obtain ⟨exit,node⟩ := r
    cases exit
    case ok => exact ⟨node, s.hashInvalidCheckpoint, rfl, htree⟩
    all_goals exact ⟨node, hashCheckpoint, rfl, htree⟩
  · exact ⟨s.node, s.hashInvalidCheckpoint, rfl, SameTree.refl _⟩

theorem writeSyncCheckpoint_cases (io : SyncIO) (hashCheckpoint : Uint256) (s : SyncState W) :
    writeSyncCheckpoint io hashCheckpoint s = (false, s) ∨
      writeSyncCheckpoint io hashCheckpoint s =
        (true, { s with hashSyncCheckpoint := hashCheckpoint }) := by
  rw [writeSyncCheckpoint]
  split_ifs
  · exact Or.inr rfl
  · exact Or.inl rfl

/-- A checkpoint that was not written changes the node and the note of an invalid one; one that was
is a strict descendant of the checkpoint before. -/
theorem moveSyncCheckpoint_cases (io : SyncIO) (hashCheckpoint : Uint256) (h : SyncOk cons s) :
    ∃ valid node hashInvalid, SameTree s.node.mapBlockIndex node.mapBlockIndex ∧
      (moveSyncCheckpoint cons sync fuel io hashCheckpoint s = (valid, false,
        { s with node := node, hashInvalidCheckpoint := hashInvalid }) ∨
      moveSyncCheckpoint cons sync fuel io hashCheckpoint s = (true, true,
        { s with node := node, hashInvalidCheckpoint := hashInvalid,
                 hashSyncCheckpoint := hashCheckpoint }) ∧
        Below s.node.mapBlockIndex hashCheckpoint s.hashSyncCheckpoint) := by
  have hiff := validateSyncCheckpoint_iff h.index h.mem hashCheckpoint
  obtain ⟨hashInvalid,hstate⟩ := validateSyncCheckpoint_state s hashCheckpoint
  rw [moveSyncCheckpoint]
  generalize validateSyncCheckpoint s hashCheckpoint = r at hiff hstate
  obtain ⟨valid,s1⟩ := r
  dsimp only at hstate
  rw [hstate]
  -- a refused checkpoint changes at most what is noted as invalid
  cases valid with
  | false => exact ⟨false, s.node, hashInvalid, SameTree.refl _, Or.inl rfl⟩
  | true =>
    dsimp only
    obtain ⟨node,hashInvalid',hnode,htree⟩ := @enforceCheckpoint_state W cons sync fuel io
      hashCheckpoint { s with hashInvalidCheckpoint := hashInvalid }
    generalize enforceCheckpoint cons sync fuel io hashCheckpoint _ = r at hnode
    obtain ⟨switched,s2⟩ := r
    dsimp only at hnode
    rw [hnode]
    refine ⟨true, node, hashInvalid', htree, ?_⟩
    -- valid, and the chain may or may not come to contain it
    cases switched with
    | false => exact Or.inl rfl
    | true =>
      dsimp only
      rcases writeSyncCheckpoint_cases io hashCheckpoint
        { s with node := node, hashInvalidCheckpoint := hashInvalid' } with hwrite | hwrite
      · rw [hwrite]
        exact Or.inl rfl
      · rw [hwrite]
        exact Or.inr ⟨rfl, hiff.mp rfl⟩

theorem acceptPendingSyncCheckpoint_advances (io : SyncIO) (h : SyncOk cons s) :
    Advances cons s (acceptPendingSyncCheckpoint cons sync fuel io s).2 := by
  rw [acceptPendingSyncCheckpoint]
  split_ifs
  · obtain ⟨valid,node,hashInvalid,htree,hmove | ⟨hmove,hbelow⟩⟩ :=
      @moveSyncCheckpoint_cases W cons sync fuel s io s.hashPendingCheckpoint h
    · rw [hmove]
      cases valid <;> exact Advances.of_tree h htree (Or.inl rfl)
    · rw [hmove]
      exact Advances.of_tree h htree (Or.inr hbelow)
  · exact Advances.of_tree h (SameTree.refl _) (Or.inl rfl)

theorem processSyncCheckpoint_advances (io : SyncIO) (signed : Bool) (checkpoint : CSyncCheckpoint)
    (h : SyncOk cons s) :
    Advances cons s (processSyncCheckpoint cons sync fuel io signed checkpoint s).2 := by
  rw [processSyncCheckpoint]
  split_ifs
  · exact Advances.of_tree h (SameTree.refl _) (Or.inl rfl)
  · exact Advances.of_tree h (SameTree.refl _) (Or.inl rfl)
  · obtain ⟨valid,node,hashInvalid,htree,hmove | ⟨hmove,hbelow⟩⟩ :=
      @moveSyncCheckpoint_cases W cons sync fuel s io checkpoint.hashCheckpoint h
    · rw [hmove]
      exact Advances.of_tree h htree (Or.inl rfl)
    · rw [hmove]
      exact Advances.of_tree h htree (Or.inr hbelow)

theorem acceptBlockSync_advances (io : AcceptBlockIO) (syncOutcome : SyncIO) (block : CBlock)
    (h : SyncOk cons s) :
    Advances cons s (acceptBlockSync cons net sync fuel io syncOutcome block s).2 := by
  rw [acceptBlockSync]
  generalize hr : acceptBlock cons net sync _ fuel block s.node = r
  obtain ⟨e,node⟩ := r
  have hnode : Advances cons s { s with node := node } := by
    rcases acceptBlock_cases h.index.tree.root_mem hr with ⟨rfl,-⟩ | hacc
    · exact Advances.of_tree h (SameTree.refl _) (Or.inl rfl)
    · have hindex := (h.index.insert hacc.fresh hacc.parent).same hacc.tree
      have hmem : ∀ p, (s.node.mapBlockIndex p).isSome = true → (node.mapBlockIndex p).isSome = true :=
        fun p hp => (hacc.tree.isSome p).trans (insertIndex_mem hacc.fresh hp)
      refine ⟨⟨hindex, hmem _ h.mem⟩, hmem, fun p hp => ?_, Or.inl rfl⟩
      rw [hacc.tree.parentOf]
      exact insertIndex_parentOf hacc.fresh hp
  cases e with
  | some e => exact hnode
  | none => exact hnode.trans_same rfl (acceptPendingSyncCheckpoint_advances syncOutcome hnode.ok)

theorem SyncOp.exec_advances (op : SyncOp) (h : SyncOk cons s) :
    Advances cons s (op.exec cons net sync fuel s) := by
  cases op with
  | processSyncCheckpoint io signed checkpoint =>
    exact processSyncCheckpoint_advances io signed checkpoint h
  | acceptPendingSyncCheckpoint io => exact acceptPendingSyncCheckpoint_advances io h
  | acceptBlock io syncOutcome block => exact acceptBlockSync_advances io syncOutcome block h

theorem SyncRun.syncOk {ok : SyncState W → SyncOp → Prop} {start : SyncState W}
    (hstart : SyncOk cons start) (h : SyncRun cons net sync fuel ok start s) : SyncOk cons s := by
  induction h with
  | start => exact hstart
  | step op _ _ ih => exact (op.exec_advances ih).ok

end Steps

/-- In every run the checkpoint is an accepted block, and a call that changes it replaces it by a
strict descendant; the checks accept exactly the strict descendants of the checkpoint, and the new
blocks on it or on a descendant of it. -/
theorem sync_checkpoint_moves_forward {W : Type} (cons : Consensus) (net : NetParams)
    (sync : WalletSync W) (fuel : ℕ) (start s : SyncState W) (hstart : SyncOk cons start)
    (h : SyncRun cons net sync fuel (fun _ _ => True) start s) :
    (s.node.mapBlockIndex s.hashSyncCheckpoint).isSome = true ∧
    (∀ op : SyncOp, let s' := op.exec cons net sync fuel s
      s'.hashSyncCheckpoint ≠ s.hashSyncCheckpoint →
        Below s'.node.mapBlockIndex s'.hashSyncCheckpoint s.hashSyncCheckpoint) ∧
    (∀ hashCheckpoint, (validateSyncCheckpoint s hashCheckpoint).1 = true ↔
      Below s.node.mapBlockIndex hashCheckpoint s.hashSyncCheckpoint) ∧
    ∀ hashBlock pindexPrev, s.node.mapBlockIndex hashBlock = none →
      (s.node.mapBlockIndex pindexPrev).isSome = true →
      (checkSyncCheckpoint s hashBlock pindexPrev = some true ↔
        Anc (parentOf s.node.mapBlockIndex) pindexPrev s.hashSyncCheckpoint) := by
  have hok := h.syncOk hstart
  refine ⟨hok.mem, fun op hne => ?_, validateSyncCheckpoint_iff hok.index hok.mem, ?_⟩
  · exact (op.exec_advances hok).moved.resolve_left hne
  · intro hashBlock pindexPrev hnew hprev
    obtain ⟨result,hresult,hiff⟩ := checkSyncCheckpoint_iff hok.index hok.mem hnew hprev
    rw [hresult, Option.some.injEq]
    exact hiff

section TestNet

def syncOutcome : SyncIO := ⟨true, true, lateAccept.add.chain⟩

/-- The genesis block is the first checkpoint. -/
def syncStart : SyncState Unit :=
  ⟨lateStart, testGenesisHash, 0, 0, .null, .null⟩

/-- The first block arrives and becomes the checkpoint. -/
def syncBlockOp : SyncOp := .acceptBlock lateAccept syncOutcome testBlockA
def syncCheckpointOp : SyncOp :=
  .processSyncCheckpoint syncOutcome true ⟨1, testHashA, [], []⟩

def syncState1 : SyncState Unit := syncBlockOp.exec lateNet testParams noWallet 1 syncStart
def syncState2 : SyncState Unit := syncCheckpointOp.exec lateNet testParams noWallet 1 syncState1

/-- The genesis checkpoint is replaced by the first block, and is not accepted again. -/
theorem sync_checkpoint_moves_forward_testNet :
    syncState2.hashSyncCheckpoint = testHashA ∧
      Below syncState2.node.mapBlockIndex testHashA testGenesisHash ∧
      ¬(validateSyncCheckpoint syncState2 testGenesisHash).1 = true ∧
      checkSyncCheckpoint syncState2 lateHash testHashA = some true := by
  have htip : TipAt lateNet lateStart lateNet.hashGenesisBlock := loadedGenesis_tip testGenesis ()
  have hstart : SyncOk lateNet syncStart := ⟨htip.indexOk, by decide +kernel⟩
  have hrun1 : SyncRun lateNet testParams noWallet 1 (fun _ _ => True) syncStart syncState1 :=
    SyncRun.step syncBlockOp SyncRun.start trivial
  have hrun2 := SyncRun.step syncCheckpointOp hrun1 trivial
  obtain ⟨-,hmoved,-,-⟩ := sync_checkpoint_moves_forward lateNet testParams noWallet 1 syncStart
    syncState1 hstart hrun1
  obtain ⟨-,-,hvalidate,hcheck⟩ := sync_checkpoint_moves_forward lateNet testParams noWallet 1
    syncStart syncState2 hstart hrun2
  have hsync : syncState2.hashSyncCheckpoint = testHashA := by decide +kernel
  have hbelow := hmoved syncCheckpointOp (by decide +kernel)
  change Below syncState2.node.mapBlockIndex syncState2.hashSyncCheckpoint _ at hbelow
  have hgenesis : syncState1.hashSyncCheckpoint = testGenesisHash := by decide +kernel
  rw [hsync, hgenesis] at hbelow
  refine ⟨hsync, hbelow, ?_, ?_⟩
  · rw [hvalidate, hsync]
    rintro ⟨-,-,hanc⟩
    rcases hanc.cases with heq | ⟨p,hp,-⟩
    · exact hbelow.1 heq.symm
    · have hroot : parentOf syncState2.node.mapBlockIndex testGenesisHash = none := by
        decide +kernel
      rw [hroot] at hp
      cases hp
  · rw [hcheck lateHash testHashA (by decide +kernel) (by decide +kernel), hsync]
    exact Anc.refl _

end TestNet

end Candypool.Chain
