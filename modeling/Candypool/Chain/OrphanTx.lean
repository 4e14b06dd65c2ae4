import Candypool.Chain.PoolIndex
import Mathlib.Data.List.Sort

/-! Transactions that came before their parents: the orphan maps, the handling of a `tx` message,
and runs of such messages at one tip. -/
namespace Candypool.Chain
open Candypool.Prime Candypool.Core Candypool.Coins

def maxOrphanTransactions : ℕ := maxBlockSize/100

/-- The orphans and, for each transaction they spend from, the set of their hashes in order. A
hash without an entry has the empty set. -/
structure OrphanTxs where
  mapOrphanTransactions : AList fun _ : Uint256 => CTransaction
  mapOrphanTransactionsByPrev : Uint256 → List Uint256

namespace OrphanTxs

def empty : OrphanTxs := ⟨∅, fun _ => []⟩

def size (o : OrphanTxs) : ℕ := o.mapOrphanTransactions.keys.length

def insertHash (hash : Uint256) (hashes : List Uint256) : List Uint256 :=
  if hash ∈ hashes then hashes else hashes.orderedInsert (· ≤ ·) hash

def eraseHash (hash : Uint256) (hashes : List Uint256) : List Uint256 := hashes.filter (· ≠ hash)

/-- The loop over the inputs of an orphan, with what it does to the set of each. -/
def editByPrev (edit : List Uint256 → List Uint256) (vin : List CTxIn)
    (byPrev : Uint256 → List Uint256) : Uint256 → List Uint256 :=
  vin.foldl (fun byPrev txin =>
    Function.update byPrev txin.prevout.hash (edit (byPrev txin.prevout.hash))) byPrev

def addOrphanTx (txHash : CTransaction → Uint256) (o : OrphanTxs) (tx : CTransaction) :
    OrphanTxs × Bool :=
  let hash := txHash tx
  if (o.mapOrphanTransactions.lookup hash).isSome then (o, false)
  -- a large orphan is left to its sender
  else if tx.getSerializeSize > 5000 then (o, false)
  else (⟨o.mapOrphanTransactions.insert hash tx,
    editByPrev (insertHash hash) tx.vin o.mapOrphanTransactionsByPrev⟩, true)

def eraseOrphanTx (o : OrphanTxs) (hash : Uint256) : OrphanTxs :=
  match o.mapOrphanTransactions.lookup hash with
  | none => o
  | some tx => ⟨o.mapOrphanTransactions.erase hash,
    editByPrev (eraseHash hash) tx.vin o.mapOrphanTransactionsByPrev⟩

/-- The orphan at or behind a random hash, the first one when there is none. -/
def evicted (o : OrphanTxs) (randomhash : Uint256) : Option Uint256 :=
  let keys := o.mapOrphanTransactions.keys.insertionSort (· ≤ ·)
  (keys.find? fun key => decide (randomhash ≤ key)).or keys.head?

/-- The loop of `LimitOrphanTxSize`, with the random hashes it draws; a turn takes out an orphan. -/
def limitLoop (nMaxOrphans : ℕ) (randomhash : ℕ → Uint256) : ℕ → ℕ → OrphanTxs → OrphanTxs × ℕ
  | 0, nEvicted, o => (o, nEvicted)
  | fuel+1, nEvicted, o =>
    if o.size > nMaxOrphans then
      match o.evicted (randomhash nEvicted) with
      | none => (o, nEvicted)
      | some hash => limitLoop nMaxOrphans randomhash fuel (nEvicted+1) (o.eraseOrphanTx hash)
    else (o, nEvicted)

def limitOrphanTxSize (o : OrphanTxs) (nMaxOrphans : ℕ) (randomhash : ℕ → Uint256) :
    OrphanTxs × ℕ := limitLoop nMaxOrphans randomhash o.size 0 o

end OrphanTxs

/-- The pool and the orphans. -/
structure TxNode where
  pool : CTxMemPool
  orphans : OrphanTxs

/-- A `tx` message, with the answers of the policy code to the calls of `accept` it leads to and
the random hashes that are drawn. -/
structure TxMessage where
  tx : CTransaction
  io : ℕ → AcceptIO
  randomhash : ℕ → Uint256

/-- A call of `AcceptToMemoryPool` and its outcome. -/
structure AcceptCall where
  tx : CTransaction
  fAccepted : Bool
  fMissingInputs : Bool
  deriving DecidableEq

/-- The variables of the loop over `vWorkQueue`, with the calls of `accept` so far. -/
structure Resolving where
  pool : CTxMemPool
  vWorkQueue : List Uint256
  vEraseQueue : List Uint256
  calls : List AcceptCall

section Handler
variable (cons : Consensus) (tip : Utxo) (nSpendHeight : ℤ)

/-- The body of the inner loop. The transaction that is offered is the one of the message. -/
def resolveOrphan (m : TxMessage) (r : Resolving) (orphanHash : Uint256) : Resolving :=
  let io := m.io r.calls.length
  match accept cons io tip nSpendHeight r.pool m.tx true true with
  | some pool => ⟨pool, r.vWorkQueue ++ [orphanHash], r.vEraseQueue ++ [orphanHash],
      r.calls ++ [⟨m.tx, true, false⟩]⟩
  | none =>
    let fMissingInputs2 := missingInputs cons io tip r.pool m.tx true
    { r with
      vEraseQueue := if !fMissingInputs2 then r.vEraseQueue ++ [orphanHash] else r.vEraseQueue
      calls := r.calls ++ [⟨m.tx, false, fMissingInputs2⟩] }

/-- The loop over `vWorkQueue`; it has no value when the fuel runs out. -/
def resolveLoop (m : TxMessage) (orphans : OrphanTxs) : ℕ → ℕ → Resolving → Option Resolving
  | 0, _, _ => none
  | fuel+1, i, r =>
    match r.vWorkQueue[i]? with
    | none => some r
    | some hashPrev => resolveLoop m orphans fuel (i+1)
        ((orphans.mapOrphanTransactionsByPrev hashPrev).foldl
          (resolveOrphan cons tip nSpendHeight m) r)

/-- `ProcessMessage` for `tx`. -/
def TxNode.processTx (s : TxNode) (fuel : ℕ) (m : TxMessage) :
    Option (TxNode × List AcceptCall) :=
  let hash := cons.ext.txHash m.tx
  match accept cons (m.io 0) tip nSpendHeight s.pool m.tx true true with
  | some pool => do
    let r ← resolveLoop cons tip nSpendHeight m s.orphans fuel 0
      ⟨pool, [hash], [hash], [⟨m.tx, true, false⟩]⟩
    return (⟨r.pool, r.vEraseQueue.foldl OrphanTxs.eraseOrphanTx s.orphans⟩, r.calls)
  | none =>
    let fMissingInputs := missingInputs cons (m.io 0) tip s.pool m.tx true
    let calls := [⟨m.tx, false, fMissingInputs⟩]
    if fMissingInputs then
      some (⟨s.pool, ((s.orphans.addOrphanTx cons.ext.txHash m.tx).1.limitOrphanTxSize
        maxOrphanTransactions m.randomhash).1⟩, calls)
    else some (s, calls)

/-- The message does not bring the orphans over their limit. -/
def TxNode.HasRoom (s : TxNode) (m : TxMessage) : Prop :=
  (s.orphans.addOrphanTx cons.ext.txHash m.tx).1.size ≤ maxOrphanTransactions

end Handler

/-- The transaction spends an output of the one with the hash. -/
def SpendsFrom (tx : CTransaction) (hash : Uint256) : Prop :=
  ∃ txin ∈ tx.vin, txin.prevout.hash = hash

/-- An input comes from a transaction that neither the tip nor the pool knows. -/
def CTxMemPool.Lacks (pool : CTxMemPool) (tip : Utxo) (tx : CTransaction) : Prop :=
  ∃ txin ∈ tx.vin, pool.view tip txin.prevout.hash = none

section Maps
variable {o : OrphanTxs}

theorem mem_insertHash {hash h : Uint256} {hashes : List Uint256} :
    h ∈ OrphanTxs.insertHash hash hashes ↔ h ∈ hashes ∨ h = hash := by
  rw [OrphanTxs.insertHash]
  split_ifs with hmem
  · exact ⟨Or.inl, fun h' => h'.elim id fun heq => heq ▸ hmem⟩
  · rw [List.mem_orderedInsert, or_comm]

theorem mem_eraseHash {hash h : Uint256} {hashes : List Uint256} :
    h ∈ OrphanTxs.eraseHash hash hashes ↔ h ∈ hashes ∧ h ≠ hash := by
  simp [OrphanTxs.eraseHash]

theorem insertHash_insertHash (hash : Uint256) (hashes : List Uint256) :
    OrphanTxs.insertHash hash (OrphanTxs.insertHash hash hashes) =
      OrphanTxs.insertHash hash hashes :=
  if_pos (mem_insertHash.mpr (Or.inr rfl))

theorem eraseHash_eraseHash (hash : Uint256) (hashes : List Uint256) :
    OrphanTxs.eraseHash hash (OrphanTxs.eraseHash hash hashes) =
      OrphanTxs.eraseHash hash hashes := by
  simp [OrphanTxs.eraseHash, List.filter_filter]

/-- Several inputs from one transaction edit its set as one does. -/
theorem editByPrev_eq {edit : List Uint256 → List Uint256} (hedit : ∀ l, edit (edit l) = edit l)
    (vin : List CTxIn) (byPrev : Uint256 → List Uint256) (p : Uint256) :
    OrphanTxs.editByPrev edit vin byPrev p =
      if ∃ txin ∈ vin, txin.prevout.hash = p then edit (byPrev p) else byPrev p := by
  induction vin generalizing byPrev with
  | nil => simp [OrphanTxs.editByPrev]
  | cons txin vin ih =>
    rw [OrphanTxs.editByPrev, List.foldl_cons]
    apply (ih _).trans
    by_cases hp : p = txin.prevout.hash
    · subst hp
      simp only [Function.update_self, hedit, ite_self]
      rw [if_pos ⟨txin, List.mem_cons_self, rfl⟩]
    · have hcons : (∃ txin' ∈ txin :: vin, txin'.prevout.hash = p) ↔
          ∃ txin' ∈ vin, txin'.prevout.hash = p := by
        simp [Ne.symm hp]
      simp only [Function.update_of_ne hp, hcons]

/-- The index holds the hash of an orphan under each transaction that it spends from. -/
def OrphanTxs.Indexed (o : OrphanTxs) : Prop :=
  ∀ p h, h ∈ o.mapOrphanTransactionsByPrev p ↔
    ∃ tx, o.mapOrphanTransactions.lookup h = some tx ∧ SpendsFrom tx p

theorem empty_indexed : OrphanTxs.empty.Indexed := by
  intro p h
  simp [OrphanTxs.empty]

theorem addOrphanTx_lookup {txHash : CTransaction → Uint256} {tx : CTransaction} {h : Uint256}
    {tx' : CTransaction} :
    (o.addOrphanTx txHash tx).1.mapOrphanTransactions.lookup h = some tx' →
      o.mapOrphanTransactions.lookup h = some tx' ∨ h = txHash tx ∧ tx' = tx := by
  rw [OrphanTxs.addOrphanTx]
  split_ifs
  · exact Or.inl
  · exact Or.inl
  · by_cases heq : h = txHash tx
    · intro hlookup
      subst heq
      exact Or.inr ⟨rfl, (Option.some.inj ((AList.lookup_insert _).symm.trans hlookup)).symm⟩
    · exact fun hlookup => Or.inl ((AList.lookup_insert_ne heq).symm.trans hlookup)

theorem addOrphanTx_indexed (h : o.Indexed) (txHash : CTransaction → Uint256) (tx : CTransaction) :
    (o.addOrphanTx txHash tx).1.Indexed := by
  rw [OrphanTxs.addOrphanTx]
  split_ifs with hknown
  · exact h
  · exact h
  · intro p hash
    have hnone : o.mapOrphanTransactions.lookup (txHash tx) = none := by simpa using hknown
    dsimp only
    rw [editByPrev_eq (insertHash_insertHash _)]
    by_cases heq : hash = txHash tx
    · subst heq
      have hself : (o.mapOrphanTransactions.insert (txHash tx) tx).lookup (txHash tx) = some tx :=
        AList.lookup_insert _
      have hold : txHash tx ∉ o.mapOrphanTransactionsByPrev p := by
        simp [h p, hnone]
      simp only [hself, Option.some.injEq, exists_eq_left']
      split_ifs with hp
      · exact iff_of_true (mem_insertHash.mpr (Or.inr rfl)) hp
      · exact iff_of_false hold hp
    · have hother : (o.mapOrphanTransactions.insert (txHash tx) tx).lookup hash =
          o.mapOrphanTransactions.lookup hash := AList.lookup_insert_ne heq
      simp only [hother, ← h p hash]
      split_ifs
      · rw [mem_insertHash, or_iff_left heq]
      · rfl

theorem eraseOrphanTx_lookup (hash h : Uint256) :
    (o.eraseOrphanTx hash).mapOrphanTransactions.lookup h =
      if h = hash then none else o.mapOrphanTransactions.lookup h := by
  rw [OrphanTxs.eraseOrphanTx]
  cases hlookup : o.mapOrphanTransactions.lookup hash with
  | none =>
    split_ifs with heq
    · rw [heq]
      exact hlookup
    · rfl
  | some tx =>
    split_ifs with heq
    · rw [heq]
      exact AList.lookup_erase _ _
    · exact AList.lookup_erase_ne heq

theorem eraseOrphanTx_indexed (h : o.Indexed) (hash : Uint256) : (o.eraseOrphanTx hash).Indexed := by
  intro p h'
  rw [eraseOrphanTx_lookup, OrphanTxs.eraseOrphanTx]
  cases hlookup : o.mapOrphanTransactions.lookup hash with
  | none =>
    rw [h p h']
    split_ifs with heq
    · subst heq
      simp [hlookup]
    · rfl
  | some tx =>
    dsimp only
    rw [editByPrev_eq (eraseHash_eraseHash _)]
    by_cases heq : h' = hash
    · subst heq
      simp only [if_true, reduceCtorEq, false_and, exists_false, iff_false]
      split_ifs with hp
      · simp [mem_eraseHash]
      · rw [h p h', hlookup]
        rintro ⟨tx',htx',hspends⟩
        exact hp (Option.some.inj htx' ▸ hspends)
    · rw [if_neg heq, ← h p h']
      split_ifs
      · rw [mem_eraseHash, and_iff_left heq]
      · rfl

theorem eraseAll_lookup_orphan (hashes : List Uint256) (h : Uint256) :
    (hashes.foldl OrphanTxs.eraseOrphanTx o).mapOrphanTransactions.lookup h =
      if h ∈ hashes then none else o.mapOrphanTransactions.lookup h := by
  induction hashes generalizing o with
  | nil => simp
  | cons hash hashes ih =>
    rw [List.foldl_cons, ih, eraseOrphanTx_lookup]
    by_cases heq : h = hash
    · simp [heq]
    · simp [heq]

theorem eraseAll_indexed (h : o.Indexed) (hashes : List Uint256) :
    (hashes.foldl OrphanTxs.eraseOrphanTx o).Indexed := by
  induction hashes generalizing o with
  | nil => exact h
  | cons hash hashes ih => exact ih (eraseOrphanTx_indexed h hash)

theorem limitOrphanTxSize_eq {nMaxOrphans : ℕ} (h : o.size ≤ nMaxOrphans)
    (randomhash : ℕ → Uint256) : o.limitOrphanTxSize nMaxOrphans randomhash = (o, 0) := by
  rw [OrphanTxs.limitOrphanTxSize]
  cases o.size with
  | zero => rfl
  | succ fuel => exact if_neg (Nat.not_lt.mpr h)

end Maps

section Accept
variable {cons : Consensus} {io : AcceptIO} {tip : Utxo} {nSpendHeight : ℤ} {pool : CTxMemPool}
  {tx : CTransaction}

/-- A transaction of the pool is refused, -/
theorem accept_of_known {fCheckInputs fLimitFree : Bool}
    (h : (pool.mapTx.lookup (cons.ext.txHash tx)).isSome = true) :
    accept cons io tip nSpendHeight pool tx fCheckInputs fLimitFree = none := by
  rw [accept]
  split_ifs <;> rfl

/-- and not for missing inputs. -/
theorem missingInputs_of_known {fCheckInputs : Bool}
    (h : (pool.mapTx.lookup (cons.ext.txHash tx)).isSome = true) :
    missingInputs cons io tip pool tx fCheckInputs = false := by
  rw [missingInputs]
  split_ifs <;> rfl

theorem missingInputs_spec {fCheckInputs : Bool}
    (h : missingInputs cons io tip pool tx fCheckInputs = true) :
    pool.mapTx.lookup (cons.ext.txHash tx) = none ∧ pool.Lacks tip tx := by
  rw [missingInputs] at h
  split_ifs at h with _ _ _ _ hknown
  refine ⟨by simpa using hknown, ?_⟩
  obtain ⟨txin,hmem,hnone⟩ := List.any_eq_true.mp h
  exact ⟨txin, hmem, by simpa using hnone⟩

/-- Only the transaction that comes in is known in addition. -/
theorem lacks_addUnchecked {hash : Uint256} {tx' : CTransaction} (h : pool.Lacks tip tx')
    (hspends : ¬SpendsFrom tx' hash) : (pool.addUnchecked hash tx).Lacks tip tx' := by
  obtain ⟨txin,hmem,hnone⟩ := h
  have hne : txin.prevout.hash ≠ hash := fun heq => hspends ⟨txin, hmem, heq⟩
  refine ⟨txin, hmem, ?_⟩
  have hlookup : (pool.addUnchecked hash tx).mapTx.lookup txin.prevout.hash =
      pool.mapTx.lookup txin.prevout.hash := AList.lookup_insert_ne hne
  rw [CTxMemPool.view, hlookup]
  exact hnone

theorem addUnchecked_lookup {hash h : Uint256} :
    ((pool.addUnchecked hash tx).mapTx.lookup h).isSome = true ↔
      h = hash ∨ (pool.mapTx.lookup h).isSome = true := by
  by_cases heq : h = hash
  · subst heq
    have hself : (pool.addUnchecked h tx).mapTx.lookup h = some tx := AList.lookup_insert _
    simp [hself]
  · have hother : (pool.addUnchecked hash tx).mapTx.lookup h = pool.mapTx.lookup h :=
      AList.lookup_insert_ne heq
    rw [hother, or_iff_right heq]

end Accept

section Loop
variable {cons : Consensus} {tip : Utxo} {nSpendHeight : ℤ} {m : TxMessage}

variable (tip nSpendHeight) in
/-- With the transaction of the message in the pool, the inner loop erases every orphan of the set
and takes none. -/
theorem resolveOrphans_eq (hashes : List Uint256) (r : Resolving)
    (hknown : (r.pool.mapTx.lookup (cons.ext.txHash m.tx)).isSome = true) :
    hashes.foldl (resolveOrphan cons tip nSpendHeight m) r =
      { r with
        vEraseQueue := r.vEraseQueue ++ hashes
        calls := r.calls ++ List.replicate hashes.length ⟨m.tx, false, false⟩ } := by
  induction hashes generalizing r with
  | nil => simp
  | cons hash hashes ih =>
    have hstep : resolveOrphan cons tip nSpendHeight m r hash =
        { r with
          vEraseQueue := r.vEraseQueue ++ [hash]
          calls := r.calls ++ [⟨m.tx, false, false⟩] } := by
      rw [resolveOrphan, accept_of_known hknown, missingInputs_of_known hknown]
      rfl
    rw [List.foldl_cons, hstep, ih]
    · simp [List.replicate_succ]
    · exact hknown

/-- The loop has one turn, for the transaction of the message. -/
theorem resolveLoop_eq {orphans : OrphanTxs} {pool : CTxMemPool} {hash : Uint256}
    {calls : List AcceptCall} (hknown : (pool.mapTx.lookup (cons.ext.txHash m.tx)).isSome = true)
    (fuel : ℕ) :
    resolveLoop cons tip nSpendHeight m orphans (fuel+2) 0 ⟨pool, [hash], [hash], calls⟩ =
      some ⟨pool, [hash], hash :: orphans.mapOrphanTransactionsByPrev hash,
        calls ++ List.replicate (orphans.mapOrphanTransactionsByPrev hash).length
          ⟨m.tx, false, false⟩⟩ := by
  rw [resolveLoop]
  dsimp only [List.getElem?_cons_zero]
  rw [resolveOrphans_eq _ _ _ _ hknown, resolveLoop]
  rfl

end Loop

section Messages
variable {cons : Consensus} {tip : Utxo} {nSpendHeight : ℤ} {m : TxMessage} {s s' : TxNode}
  {calls : List AcceptCall}

/-- What a message does: its transaction is taken and every orphan that waits for it erased, or it
is refused and stored or dropped. -/
theorem processTx_cases {fuel : ℕ} (hroom : s.HasRoom cons m)
    (h : s.processTx cons tip nSpendHeight fuel m = some (s',calls)) :
    (∀ c ∈ calls, c.tx = m.tx) ∧
    (((accept cons (m.io 0) tip nSpendHeight s.pool m.tx true true).isSome = true ∧
        s'.pool = s.pool.addUnchecked (cons.ext.txHash m.tx) m.tx ∧
        s'.orphans = (cons.ext.txHash m.tx ::
          s.orphans.mapOrphanTransactionsByPrev (cons.ext.txHash m.tx)).foldl
            OrphanTxs.eraseOrphanTx s.orphans) ∨
      (accept cons (m.io 0) tip nSpendHeight s.pool m.tx true true = none ∧ s'.pool = s.pool ∧
        (s'.orphans = s.orphans ∨
          missingInputs cons (m.io 0) tip s.pool m.tx true = true ∧
            s'.orphans = (s.orphans.addOrphanTx cons.ext.txHash m.tx).1))) := by
  rw [TxNode.processTx] at h
  cases haccept : accept cons (m.io 0) tip nSpendHeight s.pool m.tx true true with
  | some pool =>
    obtain ⟨-,-,-,-,-,rfl⟩ := accept_eq_some haccept
    simp only [haccept] at h
    have hknown : ((s.pool.addUnchecked (cons.ext.txHash m.tx) m.tx).mapTx.lookup
        (cons.ext.txHash m.tx)).isSome = true := addUnchecked_lookup.mpr (Or.inl rfl)
    -- with less fuel the loop has no result
    rcases fuel with _ | _ | fuel
    · cases h
    · cases h
    · rw [resolveLoop_eq hknown] at h
      obtain ⟨rfl,rfl⟩ := Prod.mk.inj (Option.some.inj h)
      refine ⟨fun c hc => ?_, Or.inl ⟨rfl, rfl, rfl⟩⟩
      rcases List.mem_append.mp hc with hc | hc
      · rw [List.mem_singleton.mp hc]
      · rw [List.eq_of_mem_replicate hc]
  | none =>
    simp only [haccept] at h
    split_ifs at h with hmissing
    · obtain ⟨rfl,rfl⟩ := Prod.mk.inj (Option.some.inj h)
      refine ⟨fun c hc => by rw [List.mem_singleton.mp hc], Or.inr ⟨rfl, rfl, Or.inr ⟨hmissing, ?_⟩⟩⟩
      rw [limitOrphanTxSize_eq hroom]
    · obtain ⟨rfl,rfl⟩ := Prod.mk.inj (Option.some.inj h)
      exact ⟨fun c hc => by rw [List.mem_singleton.mp hc], Or.inr ⟨rfl, rfl, Or.inl rfl⟩⟩

/-- The invariant: the index is right, an orphan is stored under its hash and is not in the pool,
and it lacks a transaction. -/
structure TxNode.OrphansWait (cons : Consensus) (tip : Utxo) (s : TxNode) : Prop where
  indexed : s.orphans.Indexed
  key : ∀ hash tx, s.orphans.mapOrphanTransactions.lookup hash = some tx → cons.ext.txHash tx = hash
  new : ∀ hash tx, s.orphans.mapOrphanTransactions.lookup hash = some tx →
    s.pool.mapTx.lookup hash = none
  waiting : ∀ hash tx, s.orphans.mapOrphanTransactions.lookup hash = some tx → s.pool.Lacks tip tx

/-- An orphan that is still there behind a transaction that was taken. -/
theorem TxNode.OrphansWait.kept (h : s.OrphansWait cons tip) {prev hash : Uint256}
    {tx : CTransaction} (hlookup : ((prev :: s.orphans.mapOrphanTransactionsByPrev prev).foldl
      OrphanTxs.eraseOrphanTx s.orphans).mapOrphanTransactions.lookup hash = some tx) :
    s.orphans.mapOrphanTransactions.lookup hash = some tx ∧ hash ≠ prev ∧ ¬SpendsFrom tx prev := by
  rw [eraseAll_lookup_orphan] at hlookup
  split_ifs at hlookup with hmem
  rw [List.mem_cons, not_or] at hmem
  exact ⟨hlookup, hmem.1, fun hspends => hmem.2 ((h.indexed prev hash).mpr ⟨tx, hlookup, hspends⟩)⟩

theorem TxNode.OrphansWait.processTx (h : s.OrphansWait cons tip) (hroom : s.HasRoom cons m)
    {fuel : ℕ} (hrun : s.processTx cons tip nSpendHeight fuel m = some (s',calls)) :
    s'.OrphansWait cons tip := by
  obtain ⟨-,⟨-,hpool,horphans⟩ | ⟨-,hpool,horphans | ⟨hmissing,horphans⟩⟩⟩ :=
    processTx_cases hroom hrun
  · -- taken: what it erases is what waited for it
    constructor
    · rw [horphans]
      exact eraseAll_indexed h.indexed _
    · intro hash tx hlookup
      rw [horphans] at hlookup
      exact h.key hash tx (h.kept hlookup).1
    · intro hash tx hlookup
      rw [horphans] at hlookup
      obtain ⟨hold,hne,-⟩ := h.kept hlookup
      rw [hpool]
      exact (AList.lookup_insert_ne hne).trans (h.new hash tx hold)
    · intro hash tx hlookup
      rw [horphans] at hlookup
      obtain ⟨hold,-,hspends⟩ := h.kept hlookup
      rw [hpool]
      exact lacks_addUnchecked (h.waiting hash tx hold) hspends
  · exact ⟨horphans ▸ h.indexed, horphans ▸ h.key, horphans ▸ hpool ▸ h.new,
      horphans ▸ hpool ▸ h.waiting⟩
  · -- stored: it lacks a transaction itself
    obtain ⟨hnew,hlacks⟩ := missingInputs_spec hmissing
    constructor
    · rw [horphans]
      exact addOrphanTx_indexed h.indexed _ _
    · intro hash tx hlookup
      rw [horphans] at hlookup
      rcases addOrphanTx_lookup hlookup with hold | ⟨rfl,rfl⟩
      · exact h.key hash tx hold
      · rfl
    · intro hash tx hlookup
      rw [horphans] at hlookup
      rw [hpool]
      rcases addOrphanTx_lookup hlookup with hold | ⟨rfl,rfl⟩
      · exact h.new hash tx hold
      · exact hnew
    · intro hash tx hlookup
      rw [horphans] at hlookup
      rw [hpool]
      rcases addOrphanTx_lookup hlookup with hold | ⟨rfl,rfl⟩
      · exact h.waiting hash tx hold
      · exact hlacks

end Messages

section Sample

/-- The coins of a tip that has the parent of the sample transactions. -/
def sampleTip : Utxo := fun txid =>
  if txid = sampleParentId then some ⟨false, [⟨5*coin, opTrue⟩, ⟨5*coin, opTrue⟩], 50, 1⟩ else none

def sampleMessage (tx : CTransaction) : TxMessage := ⟨tx, fun _ => ⟨true, true, false⟩, fun _ => 0⟩

end Sample

end Candypool.Chain
