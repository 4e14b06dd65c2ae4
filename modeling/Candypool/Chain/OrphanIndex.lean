import Candypool.Chain.OrphanTx

/-! The index of the orphans with its entries. `OrphanTxs` has a set for every hash; here a hash has an
entry or it has none, and every access by `operator[]` leaves an entry behind. -/
namespace Candypool.Chain
open Candypool.Prime Candypool.Core Candypool.Coins

/-- `mapOrphanTransactionsByPrev`. -/
abbrev ByPrev := AList fun _ : Uint256 => List Uint256

namespace ByPrev

/-- The set of a hash; that of a hash without an entry is empty. -/
def hashes (byPrev : ByPrev) (p : Uint256) : List Uint256 := (byPrev.lookup p).getD []

/-- `operator[]`. -/
def access (byPrev : ByPrev) (p : Uint256) : ByPrev :=
  if (byPrev.lookup p).isSome then byPrev else byPrev.insert p []

def insertHash (hash : Uint256) (byPrev : ByPrev) (txin : CTxIn) : ByPrev :=
  byPrev.insert txin.prevout.hash (OrphanTxs.insertHash hash (byPrev.hashes txin.prevout.hash))

def eraseHash (hash : Uint256) (byPrev : ByPrev) (txin : CTxIn) : ByPrev :=
  let p := txin.prevout.hash
  let byPrev : ByPrev := byPrev.insert p (OrphanTxs.eraseHash hash (byPrev.hashes p))
  if (byPrev.hashes p).isEmpty then byPrev.erase p else byPrev

/-- No entry has an empty set. -/
def NoEmpty (byPrev : ByPrev) : Prop := ∀ p, byPrev.lookup p ≠ some []

section Lemmas
variable {byPrev : ByPrev}

theorem hashes_insert (p q : Uint256) (hashes : List Uint256) :
    ByPrev.hashes (byPrev.insert p hashes) q = if q = p then hashes else byPrev.hashes q := by
  rw [ByPrev.hashes]
  split_ifs with heq
  · rw [heq, AList.lookup_insert]
    rfl
  · rw [AList.lookup_insert_ne heq]
    rfl

theorem hashes_access (p q : Uint256) : (byPrev.access p).hashes q = byPrev.hashes q := by
  rw [access]
  split_ifs with hsome
  · rfl
  · rw [hashes_insert]
    split_ifs with heq
    · have hnone : byPrev.lookup p = none := by simpa using hsome
      rw [heq, ByPrev.hashes, hnone]
      rfl
    · rfl

theorem hashes_insertHash (byPrev : ByPrev) (hash : Uint256) (txin : CTxIn) :
    (byPrev.insertHash hash txin).hashes = Function.update byPrev.hashes txin.prevout.hash
      (OrphanTxs.insertHash hash (byPrev.hashes txin.prevout.hash)) := by
  ext1 q
  rw [insertHash, hashes_insert, Function.update_apply]

theorem hashes_eraseHash (byPrev : ByPrev) (hash : Uint256) (txin : CTxIn) :
    (byPrev.eraseHash hash txin).hashes = Function.update byPrev.hashes txin.prevout.hash
      (OrphanTxs.eraseHash hash (byPrev.hashes txin.prevout.hash)) := by
  ext1 q
  rw [eraseHash, Function.update_apply]
  split_ifs with hempty heq heq
  · rw [hashes_insert, if_pos rfl, List.isEmpty_iff] at hempty
    rw [heq, hempty, ByPrev.hashes, AList.lookup_erase]
    rfl
  · rw [ByPrev.hashes, AList.lookup_erase_ne heq, AList.lookup_insert_ne heq]
    rfl
  · rw [hashes_insert, if_pos heq]
  · rw [hashes_insert, if_neg heq]

/-- The loop over the inputs, entries aside, is that of `OrphanTxs`. -/
theorem hashes_foldl {f : ByPrev → CTxIn → ByPrev} {edit : List Uint256 → List Uint256}
    (hstep : ∀ (byPrev : ByPrev) txin, (f byPrev txin).hashes =
      Function.update byPrev.hashes txin.prevout.hash (edit (byPrev.hashes txin.prevout.hash)))
    (vin : List CTxIn) (byPrev : ByPrev) :
    ByPrev.hashes (vin.foldl f byPrev) = OrphanTxs.editByPrev edit vin byPrev.hashes := by
  induction vin generalizing byPrev with
  | nil => rfl
  | cons txin vin ih =>
    rw [List.foldl_cons, ih, hstep]
    rfl

theorem NoEmpty.insert (h : byPrev.NoEmpty) (p : Uint256) {hashes : List Uint256} (hne : hashes ≠ []) :
    ByPrev.NoEmpty (byPrev.insert p hashes) := by
  intro q hq
  by_cases heq : q = p
  · rw [heq, AList.lookup_insert] at hq
    exact hne (Option.some.inj hq)
  · rw [AList.lookup_insert_ne heq] at hq
    exact h q hq

theorem NoEmpty.insertHash (h : byPrev.NoEmpty) (hash : Uint256) (txin : CTxIn) :
    (byPrev.insertHash hash txin).NoEmpty := by
  apply h.insert
  exact List.ne_nil_of_mem (mem_insertHash.mpr (Or.inr rfl))

theorem NoEmpty.eraseHash (h : byPrev.NoEmpty) (hash : Uint256) (txin : CTxIn) :
    (byPrev.eraseHash hash txin).NoEmpty := by
  rw [ByPrev.eraseHash]
  split_ifs with hempty
  · intro q hq
    by_cases heq : q = txin.prevout.hash
    · rw [heq, AList.lookup_erase] at hq
      cases hq
    · rw [AList.lookup_erase_ne heq, AList.lookup_insert_ne heq] at hq
      exact h q hq
  · apply h.insert
    rwa [hashes_insert, if_pos rfl, List.isEmpty_iff] at hempty

theorem NoEmpty.foldl {f : ByPrev → CTxIn → ByPrev}
    (hstep : ∀ byPrev txin, NoEmpty byPrev → NoEmpty (f byPrev txin)) (vin : List CTxIn)
    (h : byPrev.NoEmpty) : ByPrev.NoEmpty (vin.foldl f byPrev) := by
  induction vin generalizing byPrev with
  | nil => exact h
  | cons txin vin ih => exact ih (hstep byPrev txin h)

theorem access_eq {p : Uint256} (hp : byPrev.hashes p ≠ []) :
    byPrev.access p = byPrev := by
  rw [ByPrev.access, if_pos]
  cases hlookup : byPrev.lookup p with
  | none =>
    rw [hashes, hlookup] at hp
    exact absurd rfl hp
  | some hashes => rfl

/-- The entry that an access leaves behind. -/
theorem lookup_access {p : Uint256} (hp : byPrev.hashes p = []) :
    (byPrev.access p).lookup p = some [] := by
  rw [access]
  split_ifs with hsome
  · obtain ⟨hashes,hlookup⟩ := Option.isSome_iff_exists.mp hsome
    rw [ByPrev.hashes, hlookup] at hp
    rw [hlookup, ← hp]
    rfl
  · exact AList.lookup_insert _

/-- Inputs from other transactions do not touch an entry. -/
theorem lookup_eraseHashes (hash : Uint256) (vin : List CTxIn) {p : Uint256}
    (hp : ∀ txin ∈ vin, txin.prevout.hash ≠ p) :
    (vin.foldl (eraseHash hash) byPrev).lookup p = byPrev.lookup p := by
  induction vin generalizing byPrev with
  | nil => rfl
  | cons txin vin ih =>
    rw [List.forall_mem_cons] at hp
    rw [List.foldl_cons, ih hp.2, eraseHash]
    split_ifs
    · rw [AList.lookup_erase_ne (Ne.symm hp.1), AList.lookup_insert_ne (Ne.symm hp.1)]
    · rw [AList.lookup_insert_ne (Ne.symm hp.1)]

/-- Without empty sets, a hash has an entry if and only if its set is not empty. -/
theorem noEmpty_iff : byPrev.NoEmpty ↔
    ∀ p, (byPrev.lookup p).isSome = true ↔ byPrev.hashes p ≠ [] := by
  refine forall_congr' fun p => ?_
  rw [hashes]
  cases byPrev.lookup p with
  | none => simp
  | some hashes => simp

end Lemmas

end ByPrev

structure OrphanMaps where
  mapOrphanTransactions : AList fun _ : Uint256 => CTransaction
  mapOrphanTransactionsByPrev : ByPrev

namespace OrphanMaps

def empty : OrphanMaps := ⟨∅, ∅⟩

def size (o : OrphanMaps) : ℕ := o.mapOrphanTransactions.keys.length

/-- The entries of the index aside. -/
def forget (o : OrphanMaps) : OrphanTxs := ⟨o.mapOrphanTransactions, o.mapOrphanTransactionsByPrev.hashes⟩

def addOrphanTx (txHash : CTransaction → Uint256) (o : OrphanMaps) (tx : CTransaction) :
    OrphanMaps × Bool :=
  let hash := txHash tx
  if (o.mapOrphanTransactions.lookup hash).isSome then (o, false)
  else if tx.getSerializeSize > 5000 then (o, false)
  else (⟨o.mapOrphanTransactions.insert hash tx,
    tx.vin.foldl (ByPrev.insertHash hash) o.mapOrphanTransactionsByPrev⟩, true)

def eraseOrphanTx (o : OrphanMaps) (hash : Uint256) : OrphanMaps :=
  match o.mapOrphanTransactions.lookup hash with
  | none => o
  | some tx => ⟨o.mapOrphanTransactions.erase hash,
    tx.vin.foldl (ByPrev.eraseHash hash) o.mapOrphanTransactionsByPrev⟩

/-- The loop of `LimitOrphanTxSize`; it has no value when the fuel runs out. -/
def limitLoop (nMaxOrphans : ℕ) (randomhash : ℕ → Uint256) : ℕ → ℕ → OrphanMaps →
    Option (OrphanMaps × ℕ)
  | 0, _, _ => none
  | fuel+1, nEvicted, o =>
    if o.size > nMaxOrphans then do
      let hash ← o.forget.evicted (randomhash nEvicted)
      limitLoop nMaxOrphans randomhash fuel (nEvicted+1) (o.eraseOrphanTx hash)
    else some (o, nEvicted)

def limitOrphanTxSize (o : OrphanMaps) (nMaxOrphans : ℕ) (randomhash : ℕ → Uint256) :
    Option (OrphanMaps × ℕ) := limitLoop nMaxOrphans randomhash (o.size+1) 0 o

/-- `mapOrphanTransactions[hash]`. -/
def accessOrphan (o : OrphanMaps) (hash : Uint256) : OrphanMaps :=
  if (o.mapOrphanTransactions.lookup hash).isSome then o
  else { o with mapOrphanTransactions := o.mapOrphanTransactions.insert hash ⟨1,[],[],0⟩ }

def accessPrev (o : OrphanMaps) (hashPrev : Uint256) : OrphanMaps :=
  { o with mapOrphanTransactionsByPrev := o.mapOrphanTransactionsByPrev.access hashPrev }

section Handler
variable (cons : Consensus) (tip : Utxo) (nSpendHeight : ℤ)

/-- The inner loop over the set of a hash. -/
def resolveSet (m : TxMessage) (hashes : List Uint256) (r : Resolving) (o : OrphanMaps) :
    Resolving × OrphanMaps :=
  hashes.foldl (fun (r,o) orphanHash =>
    (resolveOrphan cons tip nSpendHeight m r orphanHash,o.accessOrphan orphanHash)) (r,o)

/-- The loop over `vWorkQueue`; it has no value when the fuel runs out. -/
def resolveLoop (m : TxMessage) : ℕ → ℕ → Resolving → OrphanMaps → Option (Resolving × OrphanMaps)
  | 0, _, _, _ => none
  | fuel+1, i, r, o =>
    match r.vWorkQueue[i]? with
    | none => some (r,o)
    | some hashPrev =>
      let o := o.accessPrev hashPrev
      let (r,o) := resolveSet cons tip nSpendHeight m (o.mapOrphanTransactionsByPrev.hashes hashPrev) r o
      resolveLoop m fuel (i+1) r o

/-- What `ProcessMessage` for `tx` does to the orphans. -/
def processTx (fuel : ℕ) (pool : CTxMemPool) (m : TxMessage) (o : OrphanMaps) : Option OrphanMaps :=
  let hash := cons.ext.txHash m.tx
  match accept cons (m.io 0) tip nSpendHeight pool m.tx true true with
  | some pool => do
    let (r,o) ← resolveLoop cons tip nSpendHeight m fuel 0
      ⟨pool, [hash], [hash], [⟨m.tx, true, false⟩]⟩ o
    return r.vEraseQueue.foldl eraseOrphanTx o
  | none =>
    if missingInputs cons (m.io 0) tip pool m.tx true then do
      let (o,_) ← limitOrphanTxSize (o.addOrphanTx cons.ext.txHash m.tx).1 maxOrphanTransactions
        m.randomhash
      return o
    else some o

end Handler

end OrphanMaps

/-- A step of the orphans: a message, at the pool and the tip of its time, or a call of
`LimitOrphanTxSize`. -/
inductive OrphanStep
  | tx (tip : Utxo) (nSpendHeight : ℤ) (pool : CTxMemPool) (m : TxMessage)
  | limit (nMaxOrphans : ℕ) (randomhash : ℕ → Uint256)

namespace OrphanMaps

def step (cons : Consensus) (fuel : ℕ) (o : OrphanMaps) : OrphanStep → Option OrphanMaps
  | .tx tip nSpendHeight pool m => o.processTx cons tip nSpendHeight fuel pool m
  | .limit nMaxOrphans randomhash => (o.limitOrphanTxSize nMaxOrphans randomhash).map Prod.fst

def run (cons : Consensus) (fuel : ℕ) (o : OrphanMaps) : List OrphanStep → Option OrphanMaps
  | [] => some o
  | step :: steps => do
    let o ← o.step cons fuel step
    run cons fuel o steps

/-- The set of a hash has exactly the orphans with an input from it, and there is an entry if and only
if the set is not empty. -/
structure Exact (o : OrphanMaps) : Prop where
  indexed : ∀ p hash, hash ∈ o.mapOrphanTransactionsByPrev.hashes p ↔
    ∃ tx, o.mapOrphanTransactions.lookup hash = some tx ∧ SpendsFrom tx p
  entry : ∀ p, (o.mapOrphanTransactionsByPrev.lookup p).isSome = true ↔
    o.mapOrphanTransactionsByPrev.hashes p ≠ []

/-- If the transaction of a message is taken, an orphan waits for it. -/
def SomeoneWaits (cons : Consensus) (o : OrphanMaps) : OrphanStep → Prop
  | .tx tip nSpendHeight pool m =>
    (accept cons (m.io 0) tip nSpendHeight pool m.tx true true).isSome = true →
      ∃ hash tx, o.mapOrphanTransactions.lookup hash = some tx ∧ SpendsFrom tx (cons.ext.txHash m.tx)
  | .limit _ _ => True

section Maps
variable {o : OrphanMaps}

theorem forget_addOrphanTx (txHash : CTransaction → Uint256) (tx : CTransaction) :
    (o.addOrphanTx txHash tx).1.forget = (o.forget.addOrphanTx txHash tx).1 := by
  rw [addOrphanTx, OrphanTxs.addOrphanTx]
  have hlookup : o.forget.mapOrphanTransactions = o.mapOrphanTransactions := rfl
  simp only [hlookup]
  split_ifs
  · rfl
  · rfl
  · rw [forget, ByPrev.hashes_foldl (fun byPrev => byPrev.hashes_insertHash (txHash tx))]
    rfl

theorem forget_eraseOrphanTx (hash : Uint256) :
    (o.eraseOrphanTx hash).forget = o.forget.eraseOrphanTx hash := by
  rw [eraseOrphanTx, OrphanTxs.eraseOrphanTx]
  have hlookup : o.forget.mapOrphanTransactions = o.mapOrphanTransactions := rfl
  rw [hlookup]
  cases o.mapOrphanTransactions.lookup hash with
  | none => rfl
  | some tx =>
    rw [forget]
    dsimp only
    rw [ByPrev.hashes_foldl (fun byPrev => byPrev.hashes_eraseHash hash)]
    rfl

theorem Exact.noEmpty (h : o.Exact) : o.mapOrphanTransactionsByPrev.NoEmpty :=
  ByPrev.noEmpty_iff.mpr h.entry

theorem empty_exact : empty.Exact :=
  ⟨empty_indexed, ByPrev.noEmpty_iff.mp fun _ h => Option.some_ne_none _ h.symm⟩

theorem Exact.addOrphanTx (h : o.Exact) (txHash : CTransaction → Uint256) (tx : CTransaction) :
    (o.addOrphanTx txHash tx).1.Exact := by
  have hindexed := addOrphanTx_indexed (o := o.forget) h.indexed txHash tx
  rw [← forget_addOrphanTx] at hindexed
  refine ⟨hindexed, ByPrev.noEmpty_iff.mp ?_⟩
  rw [OrphanMaps.addOrphanTx]
  split_ifs
  · exact h.noEmpty
  · exact h.noEmpty
  · exact h.noEmpty.foldl (fun _ txin hne => hne.insertHash _ txin) tx.vin

theorem Exact.eraseOrphanTx (h : o.Exact) (hash : Uint256) : (o.eraseOrphanTx hash).Exact := by
  have hindexed := eraseOrphanTx_indexed (o := o.forget) h.indexed hash
  rw [← forget_eraseOrphanTx] at hindexed
  refine ⟨hindexed, ByPrev.noEmpty_iff.mp ?_⟩
  rw [OrphanMaps.eraseOrphanTx]
  cases o.mapOrphanTransactions.lookup hash with
  | none => exact h.noEmpty
  | some tx => exact h.noEmpty.foldl (fun _ txin hne => hne.eraseHash _ txin) tx.vin

theorem Exact.eraseAll (h : o.Exact) (hashes : List Uint256) :
    (hashes.foldl OrphanMaps.eraseOrphanTx o).Exact := by
  induction hashes generalizing o with
  | nil => exact h
  | cons hash hashes ih => exact ih (h.eraseOrphanTx hash)

/-- An orphan less, if there was one. -/
theorem eraseOrphanTx_size {hash : Uint256} (hmem : hash ∈ o.mapOrphanTransactions.keys) :
    (o.eraseOrphanTx hash).size+1 = o.size := by
  rw [eraseOrphanTx]
  cases hlookup : o.mapOrphanTransactions.lookup hash with
  | none => exact absurd (AList.mem_keys.mpr hmem) (AList.lookup_eq_none.mp hlookup)
  | some tx =>
    have hkeys := AList.keys_erase hash o.mapOrphanTransactions
    have hpos := List.length_pos_of_mem hmem
    rw [size, hkeys, List.length_erase_of_mem hmem, size]
    omega

theorem eraseOrphanTx_size_le (hash : Uint256) : (o.eraseOrphanTx hash).size ≤ o.size := by
  by_cases hmem : hash ∈ o.mapOrphanTransactions.keys
  · rw [← eraseOrphanTx_size hmem]
    exact Nat.le_succ _
  · rw [eraseOrphanTx, AList.lookup_eq_none.mpr (fun h => hmem (AList.mem_keys.mp h))]

theorem eraseAll_size_le (hashes : List Uint256) :
    (hashes.foldl eraseOrphanTx o).size ≤ o.size := by
  induction hashes generalizing o with
  | nil => exact le_rfl
  | cons hash hashes ih => exact ih.trans (eraseOrphanTx_size_le hash)

/-- Among some orphans there is one to evict. -/
theorem evicted_mem (h : 0 < o.size) (randomhash : Uint256) :
    ∃ hash, o.forget.evicted randomhash = some hash ∧ hash ∈ o.mapOrphanTransactions.keys := by
  let keys := o.mapOrphanTransactions.keys.insertionSort (· ≤ ·)
  have hperm : keys.Perm o.mapOrphanTransactions.keys := List.perm_insertionSort _ _
  -- `lower_bound` takes the first key not below the hash, and wraps to the first of all
  have heq : o.forget.evicted randomhash =
      (keys.find? fun key => decide (randomhash ≤ key)).or keys.head? := rfl
  rw [heq]
  cases hfind : keys.find? fun key => decide (randomhash ≤ key) with
  | some hash => exact ⟨hash, rfl, hperm.mem_iff.mp (List.mem_of_find?_eq_some hfind)⟩
  | none =>
    cases hkeys : keys with
    | nil =>
      rw [hkeys] at hperm
      rw [size, ← hperm.length_eq] at h
      exact absurd h (Nat.lt_irrefl 0)
    | cons hash rest => exact ⟨hash, rfl, hperm.mem_iff.mp (hkeys ▸ List.mem_cons_self)⟩

/-- Every turn takes out an orphan, so that the loop ends. -/
theorem limitLoop_spec (nMaxOrphans : ℕ) (randomhash : ℕ → Uint256) (fuel nEvicted : ℕ)
    (hfuel : o.size < fuel) : ∃ o' nEvicted',
      limitLoop nMaxOrphans randomhash fuel nEvicted o = some (o',nEvicted') ∧
      o'.size ≤ nMaxOrphans ∧ o'.size ≤ o.size ∧ (o.Exact → o'.Exact) := by
  -- each round evicts a known orphan, so the size bounds the rounds
  induction fuel generalizing o nEvicted with
  | zero => exact absurd hfuel (Nat.not_lt_zero _)
  | succ fuel ih =>
    rw [limitLoop]
    split_ifs with hover
    · obtain ⟨hash,hevicted,hmem⟩ := evicted_mem (o := o) (by omega) (randomhash nEvicted)
      have hless := eraseOrphanTx_size hmem
      obtain ⟨o',nEvicted',hloop,hmax,hsize,hexact⟩ :=
        ih (o := o.eraseOrphanTx hash) (nEvicted+1) (by omega)
      refine ⟨o', nEvicted', ?_, hmax, by omega, fun h => hexact (h.eraseOrphanTx hash)⟩
      rw [hevicted, Option.bind_eq_bind, Option.bind_some, hloop]
    · exact ⟨o, nEvicted, rfl, by omega, le_rfl, id⟩

theorem limitOrphanTxSize_spec (o : OrphanMaps) (nMaxOrphans : ℕ) (randomhash : ℕ → Uint256) :
    ∃ o' nEvicted, o.limitOrphanTxSize nMaxOrphans randomhash = some (o',nEvicted) ∧
      o'.size ≤ nMaxOrphans ∧ o'.size ≤ o.size ∧ (o.Exact → o'.Exact) :=
  limitLoop_spec nMaxOrphans randomhash (o.size+1) 0 (Nat.lt_succ_self _)

/-- The entries are no more than the inputs of the orphans. -/
theorem Exact.index_size (h : o.Exact) : o.mapOrphanTransactionsByPrev.keys.length ≤
    (o.mapOrphanTransactions.entries.map fun entry => entry.2.vin.length).sum := by
  -- each key of the index is the hash that some input of some orphan spends
  let prevs := o.mapOrphanTransactions.entries.flatMap fun entry =>
    entry.2.vin.map fun txin => txin.prevout.hash
  have hsub : o.mapOrphanTransactionsByPrev.keys ⊆ prevs := by
    intro p hp
    have hsome := AList.lookup_isSome.mpr (AList.mem_keys.mpr hp)
    obtain ⟨hash,hhash⟩ := List.exists_mem_of_ne_nil _ ((h.entry p).mp hsome)
    obtain ⟨tx,hlookup,txin,htxin,hprev⟩ := (h.indexed p hash).mp hhash
    exact List.mem_flatMap.mpr ⟨⟨hash,tx⟩, AList.mem_lookup_iff.mp hlookup,
      List.mem_map.mpr ⟨txin, htxin, hprev⟩⟩
  have hlen := (List.subperm_of_subset o.mapOrphanTransactionsByPrev.keys_nodup hsub).length_le
  rw [List.length_flatMap] at hlen
  simpa only [List.length_map] using hlen

end Maps

section Handler
variable {cons : Consensus} {tip : Utxo} {nSpendHeight : ℤ} {pool : CTxMemPool} {m : TxMessage}
  {o : OrphanMaps}

/-- The inner loop finds the orphans of the set, and erases them all. -/
theorem resolveSet_eq (hashes : List Uint256) (r : Resolving)
    (hknown : (r.pool.mapTx.lookup (cons.ext.txHash m.tx)).isSome = true)
    (hfound : ∀ hash ∈ hashes, (o.mapOrphanTransactions.lookup hash).isSome = true) :
    resolveSet cons tip nSpendHeight m hashes r o =
      ({ r with
        vEraseQueue := r.vEraseQueue ++ hashes
        calls := r.calls ++ List.replicate hashes.length ⟨m.tx, false, false⟩ },o) := by
  -- every hash of the set is found, so no empty orphan is made by looking it up
  rw [← resolveOrphans_eq tip nSpendHeight hashes r hknown]
  clear hknown
  induction hashes generalizing r with
  | nil => rfl
  | cons hash hashes ih =>
    rw [List.forall_mem_cons] at hfound
    rw [resolveSet, List.foldl_cons, List.foldl_cons]
    dsimp only
    rw [accessOrphan, if_pos hfound.1]
    exact ih _ hfound.2

/-- A transaction that is taken: all that wait for it go. -/
theorem processTx_taken (h : o.Exact)
    (htaken : (accept cons (m.io 0) tip nSpendHeight pool m.tx true true).isSome = true) (fuel : ℕ) :
    o.processTx cons tip nSpendHeight (fuel+2) pool m =
      some ((cons.ext.txHash m.tx :: o.mapOrphanTransactionsByPrev.hashes (cons.ext.txHash m.tx)).foldl
        eraseOrphanTx (o.accessPrev (cons.ext.txHash m.tx))) := by
  obtain ⟨pool',haccept⟩ := Option.isSome_iff_exists.mp htaken
  rw [processTx]
  simp only [haccept]
  -- the transaction is in the pool from here on, so the duplicate is refused for each orphan
  obtain ⟨-,-,-,-,-,rfl⟩ := accept_eq_some haccept
  have hknown : ((pool.addUnchecked (cons.ext.txHash m.tx) m.tx).mapTx.lookup
      (cons.ext.txHash m.tx)).isSome = true := addUnchecked_lookup.mpr (Or.inl rfl)
  have hset : (o.accessPrev (cons.ext.txHash m.tx)).mapOrphanTransactionsByPrev.hashes
      (cons.ext.txHash m.tx) = o.mapOrphanTransactionsByPrev.hashes (cons.ext.txHash m.tx) :=
    ByPrev.hashes_access _ _
  have hfound : ∀ hash ∈ o.mapOrphanTransactionsByPrev.hashes (cons.ext.txHash m.tx),
      ((o.accessPrev (cons.ext.txHash m.tx)).mapOrphanTransactions.lookup hash).isSome = true := by
    intro hash hhash
    obtain ⟨tx,hlookup,-⟩ := (h.indexed _ hash).mp hhash
    exact Option.isSome_iff_exists.mpr ⟨tx, hlookup⟩
  -- no orphan is accepted, so the queue holds no second hash and the loop stops
  rw [resolveLoop]
  simp only [List.getElem?_cons_zero]
  rw [hset, resolveSet_eq _ _ hknown hfound, resolveLoop]
  rfl

/-- With an orphan that waits, the access changes nothing, -/
theorem Exact.accessPrev (h : o.Exact) {p hash : Uint256} {tx : CTransaction}
    (hlookup : o.mapOrphanTransactions.lookup hash = some tx) (hspends : SpendsFrom tx p) :
    o.accessPrev p = o := by
  have hmem := (h.indexed p hash).mpr ⟨tx, hlookup, hspends⟩
  rw [OrphanMaps.accessPrev, ByPrev.access_eq (List.ne_nil_of_mem hmem)]

/-- and without one its entry stays. -/
theorem not_exact_of_taken (h : o.Exact) {p : Uint256}
    (hnone : ∀ hash tx, o.mapOrphanTransactions.lookup hash = some tx → ¬SpendsFrom tx p) :
    ¬((p :: o.mapOrphanTransactionsByPrev.hashes p).foldl eraseOrphanTx (o.accessPrev p)).Exact := by
  -- no orphan waits, so looking the hash up leaves an entry with no hashes
  have hempty : o.mapOrphanTransactionsByPrev.hashes p = [] := by
    refine List.eq_nil_iff_forall_not_mem.mpr fun hash hhash => ?_
    obtain ⟨tx,hlookup,hspends⟩ := (h.indexed p hash).mp hhash
    exact hnone hash tx hlookup hspends
  have hentry := ByPrev.lookup_access hempty
  rw [hempty]
  intro hexact
  -- and erasing the orphans never looks at that entry again
  apply hexact.noEmpty p
  rw [List.foldl_cons, List.foldl_nil, eraseOrphanTx]
  cases hlookup : (o.accessPrev p).mapOrphanTransactions.lookup p with
  | none => exact hentry
  | some tx =>
    dsimp only
    rw [ByPrev.lookup_eraseHashes]
    · exact hentry
    · intro txin htxin hprev
      exact hnone p tx hlookup ⟨txin, htxin, hprev⟩

theorem addOrphanTx_size_le (txHash : CTransaction → Uint256) (tx : CTransaction) :
    (o.addOrphanTx txHash tx).1.size ≤ o.size+1 := by
  rw [addOrphanTx]
  split_ifs
  · exact Nat.le_succ _
  · exact Nat.le_succ _
  · have hkeys := @AList.keys_insert _ _ _ (txHash tx) tx o.mapOrphanTransactions
    rw [size, hkeys, List.length_cons]
    exact Nat.succ_le_succ (List.erase_sublist.length_le)

variable (cons) in
/-- What a step leaves, and when the index stays exact. -/
theorem Exact.step (h : o.Exact) (hsize : o.size ≤ maxOrphanTransactions) (fuel : ℕ) (step : OrphanStep) :
    ∃ o', o.step cons (fuel+2) step = some o' ∧ o'.size ≤ maxOrphanTransactions ∧
      (o'.Exact ↔ o.SomeoneWaits cons step) := by
  cases step with
  | limit nMaxOrphans randomhash =>
    obtain ⟨o',nEvicted,hlimit,-,hless,hexact⟩ := limitOrphanTxSize_spec o nMaxOrphans randomhash
    refine ⟨o', ?_, hless.trans hsize, iff_of_true (hexact h) trivial⟩
    rw [OrphanMaps.step, hlimit]
    rfl
  | tx tip nSpendHeight pool m =>
    rw [OrphanMaps.step, SomeoneWaits]
    -- only a transaction that is taken looks the index up; the others add and evict
    by_cases htaken : (accept cons (m.io 0) tip nSpendHeight pool m.tx true true).isSome = true
    · refine ⟨_, processTx_taken h htaken fuel, (eraseAll_size_le _).trans hsize, ?_⟩
      constructor
      · intro hexact _
        by_contra hnot
        apply not_exact_of_taken h _ hexact
        exact fun hash tx hlookup hspends => hnot ⟨hash, tx, hlookup, hspends⟩
      -- where an orphan waits the entry is there already, and looking it up changes nothing
      · intro hwaits
        obtain ⟨hash,tx,hlookup,hspends⟩ := hwaits htaken
        rw [h.accessPrev hlookup hspends]
        exact h.eraseAll _
    · have hrefused : accept cons (m.io 0) tip nSpendHeight pool m.tx true true = none := by
        simpa using htaken
      rw [processTx]
      simp only [hrefused]
      split_ifs
      · obtain ⟨o',nEvicted,hlimit,hmax,-,hexact⟩ := limitOrphanTxSize_spec
          (o.addOrphanTx cons.ext.txHash m.tx).1 maxOrphanTransactions m.randomhash
        refine ⟨o', ?_, hmax, iff_of_true (hexact (h.addOrphanTx _ _)) fun hsome => ?_⟩
        · rw [hlimit]
          rfl
        · cases hsome
      · exact ⟨o, rfl, hsize, iff_of_true h fun hsome => by cases hsome⟩

end Handler

section Run
variable {cons : Consensus} {o : OrphanMaps}

/-- The index is exact, and bounded by the inputs of no more orphans than allowed. -/
structure Sound (o : OrphanMaps) : Prop where
  exact : o.Exact
  size : o.size ≤ maxOrphanTransactions
  index_size : o.mapOrphanTransactionsByPrev.keys.length ≤
    (o.mapOrphanTransactions.entries.map fun entry => entry.2.vin.length).sum

/-- The steps from a sound state. -/
theorem Sound.run_iff (h : o.Sound) (fuel : ℕ) (steps : List OrphanStep) :
    (∀ before, before <+: steps → ∃ o', o.run cons (fuel+2) before = some o' ∧ o'.Sound) ↔
      ∀ before step o', before ++ [step] <+: steps → o.run cons (fuel+2) before = some o' →
        o'.SomeoneWaits cons step := by
  induction steps generalizing o with
  | nil =>
    refine iff_of_true (fun before hbefore => ?_) fun before step o' hbefore => ?_
    · rw [List.prefix_nil.mp hbefore]
      exact ⟨o, rfl, h⟩
    · have hnil := List.prefix_nil.mp hbefore
      simp at hnil
  | cons step steps ih =>
    obtain ⟨next,hnext,hsize,hiff⟩ := h.exact.step cons h.size fuel step
    have hrun (before : List OrphanStep) : o.run cons (fuel+2) (step :: before) =
        next.run cons (fuel+2) before := by
      rw [run, hnext, Option.bind_eq_bind, Option.bind_some]
    by_cases hwaits : o.SomeoneWaits cons step
    · -- the next state is sound, and its steps are the others
      have hsound : next.Sound := ⟨hiff.mpr hwaits, hsize, (hiff.mpr hwaits).index_size⟩
      constructor
      · intro hall before step' o' hbefore ho'
        cases before with
        | nil =>
          obtain rfl := Option.some.inj ho'
          rwa [(List.cons_prefix_cons.mp hbefore).1]
        | cons first before =>
          obtain ⟨rfl,hrest⟩ := List.cons_prefix_cons.mp hbefore
          rw [hrun] at ho'
          refine (ih hsound).mp (fun before' hbefore' => ?_) before step' o' hrest ho'
          rw [← hrun]
          exact hall (first :: before') (List.cons_prefix_cons.mpr ⟨rfl, hbefore'⟩)
      · intro hall before hbefore
        cases before with
        | nil => exact ⟨o, rfl, h⟩
        | cons first before =>
          obtain ⟨rfl,hrest⟩ := List.cons_prefix_cons.mp hbefore
          rw [hrun]
          refine (ih hsound).mpr (fun before' step' o' hbefore' ho' => ?_) before hrest
          exact hall (first :: before') step' o' (List.cons_prefix_cons.mpr ⟨rfl, hbefore'⟩)
            ((hrun before').trans ho')
    -- the run stops being sound with this step, so neither side holds
    · have hone : [step] <+: step :: steps := List.cons_prefix_cons.mpr ⟨rfl, List.nil_prefix⟩
      refine iff_of_false (fun hall => ?_) fun hall => hwaits (hall [] step o hone rfl)
      obtain ⟨o',ho',hsound⟩ := hall [step] hone
      obtain rfl := Option.some.inj ((hrun []).symm.trans ho')
      exact hwaits (hiff.mp hsound.exact)

/-- After any steps the index is exact and bounded, as long as a transaction is only taken when an
orphan waits for it; and `LimitOrphanTxSize` ends with the orphans that it is to leave. -/
theorem orphan_index_exact_iff (fuel : ℕ) (steps : List OrphanStep) :
    (∀ (o : OrphanMaps) (nMaxOrphans : ℕ) (randomhash : ℕ → Uint256), ∃ o' nEvicted,
      o.limitOrphanTxSize nMaxOrphans randomhash = some (o',nEvicted) ∧ o'.size ≤ nMaxOrphans) ∧
    ((∀ before, before <+: steps → ∃ o, empty.run cons (fuel+2) before = some o ∧ o.Sound) ↔
      ∀ before step o, before ++ [step] <+: steps → empty.run cons (fuel+2) before = some o →
        o.SomeoneWaits cons step) := by
  refine ⟨fun o nMaxOrphans randomhash => ?_, ?_⟩
  · obtain ⟨o',nEvicted,hlimit,hmax,-⟩ := limitOrphanTxSize_spec o nMaxOrphans randomhash
    exact ⟨o', nEvicted, hlimit, hmax⟩
  · exact Sound.run_iff ⟨empty_exact, Nat.zero_le _, Nat.zero_le _⟩ fuel steps

/-- A transaction that nobody waits for leaves an entry without a set. -/
theorem taken_leaves_entry :
    ¬∀ (steps : List OrphanStep) (o : OrphanMaps), empty.run sampleConsensus 2 steps = some o →
      o.Exact := by
  intro hall
  let step : OrphanStep := .tx sampleTip 100 CTxMemPool.empty (sampleMessage sampleTx1)
  obtain ⟨o,ho,-,hiff⟩ := empty_exact.step sampleConsensus (Nat.zero_le _) 0 step
  have hrun : empty.run sampleConsensus 2 [step] = some o := by
    rw [run, ho]
    rfl
  obtain ⟨hash,tx,hlookup,-⟩ := hiff.mp (hall [step] o hrun) (by decide +kernel)
  cases hlookup

end Run

end OrphanMaps

end Candypool.Chain
