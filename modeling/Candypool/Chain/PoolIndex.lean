import Candypool.Chain.Mempool
import Candypool.Coins.RoundTrip

/-! The spend index of the memory pool. It is exact after any sequence of pool operations, and the
recursion of `remove` ends: the transactions of one run do not collide in their hashes, and none
spends from itself through others. -/
namespace Candypool.Chain
open Candypool.Prime Candypool.Core Candypool.Coins

/-- `clear`. -/
def CTxMemPool.clear (_ : CTxMemPool) : CTxMemPool := CTxMemPool.empty

/-- The outputs a transaction spends, in order. -/
def prevouts (tx : CTransaction) : List COutPoint := tx.vin.map CTxIn.prevout

section Defs
variable (txHash : CTransaction → Uint256)

/-- The index has the inputs of the pool and nothing else. -/
structure CTxMemPool.Exact (pool : CTxMemPool) : Prop where
  key : ∀ hash tx, pool.mapTx.lookup hash = some tx → hash = txHash tx
  nodup : ∀ hash tx, pool.mapTx.lookup hash = some tx → (prevouts tx).Nodup
  index : ∀ out hash i, pool.mapNextTx.lookup out = some (hash,i) ↔
    ∃ tx, pool.mapTx.lookup hash = some tx ∧ (prevouts tx)[i]? = some out

/-- `tx'` spends an output of `tx`, both among the transactions of `T`. -/
def Spends (T : Set CTransaction) (tx tx' : CTransaction) : Prop :=
  tx ∈ T ∧ tx' ∈ T ∧ ∃ out ∈ prevouts tx', out.hash = txHash tx

/-- What collision-free hashes give for a set of transactions: no two have one hash, and none
spends from itself. -/
structure CollisionFree (T : Set CTransaction) : Prop where
  inj : Set.InjOn txHash T
  acyclic : ∀ tx, ¬ Relation.TransGen (Spends txHash T) tx tx

/-- The calls that `remove` with `fRecursive` makes, from output `i` of `tx` on, as the source makes
them, and the pool they leave. An index entry that points to no transaction has no rule. -/
inductive RemovesFrom : CTxMemPool → CTransaction → ℕ → CTxMemPool → Prop
  | done {pool : CTxMemPool} {tx : CTransaction} {i : ℕ} (last : tx.vout.length ≤ i) :
      RemovesFrom pool tx i (pool.removeEntry txHash tx)
  | unspent {pool pool' : CTxMemPool} {tx : CTransaction} {i : ℕ} (more : i < tx.vout.length)
      (free : pool.mapNextTx.lookup ⟨txHash tx, i⟩ = none)
      (rest : RemovesFrom pool tx (i+1) pool') : RemovesFrom pool tx i pool'
  | spent {pool pool' pool'' : CTxMemPool} {tx ptx : CTransaction} {i n : ℕ} {hash : Uint256}
      (more : i < tx.vout.length)
      (entry : pool.mapNextTx.lookup ⟨txHash tx, i⟩ = some (hash,n))
      (found : pool.mapTx.lookup hash = some ptx) (call : RemovesFrom pool ptx 0 pool')
      (rest : RemovesFrom pool' tx (i+1) pool'') : RemovesFrom pool tx i pool''

end Defs

/-- The operations of the pool. -/
inductive PoolOp
  | accept (io : AcceptIO) (tip : Utxo) (nSpendHeight : ℤ) (tx : CTransaction)
      (fCheckInputs fLimitFree : Bool)
  | addUnchecked (tx : CTransaction)
  | remove (tx : CTransaction) (fRecursive : Bool)
  | removeConflicts (tx : CTransaction)
  | clear

section Run
variable (cons : Consensus)

def PoolOp.exec (pool : CTxMemPool) : PoolOp → CTxMemPool
  | .accept io tip nSpendHeight tx fCheckInputs fLimitFree =>
    (Chain.accept cons io tip nSpendHeight pool tx fCheckInputs fLimitFree).getD pool
  | .addUnchecked tx => pool.addUnchecked (cons.ext.txHash tx) tx
  | .remove tx fRecursive => pool.remove cons.ext.txHash tx fRecursive
  | .removeConflicts tx => pool.removeConflicts cons.ext.txHash tx
  | .clear => pool.clear

/-- The transaction of an operation is one of `T`, and `addUnchecked` is only called for one that
passes the checks of `accept`. -/
def PoolOp.Called (T : Set CTransaction) (pool : CTxMemPool) : PoolOp → Prop
  | .accept _ _ _ tx _ _ => tx ∈ T
  | .addUnchecked tx => tx ∈ T ∧ ∃ io tip nSpendHeight fCheckInputs fLimitFree,
      (Chain.accept cons io tip nSpendHeight pool tx fCheckInputs fLimitFree).isSome = true
  | .remove tx _ => tx ∈ T
  | .removeConflicts tx => tx ∈ T
  | .clear => True

/-- The pools a run over the transactions of `T` can reach. -/
inductive PoolReaches (T : Set CTransaction) : CTxMemPool → Prop
  | empty : PoolReaches T CTxMemPool.empty
  | step {pool : CTxMemPool} (op : PoolOp) (rest : PoolReaches T pool)
      (called : op.Called cons T pool) : PoolReaches T (op.exec cons pool)

end Run

/-- Hashes are collision-free where each transaction has a higher rank than those it spends from. -/
theorem CollisionFree.of_rank {txHash : CTransaction → Uint256} {T : Set CTransaction}
    (hinj : Set.InjOn txHash T) (rank : CTransaction → ℕ)
    (h : ∀ tx tx', Spends txHash T tx tx' → rank tx < rank tx') : CollisionFree txHash T := by
  refine ⟨hinj, fun tx hcycle => ?_⟩
  have hrank : Relation.TransGen (· < ·) (rank tx) (rank tx) := hcycle.lift rank h
  rw [Relation.transGen_eq_self] at hrank
  exact lt_irrefl _ hrank

section Index
variable {txHash : CTransaction → Uint256}

theorem eraseAll_lookup (vin : List CTxIn) (next : AList fun _ : COutPoint => Uint256 × ℕ)
    (out : COutPoint) :
    (vin.foldl (fun next txin => next.erase txin.prevout) next).lookup out =
      if out ∈ vin.map CTxIn.prevout then none else next.lookup out := by
  induction vin generalizing next with
  | nil => simp
  | cons txin vin ih =>
    rw [List.foldl_cons, ih, List.map_cons]
    by_cases hmem : out ∈ vin.map CTxIn.prevout
    · rw [if_pos hmem, if_pos (List.mem_cons_of_mem _ hmem)]
    · rw [if_neg hmem]
      by_cases heq : out = txin.prevout
      · rw [heq, AList.lookup_erase, if_pos List.mem_cons_self]
      · rw [AList.lookup_erase_ne heq, if_neg]
        rw [List.mem_cons, not_or]
        exact ⟨heq, hmem⟩

theorem insertAll_lookup_ne (hash : Uint256) (vin : List CTxIn) (k : ℕ)
    (next : AList fun _ : COutPoint => Uint256 × ℕ) {out : COutPoint}
    (hout : out ∉ vin.map CTxIn.prevout) :
    ((vin.zipIdx k).foldl (fun next (txin,i) => next.insert txin.prevout (hash,i)) next).lookup out =
      next.lookup out := by
  induction vin generalizing k next with
  | nil => rfl
  | cons txin vin ih =>
    rw [List.map_cons, List.mem_cons, not_or] at hout
    rw [List.zipIdx_cons, List.foldl_cons, ih _ _ hout.2]
    exact AList.lookup_insert_ne hout.1

theorem insertAll_lookup (hash : Uint256) {vin : List CTxIn} (k : ℕ)
    (next : AList fun _ : COutPoint => Uint256 × ℕ) (hnodup : (vin.map CTxIn.prevout).Nodup)
    {i : ℕ} {out : COutPoint} (hout : (vin.map CTxIn.prevout)[i]? = some out) :
    ((vin.zipIdx k).foldl (fun next (txin,i) => next.insert txin.prevout (hash,i)) next).lookup out =
      some (hash, k+i) := by
  induction vin generalizing k next i with
  | nil => simp at hout
  | cons txin vin ih =>
    rw [List.map_cons, List.nodup_cons] at hnodup
    rw [List.zipIdx_cons, List.foldl_cons]
    cases i with
    | zero =>
      rw [List.map_cons, List.getElem?_cons_zero] at hout
      obtain rfl := Option.some.inj hout
      rw [insertAll_lookup_ne hash vin _ _ hnodup.1]
      exact AList.lookup_insert _
    | succ i =>
      rw [List.map_cons, List.getElem?_cons_succ] at hout
      rw [ih (k+1) _ hnodup.2 hout]
      congr 2
      omega

end Index

section Exact
variable {txHash : CTransaction → Uint256} {pool : CTxMemPool}

theorem empty_exact : CTxMemPool.empty.Exact txHash := by
  constructor
  · intro hash tx h
    cases h
  · intro hash tx h
    cases h
  · intro out hash i
    constructor
    · intro h
      cases h
    · rintro ⟨tx,h,-⟩
      cases h

/-- A transaction that is new and spends nothing the pool spends keeps the index exact. -/
theorem addUnchecked_exact (h : pool.Exact txHash) {tx : CTransaction}
    (hnew : pool.mapTx.lookup (txHash tx) = none) (hnodup : (prevouts tx).Nodup)
    (hfree : ∀ out ∈ prevouts tx, pool.mapNextTx.lookup out = none) :
    (pool.addUnchecked (txHash tx) tx).Exact txHash := by
  have hself : (pool.addUnchecked (txHash tx) tx).mapTx.lookup (txHash tx) = some tx :=
    AList.lookup_insert _
  have hother : ∀ hash, hash ≠ txHash tx →
      (pool.addUnchecked (txHash tx) tx).mapTx.lookup hash = pool.mapTx.lookup hash :=
    fun hash hne => AList.lookup_insert_ne hne
  constructor
  · intro hash tx' hlookup
    by_cases heq : hash = txHash tx
    · rw [heq, hself] at hlookup
      rw [heq, Option.some.inj hlookup]
    · rw [hother hash heq] at hlookup
      exact h.key hash tx' hlookup
  · intro hash tx' hlookup
    by_cases heq : hash = txHash tx
    · rw [heq, hself] at hlookup
      rw [← Option.some.inj hlookup]
      exact hnodup
    · rw [hother hash heq] at hlookup
      exact h.nodup hash tx' hlookup
  · intro out hash i
    by_cases hout : out ∈ prevouts tx
    · -- the outputs of the new transaction point to it, and to nothing before
      obtain ⟨j,hj⟩ := List.mem_iff_getElem?.mp hout
      have hnext : (pool.addUnchecked (txHash tx) tx).mapNextTx.lookup out =
          some (txHash tx, 0+j) := insertAll_lookup (txHash tx) 0 pool.mapNextTx hnodup hj
      rw [zero_add] at hnext
      rw [hnext]
      constructor
      · intro heq
        obtain ⟨rfl,rfl⟩ := Prod.mk.inj (Option.some.inj heq)
        exact ⟨tx, hself, hj⟩
      · rintro ⟨tx',hlookup,hi⟩
        by_cases heq : hash = txHash tx
        · rw [heq, hself] at hlookup
          rw [← Option.some.inj hlookup] at hi
          have hlt := (List.getElem?_eq_some_iff.mp hj).1
          rw [(List.getElem?_inj hlt hnodup).mp (hj.trans hi.symm), heq]
        · rw [hother hash heq] at hlookup
          have hold := (h.index out hash i).mpr ⟨tx', hlookup, hi⟩
          rw [hfree out hout] at hold
          cases hold
    · have hnext : (pool.addUnchecked (txHash tx) tx).mapNextTx.lookup out =
          pool.mapNextTx.lookup out := insertAll_lookup_ne (txHash tx) tx.vin 0 pool.mapNextTx hout
      rw [hnext, h.index]
      constructor
      · rintro ⟨tx',hlookup,hi⟩
        have hne : hash ≠ txHash tx := by
          intro heq
          rw [heq, hnew] at hlookup
          cases hlookup
        exact ⟨tx', (hother hash hne).trans hlookup, hi⟩
      · rintro ⟨tx',hlookup,hi⟩
        by_cases heq : hash = txHash tx
        · rw [heq, hself] at hlookup
          rw [← Option.some.inj hlookup] at hi
          exact absurd (List.mem_of_getElem? hi) hout
        · exact ⟨tx', (hother hash heq).symm.trans hlookup, hi⟩

/-- Taking out a transaction of the pool keeps the index exact. -/
theorem removeEntry_exact (h : pool.Exact txHash) {tx : CTransaction}
    (hsame : ∀ tx', pool.mapTx.lookup (txHash tx) = some tx' → tx' = tx) :
    (pool.removeEntry txHash tx).Exact txHash := by
  rw [CTxMemPool.removeEntry]
  split_ifs with hmem
  swap
  · exact h
  obtain ⟨tx',hself⟩ := Option.isSome_iff_exists.mp hmem
  obtain rfl := hsame tx' hself
  have hother : ∀ hash tx'', (pool.mapTx.erase (txHash tx')).lookup hash = some tx'' ↔
      hash ≠ txHash tx' ∧ pool.mapTx.lookup hash = some tx'' := by
    intro hash tx''
    by_cases heq : hash = txHash tx'
    · rw [heq, AList.lookup_erase]
      simp
    · rw [AList.lookup_erase_ne heq]
      simp [heq]
  constructor
  · intro hash tx'' hlookup
    exact h.key hash tx'' ((hother hash tx'').mp hlookup).2
  · intro hash tx'' hlookup
    exact h.nodup hash tx'' ((hother hash tx'').mp hlookup).2
  · intro out hash i
    dsimp only
    rw [eraseAll_lookup]
    constructor
    · intro hlookup
      split_ifs at hlookup with hout
      obtain ⟨tx'',htx,hi⟩ := (h.index out hash i).mp hlookup
      refine ⟨tx'', (hother hash tx'').mpr ⟨?_, htx⟩, hi⟩
      intro heq
      rw [heq, hself] at htx
      rw [← Option.some.inj htx] at hi
      exact hout (List.mem_of_getElem? hi)
    · rintro ⟨tx'',htx,hi⟩
      obtain ⟨hne,htx⟩ := (hother hash tx'').mp htx
      have hlookup := (h.index out hash i).mpr ⟨tx'', htx, hi⟩
      rw [if_neg, hlookup]
      -- an output of the transaction points to it alone
      intro hout
      obtain ⟨j,hj⟩ := List.mem_iff_getElem?.mp hout
      have hown := (h.index out (txHash tx') j).mpr ⟨tx', hself, hj⟩
      rw [hlookup] at hown
      exact hne (Prod.mk.inj (Option.some.inj hown)).1

end Exact

section Remove
variable {txHash : CTransaction → Uint256} {T : Set CTransaction} {pool pool' : CTxMemPool}

/-- An exact pool of transactions of `T`. -/
structure CTxMemPool.Ok (txHash : CTransaction → Uint256) (T : Set CTransaction)
    (pool : CTxMemPool) : Prop where
  exact : pool.Exact txHash
  mem : ∀ hash tx, pool.mapTx.lookup hash = some tx → tx ∈ T

/-- All of the first pool is in the second. -/
def CTxMemPool.Sub (pool' pool : CTxMemPool) : Prop :=
  ∀ hash tx, pool'.mapTx.lookup hash = some tx → pool.mapTx.lookup hash = some tx

theorem CTxMemPool.Sub.refl (pool : CTxMemPool) : pool.Sub pool := fun _ _ h => h

theorem CTxMemPool.Sub.trans {a b c : CTxMemPool} (h : a.Sub b) (h' : b.Sub c) : a.Sub c :=
  fun hash tx ha => h' hash tx (h hash tx ha)

theorem removeEntry_sub (pool : CTxMemPool) (tx : CTransaction) :
    (pool.removeEntry txHash tx).Sub pool := by
  intro hash tx' hlookup
  rw [CTxMemPool.removeEntry] at hlookup
  split_ifs at hlookup
  · by_cases heq : hash = txHash tx
    · rw [heq, AList.lookup_erase] at hlookup
      cases hlookup
    · rw [AList.lookup_erase_ne heq] at hlookup
      exact hlookup
  · exact hlookup

theorem removeEntry_ok (hT : CollisionFree txHash T) (h : pool.Ok txHash T) {tx : CTransaction}
    (htx : tx ∈ T) : (pool.removeEntry txHash tx).Ok txHash T := by
  constructor
  · apply removeEntry_exact h.exact
    intro tx' hlookup
    exact hT.inj (h.mem _ tx' hlookup) htx (h.exact.key _ tx' hlookup).symm
  · intro hash tx' hlookup
    exact h.mem hash tx' (removeEntry_sub pool tx hash tx' hlookup)

open Classical in
/-- The transactions of the pool that spend from `tx`, at once or through others. -/
noncomputable def spenders (txHash : CTransaction → Uint256) (T : Set CTransaction)
    (pool : CTxMemPool) (tx : CTransaction) : Finset CTransaction :=
  (pool.mapTx.entries.map Sigma.snd).toFinset.filter (Relation.TransGen (Spends txHash T) tx)

open Classical in
theorem mem_spenders {tx tx' : CTransaction} : tx' ∈ spenders txHash T pool tx ↔
    (∃ hash, pool.mapTx.lookup hash = some tx') ∧ Relation.TransGen (Spends txHash T) tx tx' := by
  rw [spenders, Finset.mem_filter, List.mem_toFinset, List.mem_map]
  constructor
  · rintro ⟨⟨⟨hash,tx''⟩,hmem,rfl⟩,hspends⟩
    exact ⟨⟨hash, AList.mem_lookup_iff.mpr hmem⟩, hspends⟩
  · rintro ⟨⟨hash,hlookup⟩,hspends⟩
    exact ⟨⟨⟨hash, tx'⟩, AList.mem_lookup_iff.mp hlookup, rfl⟩, hspends⟩

open Classical in
theorem spenders_card (pool : CTxMemPool) (tx : CTransaction) :
    (spenders txHash T pool tx).card ≤ pool.mapTx.entries.length := by
  rw [spenders]
  calc _ ≤ (pool.mapTx.entries.map Sigma.snd).toFinset.card := Finset.card_filter_le _ _
    _ ≤ (pool.mapTx.entries.map Sigma.snd).length := List.toFinset_card_le _
    _ = pool.mapTx.entries.length := List.length_map _

/-- A transaction of the pool that spends from `tx` has fewer spenders, also after others have
left. -/
theorem spenders_card_lt (hT : CollisionFree txHash T) (hsub : pool'.Sub pool)
    {tx ptx : CTransaction} {hash : Uint256} (hfound : pool.mapTx.lookup hash = some ptx)
    (hspends : Spends txHash T tx ptx) :
    (spenders txHash T pool' ptx).card < (spenders txHash T pool tx).card := by
  apply Finset.card_lt_card
  rw [Finset.ssubset_iff_of_subset]
  · exact ⟨ptx, mem_spenders.mpr ⟨⟨hash, hfound⟩, Relation.TransGen.single hspends⟩,
      fun hmem => hT.acyclic ptx (mem_spenders.mp hmem).2⟩
  · intro tx' hmem
    obtain ⟨⟨hash',hlookup⟩,hrest⟩ := mem_spenders.mp hmem
    exact mem_spenders.mpr ⟨⟨hash', hsub hash' tx' hlookup⟩, Relation.TransGen.head hspends hrest⟩

/-- The body of the loop over the outputs in `removeDeep`. -/
def CTxMemPool.removeSpender (txHash : CTransaction → Uint256) (fuel : ℕ) (tx : CTransaction)
    (pool : CTxMemPool) (i : ℕ) : CTxMemPool :=
  match pool.mapNextTx.lookup ⟨txHash tx, i⟩ with
  | none => pool
  | some (hash,_) => match pool.mapTx.lookup hash with
    | none => pool
    | some ptx => pool.removeDeep txHash fuel ptx

theorem removeDeep_succ (pool : CTxMemPool) (fuel : ℕ) (tx : CTransaction) :
    pool.removeDeep txHash (fuel+1) tx = ((List.range tx.vout.length).foldl
      (CTxMemPool.removeSpender txHash fuel tx) pool).removeEntry txHash tx := by
  rfl

/-- With fuel for every spender the recursion ends as in the source, and keeps the pool exact. -/
theorem removeDeep_spec (hT : CollisionFree txHash T) {fuel : ℕ} {tx : CTransaction}
    (h : pool.Ok txHash T) (htx : tx ∈ T) (hfuel : (spenders txHash T pool tx).card < fuel) :
    RemovesFrom txHash pool tx 0 (pool.removeDeep txHash fuel tx) ∧
      (pool.removeDeep txHash fuel tx).Ok txHash T ∧ (pool.removeDeep txHash fuel tx).Sub pool := by
  induction fuel generalizing pool tx with
  | zero => omega
  | succ fuel ih =>
    rw [removeDeep_succ, List.range_eq_range']
    generalize hf : CTxMemPool.removeSpender txHash fuel tx = f
    -- the loop over the outputs, from output `i` on, in what is left of the pool
    have hloop : ∀ k i pool', i+k = tx.vout.length → pool'.Ok txHash T → pool'.Sub pool →
        RemovesFrom txHash pool' tx i (((List.range' i k).foldl f pool').removeEntry txHash tx) ∧
        (((List.range' i k).foldl f pool').removeEntry txHash tx).Ok txHash T ∧
        (((List.range' i k).foldl f pool').removeEntry txHash tx).Sub pool := by
      intro k
      induction k with
      | zero =>
        intro i pool' hi hok hsub
        exact ⟨RemovesFrom.done (by omega), removeEntry_ok hT hok htx,
          (removeEntry_sub pool' tx).trans hsub⟩
      | succ k ihk =>
        intro i pool' hi hok hsub
        rw [List.range'_succ, List.foldl_cons]
        cases hentry : pool'.mapNextTx.lookup ⟨txHash tx, i⟩ with
        | none =>
          have hfi : f pool' i = pool' := by
            rw [← hf, CTxMemPool.removeSpender, hentry]
          rw [hfi]
          obtain ⟨hremoves,hrest⟩ := ihk (i+1) pool' (by omega) hok hsub
          exact ⟨RemovesFrom.unspent (by omega) hentry hremoves, hrest⟩
        | some entry =>
          obtain ⟨hash,n⟩ := entry
          obtain ⟨ptx,hfound,hn⟩ := (hok.exact.index _ hash n).mp hentry
          have hfi : f pool' i = pool'.removeDeep txHash fuel ptx := by
            rw [← hf, CTxMemPool.removeSpender, hentry]
            dsimp only
            rw [hfound]
          have hspends : Spends txHash T tx ptx :=
            ⟨htx, hok.mem hash ptx hfound, _, List.mem_of_getElem? hn, rfl⟩
          have hlt := spenders_card_lt hT hsub (hsub hash ptx hfound) hspends
          obtain ⟨hcall,hok',hsub'⟩ := ih hok (hok.mem hash ptx hfound) (by omega)
          rw [hfi]
          obtain ⟨hremoves,hrest⟩ := ihk (i+1) _ (by omega) hok' (hsub'.trans hsub)
          exact ⟨RemovesFrom.spent (by omega) hentry hfound hcall hremoves, hrest⟩
    exact hloop tx.vout.length 0 pool (by omega) h (CTxMemPool.Sub.refl pool)

theorem remove_spec (hT : CollisionFree txHash T) (h : pool.Ok txHash T) {tx : CTransaction}
    (htx : tx ∈ T) (fRecursive : Bool) :
    (pool.remove txHash tx fRecursive).Ok txHash T ∧ (pool.remove txHash tx fRecursive).Sub pool ∧
      (fRecursive = true → RemovesFrom txHash pool tx 0 (pool.remove txHash tx fRecursive)) := by
  have hcard : (spenders txHash T pool tx).card ≤ pool.mapTx.entries.length :=
    spenders_card pool tx
  cases fRecursive with
  | false => exact ⟨removeEntry_ok hT h htx, removeEntry_sub pool tx, fun hrec => by cases hrec⟩
  | true =>
    have hfuel : (spenders txHash T pool tx).card < pool.mapTx.entries.length+2 := by omega
    obtain ⟨hremoves,hok,hsub⟩ := removeDeep_spec hT h htx hfuel
    exact ⟨hok, hsub, fun _ => hremoves⟩

theorem removeConflicts_ok (hT : CollisionFree txHash T) (h : pool.Ok txHash T)
    (tx : CTransaction) : (pool.removeConflicts txHash tx).Ok txHash T ∧
      (pool.removeConflicts txHash tx).Sub pool := by
  rw [CTxMemPool.removeConflicts]
  generalize tx.vin = vin
  induction vin generalizing pool with
  | nil => exact ⟨h, CTxMemPool.Sub.refl pool⟩
  | cons txin vin ih =>
    rw [List.foldl_cons]
    split
    · exact ih h
    · rename_i txConflict hfound
      split_ifs
      · -- a transaction the index points to is in the pool
        obtain ⟨next,-,hlookup⟩ := Option.bind_eq_some_iff.mp hfound
        obtain ⟨hok,hsub,-⟩ := remove_spec hT h (h.mem next.1 txConflict hlookup) true
        obtain ⟨hok',hsub'⟩ := ih hok
        exact ⟨hok', hsub'.trans hsub⟩
      · exact ih h

end Remove

section Runs
variable {cons : Consensus} {T : Set CTransaction} {pool : CTxMemPool}

/-- What `accept` has found when it takes a transaction, and what it leaves. -/
theorem accept_eq_some {io : AcceptIO} {tip : Utxo} {nSpendHeight : ℤ} {tx : CTransaction}
    {fCheckInputs fLimitFree : Bool} {pool' : CTxMemPool}
    (h : accept cons io tip nSpendHeight pool tx fCheckInputs fLimitFree = some pool') :
    tx.Checked ∧ tx.isCoinBase = false ∧ pool.mapTx.lookup (cons.ext.txHash tx) = none ∧
      (∀ out ∈ prevouts tx, pool.mapNextTx.lookup out = none) ∧
      (fCheckInputs = true →
        acceptInputs cons io (pool.view tip) nSpendHeight tx fLimitFree = true) ∧
      pool' = pool.addUnchecked (cons.ext.txHash tx) tx := by
  rw [accept] at h
  split_ifs at h with hcheck hcoinbase hlock hstandard hknown hconflict hinputs
  refine ⟨?_, by simpa using hcoinbase, by simpa using hknown, ?_, ?_, (Option.some.inj h).symm⟩
  · apply checkTransaction_ok
    cases hres : tx.checkTransaction with
    | ok => rfl
    | error e =>
      rw [hres] at hcheck
      exact absurd rfl hcheck
  · intro out hout
    obtain ⟨txin,hmem,rfl⟩ := List.mem_map.mp hout
    rw [List.any_eq_true, not_exists] at hconflict
    simpa [hmem] using hconflict txin
  · intro hflag
    simpa [hflag] using hinputs

theorem accept_ok (h : pool.Ok cons.ext.txHash T) {io : AcceptIO} {tip : Utxo} {nSpendHeight : ℤ}
    {tx : CTransaction} {fCheckInputs fLimitFree : Bool} {pool' : CTxMemPool} (htx : tx ∈ T)
    (haccept : accept cons io tip nSpendHeight pool tx fCheckInputs fLimitFree = some pool') :
    pool'.Ok cons.ext.txHash T := by
  obtain ⟨hchecked,-,hnew,hfree,-,rfl⟩ := accept_eq_some haccept
  refine ⟨addUnchecked_exact h.exact hnew hchecked.nodup hfree, fun hash tx' hlookup => ?_⟩
  by_cases heq : hash = cons.ext.txHash tx
  · have hself : (pool.addUnchecked (cons.ext.txHash tx) tx).mapTx.lookup (cons.ext.txHash tx) =
        some tx := AList.lookup_insert _
    rw [heq, hself] at hlookup
    rw [← Option.some.inj hlookup]
    exact htx
  · have hother : (pool.addUnchecked (cons.ext.txHash tx) tx).mapTx.lookup hash =
        pool.mapTx.lookup hash := AList.lookup_insert_ne heq
    exact h.mem hash tx' (hother.symm.trans hlookup)

theorem PoolOp.exec_ok (hT : CollisionFree cons.ext.txHash T) (h : pool.Ok cons.ext.txHash T)
    {op : PoolOp} (hcalled : op.Called cons T pool) : (op.exec cons pool).Ok cons.ext.txHash T := by
  cases op with
  | accept io tip nSpendHeight tx fCheckInputs fLimitFree =>
    rw [PoolOp.exec]
    cases haccept : Chain.accept cons io tip nSpendHeight pool tx fCheckInputs fLimitFree with
    | none => exact h
    | some pool' => exact accept_ok h hcalled haccept
  | addUnchecked tx =>
    obtain ⟨htx,io,tip,nSpendHeight,fCheckInputs,fLimitFree,hsome⟩ := hcalled
    obtain ⟨pool',haccept⟩ := Option.isSome_iff_exists.mp hsome
    obtain ⟨-,-,-,-,-,heq⟩ := accept_eq_some haccept
    rw [PoolOp.exec, ← heq]
    exact accept_ok h htx haccept
  | remove tx fRecursive => exact (remove_spec hT h hcalled fRecursive).1
  | removeConflicts tx => exact (removeConflicts_ok hT h tx).1
  | clear =>
    refine ⟨empty_exact, fun hash tx hlookup => ?_⟩
    cases hlookup

theorem PoolReaches.ok (hT : CollisionFree cons.ext.txHash T) (h : PoolReaches cons T pool) :
    pool.Ok cons.ext.txHash T := by
  induction h with
  | empty =>
    refine ⟨empty_exact, fun hash tx hlookup => ?_⟩
    cases hlookup
  | step op _ called ih => exact PoolOp.exec_ok hT ih called

/-- In every pool that can be reached, an output is a key of the index if and only if an input of
the pool spends it, it maps to that input, no output is spent twice, and the recursion of `remove`
ends. -/
theorem spend_index_exact (cons : Consensus) (T : Set CTransaction)
    (hT : CollisionFree cons.ext.txHash T) (pool : CTxMemPool) (h : PoolReaches cons T pool) :
    (∀ out, (pool.mapNextTx.lookup out).isSome = true ↔
      ∃ hash tx, pool.mapTx.lookup hash = some tx ∧ out ∈ prevouts tx) ∧
    (∀ out hash (i : ℕ), pool.mapNextTx.lookup out = some (hash,i) ↔
      ∃ tx, pool.mapTx.lookup hash = some tx ∧ (prevouts tx)[i]? = some out) ∧
    (∀ hash hash' tx tx' (i i' : ℕ) out, pool.mapTx.lookup hash = some tx →
      pool.mapTx.lookup hash' = some tx' → (prevouts tx)[i]? = some out →
      (prevouts tx')[i']? = some out → hash = hash' ∧ i = i') ∧
    ∀ tx ∈ T, RemovesFrom cons.ext.txHash pool tx 0 (pool.remove cons.ext.txHash tx true) := by
  have hok := h.ok hT
  have hindex := hok.exact.index
  refine ⟨fun out => ?_, hindex, ?_, fun tx htx => (remove_spec hT hok htx true).2.2 rfl⟩
  · constructor
    · intro hsome
      obtain ⟨⟨hash,i⟩,hnext⟩ := Option.isSome_iff_exists.mp hsome
      obtain ⟨tx,htx,hi⟩ := (hindex out hash i).mp hnext
      exact ⟨hash, tx, htx, List.mem_of_getElem? hi⟩
    · rintro ⟨hash,tx,htx,hout⟩
      obtain ⟨i,hi⟩ := List.mem_iff_getElem?.mp hout
      rw [(hindex out hash i).mpr ⟨tx, htx, hi⟩]
      rfl
  · intro hash hash' tx tx' i i' out htx htx' hi hi'
    have hnext := (hindex out hash i).mpr ⟨tx, htx, hi⟩
    have hnext' := (hindex out hash' i').mpr ⟨tx', htx', hi'⟩
    exact Prod.mk.inj (Option.some.inj (hnext.symm.trans hnext'))

end Runs

section Sample

/-- A transaction and one that spends its output. -/
def sampleSet : Set CTransaction := {sampleTx1, sampleTx2}

theorem sampleSet_spends {tx tx' : CTransaction} (h : Spends sampleExternals.txHash sampleSet tx tx') :
    tx = sampleTx1 ∧ tx' = sampleTx2 := by
  obtain ⟨htx,htx',out,hout,hhash⟩ := h
  have hnone : ∀ tx ∈ [sampleTx1, sampleTx2], ∀ tx' ∈ [sampleTx1, sampleTx2],
      ∀ out ∈ prevouts tx', out.hash = sampleExternals.txHash tx →
        tx = sampleTx1 ∧ tx' = sampleTx2 := by
    decide +kernel
  exact hnone tx (by simpa [sampleSet] using htx) tx' (by simpa [sampleSet] using htx') out hout hhash

theorem sampleSet_collisionFree : CollisionFree sampleExternals.txHash sampleSet := by
  have hinj : ∀ tx ∈ [sampleTx1, sampleTx2], ∀ tx' ∈ [sampleTx1, sampleTx2],
      sampleExternals.txHash tx = sampleExternals.txHash tx' → tx = tx' := by
    decide +kernel
  refine CollisionFree.of_rank (fun tx htx tx' htx' => ?_) (fun tx => if tx = sampleTx1 then 0 else 1) ?_
  · exact hinj tx (by simpa [sampleSet] using htx) tx' (by simpa [sampleSet] using htx')
  · intro tx tx' h
    obtain ⟨rfl,rfl⟩ := sampleSet_spends h
    decide +kernel

def sampleAccept (tx : CTransaction) : PoolOp :=
  .accept ⟨true, true, false⟩ (fun _ => none) 1 tx false false

/-- The pool after both have come, the inputs not being asked for. -/
def samplePool : CTxMemPool :=
  (sampleAccept sampleTx2).exec sampleConsensus
    ((sampleAccept sampleTx1).exec sampleConsensus CTxMemPool.empty)

theorem spend_index_exact_sample :
    samplePool.mapTx.lookup sampleTx2Id = some sampleTx2 ∧
      RemovesFrom sampleExternals.txHash samplePool sampleTx1 0
        (samplePool.remove sampleExternals.txHash sampleTx1 true) := by
  have hreach : PoolReaches sampleConsensus sampleSet samplePool := by
    refine PoolReaches.step (sampleAccept sampleTx2)
      (PoolReaches.step (sampleAccept sampleTx1) PoolReaches.empty ?_) ?_
    · exact Or.inl rfl
    · exact Or.inr rfl
  obtain ⟨-,-,-,hends⟩ := spend_index_exact sampleConsensus sampleSet sampleSet_collisionFree
    samplePool hreach
  exact ⟨by decide +kernel, hends sampleTx1 (Or.inl rfl)⟩

end Sample

end Candypool.Chain
