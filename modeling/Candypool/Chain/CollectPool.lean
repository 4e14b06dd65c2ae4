import Candypool.Chain.CreateBlock

/-! The first loop of `CreateNewBlock` and the release of orphans. A transaction is in the queue or
waits as an orphan, and every pointer leads to an orphan that is there. -/
namespace Candypool.Chain
open Candypool.Prime Candypool.Core Candypool.Coins

section Pool
variable {D : Type} (env : CreateEnv D)

/-- The pool fits the tip: its transactions pass their check, are unknown to the tip, and spend
unspent outputs of the tip or outputs of the pool. -/
structure PoolFits : Prop where
  key : ∀ hash tx, env.pool.mapTx.lookup hash = some tx → env.cons.ext.txHash tx = hash
  checked : ∀ hash tx, env.pool.mapTx.lookup hash = some tx → tx.checkTransaction = .ok ()
  unknown : ∀ hash tx, env.pool.mapTx.lookup hash = some tx → getCoins env.pcoinsTip hash = none
  inputs : ∀ hash tx, env.pool.mapTx.lookup hash = some tx → ∀ txin ∈ tx.vin,
    available env.pcoinsTip txin.prevout = true ∨
      ∃ prev, env.pool.mapTx.lookup txin.prevout.hash = some prev ∧ txin.prevout.n < prev.vout.length

/-- A transaction of the pool that is no coinbase. -/
structure InPool (tx : CTransaction) : Prop where
  lookup : env.pool.mapTx.lookup (env.cons.ext.txHash tx) = some tx
  notCoinBase : tx.isCoinBase = false

/-- The orphans are there, and the pointers lead to them. -/
structure OrphansOk (vOrphan : List (Option (COrphan D))) (mapDependers : Uint256 → List ℕ) :
    Prop where
  present : ∀ entry ∈ vOrphan, ∃ orphan, entry = some orphan ∧ InPool env orphan.ptx
  pointers : ∀ hash, ∀ porphan ∈ mapDependers hash, porphan < vOrphan.length

def stillWaits (entry : Option (COrphan D)) : Bool :=
  entry.any fun orphan => decide (orphan.setDependsOn ≠ ∅)

/-- How many orphans still wait. -/
def waiting (vOrphan : List (Option (COrphan D))) : ℕ := vOrphan.countP stillWaits

end Pool

section Lists
variable {D : Type} {env : CreateEnv D} {vOrphan : List (Option (COrphan D))}
  {mapDependers : Uint256 → List ℕ}

theorem mem_inOrder {pool : CTxMemPool} {tx : CTransaction} (h : tx ∈ pool.inOrder) :
    ∃ hash, pool.mapTx.lookup hash = some tx := by
  obtain ⟨⟨hash,tx'⟩,hmem,rfl⟩ := List.mem_map.mp h
  have hentry := (List.perm_insertionSort _ _).mem_iff.mp hmem
  exact ⟨hash, AList.mem_lookup_iff.mpr hentry⟩

theorem length_inOrder (pool : CTxMemPool) : pool.inOrder.length = pool.mapTx.entries.length := by
  rw [CTxMemPool.inOrder, List.length_map, (List.perm_insertionSort _ _).length_eq]

theorem waiting_le (vOrphan : List (Option (COrphan D))) : waiting vOrphan ≤ vOrphan.length :=
  List.countP_le_length

/-- An orphan may be changed as long as its transaction stays. -/
theorem OrphansOk.modify (h : OrphansOk env vOrphan mapDependers) (porphan : ℕ)
    {f : Option (COrphan D) → Option (COrphan D)}
    (hf : ∀ orphan, ∃ orphan', f (some orphan) = some orphan' ∧ orphan'.ptx = orphan.ptx) :
    OrphansOk env (vOrphan.modify porphan f) mapDependers := by
  constructor
  · intro entry hmem
    obtain ⟨i,hi,rfl⟩ := List.mem_iff_getElem.mp hmem
    rw [List.length_modify] at hi
    obtain ⟨orphan,heq,hpool⟩ := h.present _ (List.getElem_mem hi)
    rw [List.getElem_modify, heq]
    split_ifs
    · obtain ⟨orphan',hmap,hptx⟩ := hf orphan
      refine ⟨orphan', hmap, ?_⟩
      rw [hptx]
      exact hpool
    · exact ⟨orphan, rfl, hpool⟩
  · intro hash porphan' hmem
    rw [List.length_modify]
    exact h.pointers hash porphan' hmem

theorem OrphansOk.append (h : OrphansOk env vOrphan mapDependers) {orphan : COrphan D}
    (hpool : InPool env orphan.ptx) : OrphansOk env (vOrphan ++ [some orphan]) mapDependers := by
  constructor
  · intro entry hmem
    rcases List.mem_append.mp hmem with hmem | hmem
    · exact h.present entry hmem
    · exact ⟨orphan, List.mem_singleton.mp hmem, hpool⟩
  · intro hash porphan hmem
    have hlt := h.pointers hash porphan hmem
    rw [List.length_append]
    omega

theorem OrphansOk.depend (h : OrphansOk env vOrphan mapDependers) (hash : Uint256) {porphan : ℕ}
    (hlt : porphan < vOrphan.length) :
    OrphansOk env vOrphan (Function.update mapDependers hash (mapDependers hash ++ [porphan])) := by
  refine ⟨h.present, fun hash' porphan' hmem => ?_⟩
  by_cases heq : hash' = hash
  · rw [heq, Function.update_self] at hmem
    rcases List.mem_append.mp hmem with hmem | hmem
    · exact h.pointers hash porphan' hmem
    · rw [List.mem_singleton.mp hmem]
      exact hlt
  · rw [Function.update_of_ne heq] at hmem
    exact h.pointers hash' porphan' hmem

end Lists

section Collect
variable {D : Type} {env : CreateEnv D}

/-- The loop over the inputs has missed none, and has made one orphan at most, the last one. -/
structure ScanOk (env : CreateEnv D) (n : ℕ) (s : InputScan D) : Prop where
  orphans : OrphansOk env s.vOrphan s.mapDependers
  place : (s.porphan = none ∧ s.vOrphan.length = n) ∨
    (s.porphan = some n ∧ s.vOrphan.length = n+1)
  complete : s.fMissingInputs = false

theorem waitFor_ok {n : ℕ} {s : InputScan D} (h : ScanOk env n s) {tx : CTransaction}
    (htx : InPool env tx) (hash : Uint256) : ScanOk env n (waitFor env tx hash s) := by
  rcases h.place with ⟨hnone,hlen⟩ | ⟨hsome,hlen⟩
  · have hnew : InPool env (COrphan.mk tx ∅ (env.dbl.ofInt 0) (env.dbl.ofInt 0)).ptx := htx
    have happend := h.orphans.append hnew
    simp only [waitFor, hnone, hlen, Option.getD_none]
    refine ⟨OrphansOk.depend ?_ hash ?_, Or.inr ⟨rfl, ?_⟩, h.complete⟩
    · exact happend.modify n fun orphan => ⟨_, rfl, rfl⟩
    · rw [List.length_modify, List.length_append, hlen]
      exact Nat.lt_succ_self n
    · rw [List.length_modify, List.length_append, hlen]
      rfl
  · simp only [waitFor, hsome, Option.getD_some]
    refine ⟨OrphansOk.depend ?_ hash ?_, Or.inr ⟨rfl, ?_⟩, h.complete⟩
    · exact h.orphans.modify n fun orphan => ⟨_, rfl, rfl⟩
    · rw [List.length_modify, hlen]
      exact Nat.lt_succ_self n
    · rw [List.length_modify]
      exact hlen

/-- The inputs of a pool that fits can all be read. -/
theorem scanInputs_ok (hfits : PoolFits env) {tx : CTransaction} (htx : InPool env tx) (nHeight : ℤ)
    {vin : List CTxIn} (hsub : vin ⊆ tx.vin) {n : ℕ} {s : InputScan D} (h : ScanOk env n s) :
    ∃ s', scanInputs env env.freshView nHeight tx vin s = .ok s' ∧ ScanOk env n s' := by
  induction vin generalizing s with
  | nil => exact ⟨s, rfl, h⟩
  | cons txin vin ih =>
    have hrest : vin ⊆ tx.vin := List.subset_of_cons_subset hsub
    have hentry : getCoins env.freshView txin.prevout.hash =
      getCoins env.pcoinsTip txin.prevout.hash := rfl
    rw [scanInputs, hentry]
    rcases hfits.inputs _ tx htx.lookup txin (hsub List.mem_cons_self) with havail | ⟨prev,hprev,hn⟩
    · -- an output of the tip
      rw [available, Option.any_eq_true] at havail
      obtain ⟨coins,hcoins,havail⟩ := havail
      obtain ⟨txout,hout,-⟩ := isAvailable_iff.mp havail
      rw [hcoins]
      dsimp only
      rw [hout]
      exact ih hrest ⟨h.orphans, h.place, h.complete⟩
    · -- an output of the pool
      rw [hfits.unknown _ prev hprev, hprev]
      dsimp only
      rw [List.getElem?_eq_getElem hn]
      have hwait := waitFor_ok h htx txin.prevout.hash
      exact ih hrest ⟨hwait.orphans, hwait.place, hwait.complete⟩

/-- What the first loop keeps. -/
structure CollectOk (env : CreateEnv D) (c : Collected D) : Prop where
  ready : ∀ top ∈ c.vecPriority, InPool env top.tx
  orphans : OrphansOk env c.vOrphan c.mapDependers

/-- How many transactions are queued or wait. -/
def Collected.count (c : Collected D) : ℕ := c.vecPriority.length+c.vOrphan.length

theorem enqueue_ok {c : Collected D} (h : CollectOk env c) {tx : CTransaction}
    (htx : InPool env tx) {scan : InputScan D} (hscan : ScanOk env c.vOrphan.length scan)
    (nValueOut : ℤ) : CollectOk env (enqueue env tx nValueOut c.vecPriority scan) ∧
      (enqueue env tx nValueOut c.vecPriority scan).count = c.count+1 := by
  rw [enqueue]
  rcases hscan.place with ⟨hnone,hlen⟩ | ⟨hsome,hlen⟩
  · simp only [hnone]
    refine ⟨⟨fun top hmem => ?_, hscan.orphans⟩, ?_⟩
    · rcases List.mem_append.mp hmem with hmem | hmem
      · exact h.ready top hmem
      · rw [List.mem_singleton.mp hmem]
        exact htx
    · rw [Collected.count, Collected.count, List.length_append, hlen, List.length_singleton]
      omega
  · simp only [hsome]
    refine ⟨⟨h.ready, hscan.orphans.modify _ fun orphan => ⟨_, rfl, rfl⟩⟩, ?_⟩
    rw [Collected.count, Collected.count, List.length_modify, hlen, add_assoc]

/-- A turn of the first loop queues one transaction or one orphan at most. -/
theorem collectTx_ok (hfits : PoolFits env) (nHeight : ℤ) {tx : CTransaction} {hash : Uint256}
    (hlookup : env.pool.mapTx.lookup hash = some tx) {c : Collected D} (h : CollectOk env c) :
    ∃ c', collectTx env env.freshView nHeight tx c = .ok c' ∧ CollectOk env c' ∧
      c'.count ≤ c.count+1 := by
  rw [collectTx]
  split_ifs with hskip
  · exact ⟨c, rfl, h, Nat.le_succ _⟩
  rw [Bool.or_eq_true, not_or, Bool.not_eq_true] at hskip
  have htx : InPool env tx := by
    refine ⟨?_, hskip.1⟩
    rw [hfits.key hash tx hlookup]
    exact hlookup
  have hbegin : ScanOk env c.vOrphan.length
      ⟨c.vOrphan, c.mapDependers, none, env.dbl.ofInt 0, 0, false⟩ :=
    ⟨h.orphans, Or.inl ⟨rfl, rfl⟩, rfl⟩
  obtain ⟨scan,hscan,hok⟩ := scanInputs_ok hfits htx nHeight (List.Subset.refl tx.vin) hbegin
  have hvalue := (checkTransaction_ok (hfits.checked hash tx hlookup)).total
  obtain ⟨hnext,hcount⟩ := enqueue_ok h htx hok (tx.vout.map CTxOut.nValue).sum
  rw [hscan, hvalue]
  refine ⟨_, if_neg ?_, hnext, hcount.le⟩
  rw [hok.complete]
  exact Bool.false_ne_true

theorem collectTxs_ok (hfits : PoolFits env) (nHeight : ℤ) {vtx : List CTransaction}
    (hlookup : ∀ tx ∈ vtx, ∃ hash, env.pool.mapTx.lookup hash = some tx) {c : Collected D}
    (h : CollectOk env c) : ∃ c', collectTxs env env.freshView nHeight vtx c = .ok c' ∧
      CollectOk env c' ∧ c'.count ≤ c.count+vtx.length := by
  induction vtx generalizing c with
  | nil => exact ⟨c, rfl, h, le_rfl⟩
  | cons tx vtx ih =>
    obtain ⟨hash,htx⟩ := hlookup tx List.mem_cons_self
    obtain ⟨c1,hfirst,h1,hcount1⟩ := collectTx_ok hfits nHeight htx h
    obtain ⟨c',hrest,h',hcount'⟩ := ih (fun tx' hmem => hlookup tx' (List.mem_cons_of_mem _ hmem)) h1
    rw [collectTxs, hfirst]
    refine ⟨c', hrest, h', ?_⟩
    rw [List.length_cons]
    omega

end Collect

section Release
variable {D : Type} {env : CreateEnv D}

/-- Taking one hash from the set of an orphan that waits leaves it waiting or not. -/
theorem waiting_set {vOrphan : List (Option (COrphan D))} {porphan : ℕ} {orphan : COrphan D}
    (orphan' : COrphan D) (hentry : vOrphan[porphan]? = some (some orphan)) (hwait : orphan.setDependsOn ≠ ∅) :
    waiting (vOrphan.set porphan (some orphan'))+(if orphan'.setDependsOn = ∅ then 1 else 0) =
      waiting vOrphan := by
  obtain ⟨hlt,hget⟩ := List.getElem?_eq_some_iff.mp hentry
  have hold : stillWaits (some orphan) = true := by simpa [stillWaits] using hwait
  have hpos : 0 < vOrphan.countP stillWaits :=
    List.countP_pos_iff.mpr ⟨some orphan, hget ▸ List.getElem_mem hlt, hold⟩
  rw [waiting, waiting, List.countP_set hlt, hget, if_pos hold]
  by_cases hempty : orphan'.setDependsOn = ∅
  · have hnew : stillWaits (some orphan') = false := by simpa [stillWaits] using hempty
    rw [hnew, if_neg Bool.false_ne_true, if_pos hempty]
    omega
  · have hnew : stillWaits (some orphan') = true := by simpa [stillWaits] using hempty
    rw [hnew, if_pos rfl, if_neg hempty]
    omega

/-- Releasing keeps the queue and the orphans, and queues no more than stop waiting. -/
theorem releaseOrphans_ok (byFee : Bool) (hash : Uint256) {mapDependers : Uint256 → List ℕ}
    {dependers : List ℕ} {vOrphan : List (Option (COrphan D))} {vecPriority : List (TxPriority D)}
    (hready : ∀ top ∈ vecPriority, InPool env top.tx)
    (horphans : OrphansOk env vOrphan mapDependers)
    (hdependers : ∀ porphan ∈ dependers, porphan < vOrphan.length) :
    ∃ vOrphan' vecPriority', releaseOrphans env byFee hash dependers vOrphan vecPriority =
        .ok (vOrphan',vecPriority') ∧
      (∀ top ∈ vecPriority', InPool env top.tx) ∧ OrphansOk env vOrphan' mapDependers ∧
      vecPriority'.length+waiting vOrphan' = vecPriority.length+waiting vOrphan := by
  induction dependers generalizing vOrphan vecPriority with
  | nil => exact ⟨vOrphan, vecPriority, rfl, hready, horphans, rfl⟩
  | cons porphan dependers ih =>
    have hlt := hdependers porphan List.mem_cons_self
    have hrest : ∀ porphan' ∈ dependers, porphan' < vOrphan.length := fun porphan' hmem =>
      hdependers porphan' (List.mem_cons_of_mem _ hmem)
    obtain ⟨orphan,horphan,hpool⟩ := horphans.present _ (List.getElem_mem hlt)
    have hentry : vOrphan[porphan]? = some (some orphan) := by
      rw [List.getElem?_eq_getElem hlt, horphan]
    rw [releaseOrphans, hentry]
    simp only [Option.join_some]
    by_cases hwait : orphan.setDependsOn = ∅
    · rw [if_pos hwait]
      exact ih hready horphans hrest
    rw [if_neg hwait]
    have hset : vOrphan.set porphan
        (some { orphan with setDependsOn := orphan.setDependsOn.erase hash }) =
        vOrphan.modify porphan (Option.map fun orphan =>
          { orphan with setDependsOn := orphan.setDependsOn.erase hash }) := by
      rw [List.modify_eq_set_getElem?, hentry]
      rfl
    have hcount := waiting_set { orphan with setDependsOn := orphan.setDependsOn.erase hash }
      hentry hwait
    have hkeep : OrphansOk env (vOrphan.set porphan
        (some { orphan with setDependsOn := orphan.setDependsOn.erase hash })) mapDependers := by
      rw [hset]
      exact horphans.modify porphan fun orphan => ⟨_, rfl, rfl⟩
    have hrest' : ∀ porphan' ∈ dependers, porphan' < (vOrphan.set porphan
        (some { orphan with setDependsOn := orphan.setDependsOn.erase hash })).length := by
      rw [List.length_set]
      exact hrest
    by_cases hempty : orphan.setDependsOn.erase hash = ∅
    · -- the last hash the orphan waited for
      rw [if_pos hempty] at hcount ⊢
      have hperm := env.heap.pushHeap_perm (env.comparer byFee)
        ⟨orphan.dPriority, orphan.dFeePerKb, orphan.ptx⟩ vecPriority
      obtain ⟨vOrphan',vecPriority',hrun,hready',horphans',hsum⟩ := ih (fun top hmem => by
        rcases List.mem_cons.mp (hperm.mem_iff.mp hmem) with rfl | hmem
        · exact hpool
        · exact hready top hmem) hkeep hrest'
      refine ⟨vOrphan', vecPriority', hrun, hready', horphans', ?_⟩
      rw [hsum, hperm.length_eq, List.length_cons, ← hcount]
      omega
    · rw [if_neg hempty] at hcount ⊢
      obtain ⟨vOrphan',vecPriority',hrun,hready',horphans',hsum⟩ := ih hready hkeep hrest'
      refine ⟨vOrphan', vecPriority', hrun, hready', horphans', ?_⟩
      rw [hsum, ← hcount, add_zero]

end Release

end Candypool.Chain
