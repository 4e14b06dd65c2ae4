import Candypool.Chain.CollectPool
import Candypool.Coins.Unspent

/-! The transactions a template takes in, one after the other: each passed its checks on the view that
the ones before it left. What follows from this alone is independent of the order in which the queue
offered them. -/
namespace Candypool.Chain
open Candypool.Prime Candypool.Core Candypool.Coins

section Built
variable {D : Type} (env : CreateEnv D)

/-- The coins of the tip and the transactions of the pool. -/
def CreateEnv.poolView : Utxo := env.pool.view (getCoins env.pcoinsTip)

/-- Input minus output value of a transaction of the pool. -/
def txFee (tx : CTransaction) : ℤ :=
  getValueIn env.poolView tx-(tx.vout.map CTxOut.nValue).sum

/-- The signature operations of a transaction, with those of the scripts its inputs stand for. -/
def txSigOps (tx : CTransaction) : ℕ :=
  tx.getLegacySigOpCount+getP2SHSigOpCount env.poolView tx

/-- The transactions of a template and the view they leave. -/
inductive Built (nHeight : ℕ) : List CTransaction → CCoinsViewCache → Prop
  | start : Built nHeight [] env.freshView
  | add {vtx : List CTransaction} {view view' : CCoinsViewCache} {tx : CTransaction}
      {txundo : CTxUndo} {vChecks : List CScriptCheck} (rest : Built nHeight vtx view)
      (inPool : InPool env tx) (inputs : haveInputs view tx = true)
      (checks : checkInputs env.cons.ext env.cons.fees view tx ((nHeight : ℤ)+1) true
        ⟨true, false, false⟩ false = .ok vChecks)
      (update : updateCoins view tx (nHeight+1) (env.cons.ext.txHash tx) = some (view',txundo)) :
      Built nHeight (vtx ++ [tx]) view'

/-- The pool transactions that a transaction spends from are among those before it. -/
def ParentsFirst (vtx : List CTransaction) : Prop :=
  ∀ before tx after, vtx = before ++ tx :: after → ∀ out ∈ tx.vin.map CTxIn.prevout,
    (env.pool.mapTx.lookup out.hash).isSome = true → out.hash ∈ before.map env.cons.ext.txHash

/-- What the transactions of a template and their view have in common. -/
structure BuiltOk (vtx : List CTransaction) (view : CCoinsViewCache) : Prop where
  inPool : ∀ tx ∈ vtx, InPool env tx
  nodup : (vtx.map env.cons.ext.txHash).Nodup
  parents : ParentsFirst env vtx
  within : Within view env.poolView
  absent : ∀ out, (env.pool.mapTx.lookup out.hash).isSome = true →
    out.hash ∉ vtx.map env.cons.ext.txHash → unspentAt view out = none
  spent : ∀ tx ∈ vtx, ∀ out ∈ tx.vin.map CTxIn.prevout, unspentAt view out = none

end Built

section Steps
variable {D : Type} {env : CreateEnv D} {nHeight : ℕ} {vtx : List CTransaction}
  {view view' : CCoinsViewCache} {tx : CTransaction} {txundo : CTxUndo}

theorem InPool.checked (hfits : PoolFits env) (h : InPool env tx) : tx.Checked :=
  checkTransaction_ok (hfits.checked _ tx h.lookup)

theorem InPool.isSome (h : InPool env tx) :
    (env.pool.mapTx.lookup (env.cons.ext.txHash tx)).isSome = true := by
  rw [h.lookup]
  rfl

theorem unspentAt_freshView (out : COutPoint) : unspentAt env.freshView out = unspentAt env.pcoinsTip out :=
  unspentAt_congr rfl

theorem poolView_of_tip {hash : Uint256} {coins : CCoins}
    (h : getCoins env.pcoinsTip hash = some coins) : env.poolView hash = some coins := by
  rw [CreateEnv.poolView, CTxMemPool.view, h]
  rfl

theorem poolView_of_pool (hfits : PoolFits env) {hash : Uint256}
    (h : env.pool.mapTx.lookup hash = some tx) :
    env.poolView hash = some (CCoins.ofTx tx mempoolHeight) := by
  rw [CreateEnv.poolView, CTxMemPool.view, hfits.unknown hash tx h, h]
  rfl

theorem freshView_within : Within env.freshView env.poolView := by
  intro out txout hout
  rw [unspentAt_freshView] at hout
  obtain ⟨houtput,hnull⟩ := unspentAt_eq_some.mp hout
  obtain ⟨coins,hcoins,hn⟩ := Option.bind_eq_some_iff.mp houtput
  rw [unspentAt_eq_some, getOutputFor, utxo_getCoins, poolView_of_tip hcoins]
  exact ⟨hn, hnull⟩

/-- A transaction that spends what is there was not taken in before, for its inputs would be
spent. -/
theorem BuiltOk.fresh (hfits : PoolFits env) (h : BuiltOk env vtx view) (htx : InPool env tx)
    (hin : haveInputs view tx = true) : env.cons.ext.txHash tx ∉ vtx.map env.cons.ext.txHash := by
  intro hmem
  obtain ⟨tx',hmem',hhash⟩ := List.mem_map.mp hmem
  have hlookup := (h.inPool tx' hmem').lookup
  rw [hhash, htx.lookup] at hlookup
  obtain rfl : tx = tx' := Option.some.inj hlookup
  obtain ⟨txin,htxin⟩ := List.exists_mem_of_ne_nil tx.vin (htx.checked hfits).vin_ne
  have hout : txin.prevout ∈ tx.vin.map CTxIn.prevout := List.mem_map_of_mem htxin
  have hsome := (haveInputs_iff htx.notCoinBase).mp hin txin.prevout hout
  rw [h.spent tx hmem' txin.prevout hout] at hsome
  cases hsome

/-- The inputs of the next transaction are no outputs of its own. -/
theorem BuiltOk.spends_other (hfits : PoolFits env) (h : BuiltOk env vtx view) (htx : InPool env tx)
    (hin : haveInputs view tx = true) {out : COutPoint} (hout : out ∈ tx.vin.map CTxIn.prevout) :
    out.hash ≠ env.cons.ext.txHash tx := by
  intro heq
  have hsome := (haveInputs_iff htx.notCoinBase).mp hin out hout
  have hnone := h.absent out (by rw [heq]; exact htx.isSome) (by
    rw [heq]
    exact h.fresh hfits htx hin)
  rw [hnone] at hsome
  cases hsome

theorem ParentsFirst.append (h : ParentsFirst env vtx)
    (hlast : ∀ out ∈ tx.vin.map CTxIn.prevout, (env.pool.mapTx.lookup out.hash).isSome = true →
      out.hash ∈ vtx.map env.cons.ext.txHash) : ParentsFirst env (vtx ++ [tx]) := by
  intro before tx' after hsplit
  rcases List.eq_nil_or_concat after with rfl | ⟨after',last,rfl⟩
  · -- the transaction that was added
    obtain ⟨rfl,heq⟩ := List.append_inj' hsplit rfl
    rw [← List.head_eq_of_cons_eq heq]
    exact hlast
  · rw [List.concat_eq_append, ← List.cons_append, ← List.append_assoc] at hsplit
    obtain ⟨hinit,-⟩ := List.append_inj' hsplit rfl
    exact h before tx' after' hinit

/-- One more transaction. -/
theorem BuiltOk.add (hfits : PoolFits env) (h : BuiltOk env vtx view) (htx : InPool env tx)
    (hin : haveInputs view tx = true)
    (hu : updateCoins view tx (nHeight+1) (env.cons.ext.txHash tx) = some (view',txundo)) :
    BuiltOk env (vtx ++ [tx]) view' := by
  have hfresh := h.fresh hfits htx hin
  have hother : ∀ out ∈ tx.vin.map CTxIn.prevout, out.hash ≠ env.cons.ext.txHash tx :=
    fun out hout => h.spends_other hfits htx hin hout
  have hnext := unspentAt_updateCoins htx.notCoinBase hu
  have hhave := (haveInputs_iff htx.notCoinBase).mp hin
  refine ⟨?_, ?_, ?_, ?_, ?_, ?_⟩
  · -- the transactions are of the pool
    intro tx' hmem
    rcases List.mem_append.mp hmem with hmem | hmem
    · exact h.inPool tx' hmem
    · rw [List.mem_singleton.mp hmem]
      exact htx
  · rw [List.map_append, List.nodup_append]
    refine ⟨h.nodup, List.nodup_singleton _, fun hash hmem hash' hmem' => ?_⟩
    rw [List.mem_singleton.mp hmem']
    intro heq
    exact hfresh (heq ▸ hmem)
  · apply h.parents.append
    intro out hout hpool
    by_contra hnot
    have hsome := hhave out hout
    rw [h.absent out hpool hnot] at hsome
    cases hsome
  · -- what is unspent comes from the tip or from the pool
    intro out txout hout
    rw [hnext] at hout
    split_ifs at hout with hself
    · rw [unspentAt, getOutputFor, utxo_getCoins, hself, poolView_of_pool hfits htx.lookup]
      exact hout
    · exact h.within out txout hout
  · intro out hpool hnot
    rw [List.map_append, List.mem_append, not_or] at hnot
    have hne : out.hash ≠ env.cons.ext.txHash tx := fun heq => hnot.2 (List.mem_singleton.mpr heq)
    rw [hnext, if_neg hne, h.absent out hpool hnot.1, ite_self]
  · intro tx' hmem out hout
    rw [hnext]
    rcases List.mem_append.mp hmem with hmem | hmem
    · -- a spent output cannot come back: it would be one of the new transaction
      have hne : out.hash ≠ env.cons.ext.txHash tx := by
        intro heq
        obtain ⟨before,after,rfl⟩ := List.append_of_mem hmem
        have hparent := h.parents before tx' after rfl out hout (by rw [heq]; exact htx.isSome)
        apply hfresh
        rw [List.map_append, List.mem_append]
        exact Or.inl (heq ▸ hparent)
      rw [if_neg hne, h.spent tx' hmem out hout, ite_self]
    · rw [List.mem_singleton.mp hmem] at hout
      rw [if_neg (hother out hout), if_pos hout]

theorem Built.ok (hfits : PoolFits env) (h : Built env nHeight vtx view) : BuiltOk env vtx view := by
  induction h with
  | start =>
    refine ⟨?_, List.nodup_nil, ?_, freshView_within, ?_, ?_⟩
    · intro tx hmem
      cases hmem
    · intro before tx after hsplit
      exact absurd hsplit (by simp)
    · intro out hpool _
      obtain ⟨tx,hlookup⟩ := Option.isSome_iff_exists.mp hpool
      rw [unspentAt_freshView, unspentAt, getOutputFor, hfits.unknown out.hash tx hlookup]
      rfl
    · intro tx hmem
      cases hmem
  | add rest inPool inputs checks update ih => exact ih.add hfits inPool inputs update

/-- The fee and the sigops the view shows are those of the pool. -/
theorem Built.values (hfits : PoolFits env) (h : Built env nHeight vtx view) (htx : InPool env tx)
    (hin : haveInputs view tx = true) :
    getValueIn view tx-(tx.vout.map CTxOut.nValue).sum = txFee env tx ∧
      tx.getLegacySigOpCount+getP2SHSigOpCount view tx = txSigOps env tx := by
  have hwithin := (h.ok hfits).within
  rw [txFee, txSigOps, hwithin.getValueIn htx.notCoinBase hin,
    hwithin.getP2SHSigOpCount htx.notCoinBase hin]
  exact ⟨rfl, rfl⟩

end Steps

end Candypool.Chain
