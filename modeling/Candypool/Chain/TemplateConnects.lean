import Candypool.Chain.AssembleBlock

/-! The loop of `ConnectBlock` over a template. Its view has the outputs of the coinbase besides what
the view of the template has, which none of the other transactions sees. -/
namespace Candypool.Chain
open Candypool.Prime Candypool.Core Candypool.Coins

/-- Verifying a script gives the same answer with the signature cache and without. -/
def IgnoresCache (ext : Externals) : Prop :=
  ∀ scriptSig scriptPubKey tx n (flags : ScriptFlags),
    ext.verifyScript scriptSig scriptPubKey tx n { flags with noCache := true } =
      ext.verifyScript scriptSig scriptPubKey tx n { flags with noCache := false }

section Inputs
variable {V : Type} [CoinStore V] {ext : Externals} {fees : FeeParams} {view : V} {tx : CTransaction}
  {nSpendHeight : ℤ}

theorem runChecks_ok {checks : List CScriptCheck} (h : runChecks ext checks = .ok ()) :
    checks.all (CScriptCheck.run ext) = true := by
  induction checks with
  | nil => rfl
  | cons check checks ih =>
    rw [runChecks] at h
    split_ifs at h with hrun
    rw [List.all_cons, hrun, ih h]
    rfl

theorem runChecks_of_all {checks : List CScriptCheck}
    (h : checks.all (CScriptCheck.run ext) = true) : runChecks ext checks = .ok () := by
  induction checks with
  | nil => rfl
  | cons check checks ih =>
    rw [List.all_cons, Bool.and_eq_true] at h
    rw [runChecks, if_pos h.1, ih h.2]

theorem scriptChecksOf_noCache (hcache : IgnoresCache ext) (view : V) (tx : CTransaction)
    (flags : ScriptFlags) :
    (scriptChecksOf view tx { flags with noCache := true }).all (CScriptCheck.run ext) =
      (scriptChecksOf view tx { flags with noCache := false }).all (CScriptCheck.run ext) := by
  rw [scriptChecksOf, scriptChecksOf, List.all_map, List.all_map]
  congr 1
  ext1 ⟨txin,i⟩
  simp only [Function.comp_apply, CScriptCheck.run]
  cases tx.vin[i]? with
  | none => rfl
  | some txin' => exact hcache _ _ _ _ _

/-- The sum the checks add up is that of `GetValueIn`. -/
theorem checkInputValues_ok {vin : List CTxIn} {nValueIn total : ℤ}
    (hhave : ∀ txin ∈ vin, (unspentAt view txin.prevout).isSome = true)
    (h : checkInputValues view nSpendHeight vin nValueIn = .ok total) :
    total = nValueIn+(vin.map fun txin =>
      ((getOutputFor view txin.prevout).map CTxOut.nValue).getD 0).sum := by
  induction vin generalizing nValueIn with
  | nil =>
    rw [checkInputValues, Except.ok.injEq] at h
    rw [List.map_nil, List.sum_nil, add_zero, h]
  | cons txin vin ih =>
    obtain ⟨txout,hout⟩ := Option.isSome_iff_exists.mp (hhave txin List.mem_cons_self)
    have houtput := (unspentAt_eq_some.mp hout).1
    obtain ⟨coins,hcoins,hn⟩ := Option.bind_eq_some_iff.mp houtput
    rw [checkInputValues, hcoins] at h
    dsimp only at h
    split_ifs at h
    rw [List.getD_eq_getElem?_getD, hn, Option.getD_some] at h
    have htail := ih (fun txin' hmem => hhave txin' (List.mem_cons_of_mem _ hmem)) h
    rw [htail, List.map_cons, List.sum_cons, houtput, Option.map_some, Option.getD_some]
    ring

/-- Inputs that pass with the signature cache pass without it, whether their scripts are run at once,
later or not at all, and the fee is not negative. -/
theorem checkInputs_again (hcache : IgnoresCache ext) (hc : tx.Checked) (hcb : tx.isCoinBase = false)
    {vChecks : List CScriptCheck} (h : checkInputs ext fees view tx nSpendHeight true
      ⟨true, false, false⟩ false = .ok vChecks) (fScriptChecks fQueue : Bool) :
    (∃ vChecks', checkInputs ext fees view tx nSpendHeight fScriptChecks ⟨true, false, true⟩ fQueue =
        .ok vChecks' ∧ vChecks'.all (CScriptCheck.run ext) = true) ∧
      0 ≤ getValueIn view tx-(tx.vout.map CTxOut.nValue).sum := by
  have hin : haveInputs view tx = true := by
    by_contra hnot
    rw [Bool.not_eq_true] at hnot
    rw [checkInputs, hcb, if_neg Bool.false_ne_true, hnot, Bool.not_false, if_pos rfl] at h
    cases h
  have hhave := (haveInputs_iff hcb).mp hin
  rw [checkInputs] at h ⊢
  rw [hcb, if_neg Bool.false_ne_true, hin, Bool.not_true, if_neg Bool.false_ne_true] at h ⊢
  -- the sums over the inputs do not depend on the flags
  cases hvalues : checkInputValues view nSpendHeight tx.vin 0 with
  | error e =>
    rw [hvalues] at h
    cases h
  | ok nValueIn =>
    have hsum := checkInputValues_ok
      (fun txin hmem => hhave txin.prevout (List.mem_map_of_mem hmem)) hvalues
    have hvaluein : getValueIn view tx = nValueIn := by
      rw [getValueIn, hcb, if_neg Bool.false_ne_true, hsum, zero_add]
    rw [hvalues, hc.total] at h
    rw [hc.total, hvaluein]
    simp only [Bool.false_eq_true, if_false] at h ⊢
    split_ifs at h with hbelow hneg hmin hrange
    -- scripts that pass with the cache of signatures pass without it
    have hall : (scriptChecksOf view tx ⟨true, false, false⟩).all (CScriptCheck.run ext) = true := by
      apply runChecks_ok
      cases hrun : runChecks ext (scriptChecksOf view tx ⟨true, false, false⟩) with
      | error e =>
        rw [hrun] at h
        cases h
      | ok u => rfl
    have hagain : (scriptChecksOf view tx ⟨true, false, true⟩).all (CScriptCheck.run ext) = true :=
      (scriptChecksOf_noCache hcache view tx ⟨true, false, false⟩).trans hall
    rw [if_neg hbelow, if_neg hneg, if_neg hmin, if_neg hrange]
    refine ⟨?_, not_lt.mp hneg⟩
    cases fScriptChecks with
    | false => exact ⟨[], rfl, rfl⟩
    | true =>
      cases fQueue with
      | true => exact ⟨_, rfl, hagain⟩
      | false =>
        refine ⟨[], ?_, rfl⟩
        rw [runChecks_of_all hagain]
        rfl

end Inputs

section Connect
variable {V : Type} [CCoinsView V] {cons : Consensus}

theorem connectTxs_append {env : LoopEnv} {vtx : List CTransaction} {tx : CTransaction}
    {s s1 s2 : BlockLoop V} (h1 : connectTxs cons env vtx s = (none,s1))
    (h2 : connectTx cons env tx s1 = (none,s2)) :
    connectTxs cons env (vtx ++ [tx]) s = (none,s2) := by
  induction vtx generalizing s with
  | nil =>
    obtain rfl : s = s1 := (Prod.mk.inj h1).2
    rw [List.nil_append, connectTxs, h2]
    rfl
  | cons tx' vtx ih =>
    rw [connectTxs] at h1
    rw [List.cons_append, connectTxs]
    generalize connectTx cons env tx' s = r at h1 ⊢
    obtain ⟨e,s'⟩ := r
    cases e with
    | some e => cases h1
    | none => exact ih h1

/-- The loop of `ConnectBlock` has gone on: the state belongs to a view with one entry more, and its
counters are those of `vtx`. -/
structure LoopAt (cons : Consensus) (txid : Uint256) (coins : CCoins) (view : V) (nFees : ℤ)
    (nSigOps : ℕ) (s : BlockLoop V) : Prop where
  beside : Beside txid coins view s.view
  fees : s.nFees = nFees
  sigOps : s.nSigOps = nSigOps
  checks : s.checks.all (CScriptCheck.run cons.ext) = true

/-- The values of the loop that a template was made for. -/
structure TemplateEnv (nHeight : ℕ) (env : LoopEnv) : Prop where
  height : env.nHeight = nHeight+1
  spendHeight : env.nSpendHeight = (nHeight : ℤ)+1
  strict : env.fStrictPayToScriptHash = true
  flags : env.flags = ⟨true, false, true⟩

/-- One transaction of a template in the loop of `ConnectBlock`. -/
theorem connectTx_template (hcache : IgnoresCache cons.ext) {nHeight : ℕ} {env : LoopEnv}
    (henv : TemplateEnv nHeight env) {tx : CTransaction} (hc : tx.Checked)
    (hcb : tx.isCoinBase = false) {txid : Uint256} {coins : CCoins} {view view' : V} {nFees : ℤ}
    {nSigOps : ℕ} {s : BlockLoop V} (hat : LoopAt cons txid coins view nFees nSigOps s)
    (hne : ∀ txin ∈ tx.vin, txin.prevout.hash ≠ txid) (hhash : cons.ext.txHash tx ≠ txid)
    (hin : haveInputs view tx = true) {vChecks : List CScriptCheck}
    (hchecks : checkInputs cons.ext cons.fees view tx ((nHeight : ℤ)+1) true ⟨true, false, false⟩
      false = .ok vChecks) {txundo : CTxUndo}
    (hu : updateCoins view tx (nHeight+1) (cons.ext.txHash tx) = some (view',txundo))
    (hlimit : nSigOps+(tx.getLegacySigOpCount+getP2SHSigOpCount view tx) ≤ maxBlockSigOps) :
    ∃ s', connectTx cons env tx s = (none,s') ∧ LoopAt cons txid coins view'
      (nFees+(getValueIn view tx-(tx.vout.map CTxOut.nValue).sum))
      (nSigOps+(tx.getLegacySigOpCount+getP2SHSigOpCount view tx)) s' := by
  have hsame := hat.beside.sameInputs hne
  obtain ⟨view1,hu1,hbeside1⟩ := hat.beside.updateCoins hcb hne hhash hu
  obtain ⟨⟨vChecks',hagain,hall⟩,-⟩ := checkInputs_again hcache hc hcb hchecks env.fScriptChecks
    cons.fScriptCheckThreads
  rw [connectTx]
  dsimp only
  rw [hat.sigOps, if_neg (by omega), hcb, if_neg Bool.false_ne_true, haveInputs_visible hsame, hin,
    Bool.not_true, if_neg Bool.false_ne_true, henv.strict]
  simp only [if_true]
  rw [getP2SHSigOpCount_visible hsame hin hcb, getValueIn_visible hsame hin hcb,
    checkInputs_visible cons.ext cons.fees hsame, henv.spendHeight, henv.flags, hagain, hc.total,
    if_neg (by omega)]
  dsimp only
  rw [updateStep, henv.height, hu1]
  refine ⟨_, rfl, hbeside1, ?_, ?_, ?_⟩
  · rw [← hat.fees]
  · rw [add_assoc]
  · rw [List.all_append, hat.checks, hall]
    rfl

end Connect

section Template
variable {D : Type} {env : CreateEnv D} {nHeight : ℕ} {vtx : List CTransaction}
  {view : CCoinsViewCache}

/-- A transaction id that neither the tip nor the pool has. -/
structure Foreign (env : CreateEnv D) (txid : Uint256) : Prop where
  tip : live (getCoins env.pcoinsTip txid) = none
  pool : env.pool.mapTx.lookup txid = none

theorem Foreign.unspentAt_poolView {txid : Uint256} (h : Foreign env txid) {out : COutPoint}
    (hout : out.hash = txid) : unspentAt env.poolView out = none := by
  rw [← Option.isNone_iff_eq_none, ← Option.not_isSome, unspentAt_isSome, available, any_isAvailable,
    utxo_getCoins, hout, CreateEnv.poolView, CTxMemPool.view, h.pool, Option.map_none, Option.or_none,
    visible, h.tip]
  rfl

/-- What is built is spent from the tip and the pool only. -/
theorem BuiltOk.inputs_ne (h : BuiltOk env vtx view) {tx : CTransaction}
    (hcb : tx.isCoinBase = false) (hin : haveInputs view tx = true) {txid : Uint256}
    (hforeign : Foreign env txid) {txin : CTxIn} (hmem : txin ∈ tx.vin) :
    txin.prevout.hash ≠ txid := by
  intro heq
  have hsome := (haveInputs_iff hcb).mp hin txin.prevout (List.mem_map_of_mem hmem)
  obtain ⟨txout,hout⟩ := Option.isSome_iff_exists.mp hsome
  have hpool := h.within _ _ hout
  rw [hforeign.unspentAt_poolView heq] at hpool
  cases hpool

/-- The loop of `ConnectBlock` takes every transaction of a template that stays below the limit of
signature operations. -/
theorem Built.connects (hfits : PoolFits env) (hcache : IgnoresCache env.cons.ext)
    (h : Built env nHeight vtx view) {lenv : LoopEnv} (henv : TemplateEnv nHeight lenv)
    {txid : Uint256} (hforeign : Foreign env txid) {coins : CCoins} {nFees : ℤ} {nSigOps : ℕ}
    {s : BlockLoop CCoinsViewCache} (hat : LoopAt env.cons txid coins env.freshView nFees nSigOps s)
    (hlimit : nSigOps+(vtx.map (txSigOps env)).sum ≤ maxBlockSigOps) :
    ∃ s', connectTxs env.cons lenv vtx s = (none,s') ∧ LoopAt env.cons txid coins view
      (nFees+(vtx.map (txFee env)).sum) (nSigOps+(vtx.map (txSigOps env)).sum) s' := by
  induction h with
  | start => exact ⟨s, rfl, by simpa using hat⟩
  | @add vtx view view' tx txundo vChecks rest inPool inputs checks update ih =>
    rw [List.map_append, List.sum_append, List.map_singleton, List.sum_singleton, ← add_assoc] at hlimit
    obtain ⟨s1,hrun,hat1⟩ := ih (by omega)
    obtain ⟨hfee,hsig⟩ := rest.values hfits inPool inputs
    have hhash : env.cons.ext.txHash tx ≠ txid := by
      intro heq
      have hlookup := inPool.lookup
      rw [heq, hforeign.pool] at hlookup
      cases hlookup
    rw [← hsig] at hlimit
    obtain ⟨s2,hstep,hat2⟩ := connectTx_template hcache henv (inPool.checked hfits)
      inPool.notCoinBase hat1
      (fun txin hmem => (rest.ok hfits).inputs_ne inPool.notCoinBase inputs hforeign hmem) hhash
      inputs checks update hlimit
    refine ⟨s2, connectTxs_append hrun hstep, ?_⟩
    rw [hfee, hsig, add_assoc, add_assoc] at hat2
    rw [List.map_append, List.sum_append, List.map_append, List.sum_append, List.map_singleton,
      List.sum_singleton, List.map_singleton, List.sum_singleton]
    exact hat2

/-- No transaction of a template has a negative fee. -/
theorem Built.fee_nonneg (hfits : PoolFits env) (hcache : IgnoresCache env.cons.ext)
    (h : Built env nHeight vtx view) {tx : CTransaction} (hmem : tx ∈ vtx) : 0 ≤ txFee env tx := by
  induction h with
  | start => cases hmem
  | add rest inPool inputs checks update ih =>
    rcases List.mem_append.mp hmem with hmem | hmem
    · exact ih hmem
    · rw [List.mem_singleton.mp hmem, ← (rest.values hfits inPool inputs).1]
      exact (checkInputs_again hcache (inPool.checked hfits) inPool.notCoinBase checks true true).2

end Template

end Candypool.Chain
