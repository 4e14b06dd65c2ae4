import Candypool.Chain.TemplateCheck

/-! `CreateNewBlock` yields a template that `ConnectBlock` accepts. -/
namespace Candypool.Chain
open Candypool.Prime Candypool.Core Candypool.Coins Candypool.Script

/-- The interpreter never looks at the flag. -/
theorem uncached_ignoresCache (sig : SigEnv) (env : EvalEnv) (ext : Externals) :
    IgnoresCache (Externals.uncached sig env ext) := by
  intro scriptSig scriptPubKey tx n flags
  have hsame := verifyScript_noCache sig env ⟨tx, n, { flags with noCache := false }, 0⟩ true
    scriptSig scriptPubKey
  exact congrArg (fun m : EvalM Bool => (m.run.run 0).1.toOption.getD false) hsame

section Connect
variable {D : Type} {env : CreateEnv D} {nHeight : ℕ} {vtx : List CTransaction}
  {view : CCoinsViewCache} {vchPubKey : List UInt8}

/-- Writing the coinbase is the first turn of the loop of `ConnectBlock`. -/
theorem connectTx_coinbase (env : CreateEnv D) (hkey : ValidKey vchPubKey) {nValue : ℤ} (hrange : moneyRange nValue = true)
    (lenv : LoopEnv) : ∃ coins s, connectTx env.cons lenv (coinbaseTx vchPubKey nValue)
        ⟨env.freshView, [], 0, 0, 0, 0, []⟩ = (none,s) ∧
      LoopAt env.cons (env.cons.ext.txHash (coinbaseTx vchPubKey nValue)) coins env.freshView 0 1 s := by
  have hlimit : ¬ 0+1 > maxBlockSigOps := by decide
  have hcb : (coinbaseTx vchPubKey nValue).isCoinBase = true := rfl
  refine ⟨CCoins.ofTx (coinbaseTx vchPubKey nValue) lenv.nHeight,
    ⟨setCoins env.freshView (env.cons.ext.txHash (coinbaseTx vchPubKey nValue))
      (CCoins.ofTx (coinbaseTx vchPubKey nValue) lenv.nHeight), [], 0, 0, 0+nValue, 0+1, []⟩, ?_, ?_⟩
  · rw [connectTx]
    dsimp only
    rw [coinbase_sigOps hkey, if_neg hlimit, hcb, if_pos rfl, coinbase_valueOut hrange]
    dsimp only
    rw [updateStep]
    simp only [updateCoins, markSpent, hcb, if_true, Option.bind_eq_bind, Option.bind_some,
      Option.pure_def]
  · exact ⟨getCoins_setCoins _ _ _, rfl, rfl, rfl⟩

/-- `ConnectBlock` accepts a template as a check. -/
theorem connectBlock_template (hfits : PoolFits env) (hcache : IgnoresCache env.cons.ext)
    (hfees : env.cons.fees.nMinTxFee = minTxFee) (hbuilt : Built env nHeight vtx view)
    (hkey : ValidKey vchPubKey) {pindexPrev : CBlockIndex} (hprev : pindexPrev.nHeight = nHeight)
    (hindex : env.mapBlockIndex env.pindexBest = some pindexPrev)
    (hbest : getBestBlock env.pcoinsTip = some env.pindexBest)
    (hclock : 1368576000 ≤ env.nAdjustedTime) (hlate : env.nAdjustedTime+7200 < 2^32)
    (hmedian : getMedianTimePast env.mapBlockIndex env.pindexBest < env.nAdjustedTime+7200)
    {nBits : BitVec 32} {nValue : ℤ}
    (hvalue : nValue = getBlockValue env.cons.target nBits (vtx.map (txFee env)).sum)
    (hrange : moneyRange nValue = true)
    (hforeign : Foreign env (env.cons.ext.txHash (coinbaseTx vchPubKey nValue)))
    (hsig : (vtx.map (txSigOps env)).sum+1 ≤ maxBlockSigOps) {block : CBlock}
    (hblock : block = newBlock env nBits (coinbaseTx vchPubKey nValue :: vtx))
    (hchecked : block.checkBlock env.cons.ext env.nAdjustedTime false = .ok ()) (ptr : BlockPtr) :
    (connectBlock env.cons ⟨env.nAdjustedTime, true, true, true, true, true⟩ env.mapBlockIndex block ptr
      (indexDummy env block nHeight) env.freshView true).error = none := by
  have hfresh : getBestBlock env.freshView = some env.pindexBest := hbest
  have hvtx : block.vtx = coinbaseTx vchPubKey nValue :: vtx := by
    rw [hblock]
    rfl
  have hbits : block.nBits = nBits := by
    rw [hblock]
    rfl
  have htime : block.nTime = updatedTime env := by
    rw [hblock]
    rfl
  have hpool := (hbuilt.ok hfits).inPool
  -- the ids of the template are unknown to the tip
  have hbip30 : block.vtx.any (fun tx => (getCoins env.freshView (env.cons.ext.txHash tx)).any
      fun coins => !coins.isPruned) = false := by
    rw [hvtx, List.any_eq_false]
    intro tx hmem
    rw [← visible_isSome, visible]
    have hlive : live (getCoins env.freshView (env.cons.ext.txHash tx)) = none := by
      change live (getCoins env.pcoinsTip (env.cons.ext.txHash tx)) = none
      rcases List.mem_cons.mp hmem with rfl | hmem
      · exact hforeign.tip
      · rw [hfits.unknown _ tx (hpool tx hmem).lookup]
        rfl
    rw [hlive]
    exact Bool.false_ne_true
  have hstrict : decide (block.nTime ≥ nBIP16SwitchTime) = true := by
    have hbound := (updatedTime_eq hmedian (by omega) hlate).1
    rw [decide_eq_true_eq, htime, nBIP16SwitchTime]
    omega
  obtain ⟨coins,s0,hfirst,hat0⟩ := connectTx_coinbase env hkey hrange
    ⟨nHeight+1, pindexPrev.nHeight+1, decide (nHeight+1 ≥ env.cons.nTotalBlocksEstimate), true,
      ⟨true, false, true⟩⟩
  have henv : TemplateEnv nHeight ⟨nHeight+1, pindexPrev.nHeight+1,
      decide (nHeight+1 ≥ env.cons.nTotalBlocksEstimate), true, ⟨true, false, true⟩⟩ :=
    ⟨rfl, by rw [hprev], rfl, rfl⟩
  obtain ⟨s,hrun,hat⟩ := hbuilt.connects hfits hcache henv hforeign hat0 (by omega)
  rw [zero_add] at hat
  have hloop : connectTxs env.cons ⟨nHeight+1, pindexPrev.nHeight+1,
      decide (nHeight+1 ≥ env.cons.nTotalBlocksEstimate), true, ⟨true, false, true⟩⟩ block.vtx
      ⟨env.freshView, [], 0, 0, 0, 0, []⟩ = (none,s) := by
    rw [hvtx, connectTxs, hfirst]
    exact hrun
  have hpays : ¬ (coinbaseTx vchPubKey nValue).getValueOut.getD 0 >
      getBlockValue env.cons.target block.nBits s.nFees-
        (coinbaseTx vchPubKey nValue).getMinFee env.cons.fees 1 false .block+minTxFee := by
    rw [coinbase_valueOut hrange, Option.getD_some, hat.fees, hbits, coinbase_minFee hkey hfees, hvalue]
    omega
  rw [connectBlock]
  dsimp only
  rw [Bool.not_true, hchecked]
  dsimp only
  rw [if_neg (by rw [hfresh]; exact not_not.mpr rfl)]
  by_cases hgenesis : block.getHash env.cons.ext = env.cons.hashGenesisBlock
  · rw [if_pos hgenesis]
  rw [if_neg hgenesis, hbip30, Bool.and_false, if_neg Bool.false_ne_true]
  have hparent : (indexDummy env block nHeight).pprev.bind env.mapBlockIndex = some pindexPrev := hindex
  have hdummy : (indexDummy env block nHeight).nTime = block.nTime := rfl
  have hheight : (indexDummy env block nHeight).nHeight = nHeight+1 := rfl
  have hnBits : (indexDummy env block nHeight).nBits = block.nBits := rfl
  rw [hparent, hdummy, hstrict, hheight]
  dsimp only
  rw [hloop, hvtx]
  simp only [Bool.false_and, Bool.false_eq_true, if_false, if_true, List.head?_cons]
  rw [hnBits, if_neg hpays, hat.checks]
  rfl

/-- The fees of the transactions of the pool, as far as they are not negative. -/
def poolFees (env : CreateEnv D) : ℤ :=
  (env.pool.mapTx.entries.map fun entry => max 0 (txFee env entry.2)).sum

/-- A template collects no more fees than the pool has. -/
theorem BuiltOk.fees_le (h : BuiltOk env vtx view) : (vtx.map (txFee env)).sum ≤ poolFees env := by
  have hsub : vtx ⊆ env.pool.mapTx.entries.map Sigma.snd := by
    intro tx hmem
    have hentry := AList.mem_lookup_iff.mp (h.inPool tx hmem).lookup
    exact List.mem_map_of_mem (f := Sigma.snd) hentry
  obtain ⟨vtx',hperm,hsublist⟩ := List.subperm_of_subset (List.Nodup.of_map _ h.nodup) hsub
  calc (vtx.map (txFee env)).sum
      ≤ (vtx.map fun tx => max 0 (txFee env tx)).sum :=
        List.sum_le_sum fun tx _ => le_max_right 0 (txFee env tx)
    _ = (vtx'.map fun tx => max 0 (txFee env tx)).sum := ((hperm.map _).sum_eq).symm
    _ ≤ ((env.pool.mapTx.entries.map Sigma.snd).map fun tx => max 0 (txFee env tx)).sum := by
        apply (hsublist.map _).sum_le_sum
        intro fee hfee
        obtain ⟨tx,-,rfl⟩ := List.mem_map.mp hfee
        exact le_max_left 0 (txFee env tx)
    _ = poolFees env := by
        rw [List.map_map]
        rfl

/-- What a template is to be: the coinbase before transactions of the pool, each once and after its
parents, within the limits of a block, with fees that add up. -/
structure GoodTemplate (env : CreateEnv D) (vchPubKey : List UInt8) (nBits : BitVec 32)
    (vtx : List CTransaction) (template : CBlockTemplate) : Prop where
  coinbase : template.block.vtx = coinbaseTx vchPubKey
    (getBlockValue env.cons.target template.block.nBits (vtx.map (txFee env)).sum) :: vtx
  nBits : template.block.nBits = nBits
  inPool : ∀ tx ∈ vtx, InPool env tx
  once : (vtx.map env.cons.ext.txHash).Nodup
  parents : ParentsFirst env vtx
  size : template.block.getSerializeSize ≤ maxBlockSize
  sigOps : template.vTxSigOps.sum ≤ maxBlockSigOps
  fees : template.vTxFees = -(vtx.map (txFee env)).sum :: vtx.map (txFee env)
  connects : ∀ nHeight ptr, (env.mapBlockIndex env.pindexBest).map CBlockIndex.nHeight = some nHeight →
    (connectBlock env.cons ⟨env.nAdjustedTime, true, true, true, true, true⟩ env.mapBlockIndex
      template.block ptr (indexDummy env template.block nHeight) env.freshView true).error = none

/-- When a template is asked for: the pool fits the coins, which are those of the best block, and the
clock is past the old limit on the size and not too far behind the tip. -/
structure Ready (env : CreateEnv D) : Prop where
  fits : PoolFits env
  cache : IgnoresCache env.cons.ext
  minTxFee : env.cons.fees.nMinTxFee = minTxFee
  params : env.cons.target = mainNetParams ∨ env.cons.target = testNetParams
  best : getBestBlock env.pcoinsTip = some env.pindexBest
  clock : 1368576000 ≤ env.nAdjustedTime
  median : getMedianTimePast env.mapBlockIndex env.pindexBest < env.nAdjustedTime+7200

/-- For every pool that fits the tip, whatever the priorities and settings are, `CreateNewBlock` ends
and yields a template that connects, as long as the coinbase is new to the tip and the pool, the next
target exists, the coinbase stays within the money range and the time fits in 32 bits. -/
theorem new_block_connects (env : CreateEnv D) (hready : Ready env)
    {pindexPrev : CBlockIndex} (hindex : env.mapBlockIndex env.pindexBest = some pindexPrev)
    (hlate : env.nAdjustedTime+7200 < 2^32) {nBits : BitVec 32}
    (hwork : getNextWorkRequired env.cons.target env.mapBlockIndex (some env.pindexBest) = some nBits)
    (hlength : env.cons.target.nTargetMinLength ≤ targetGetLength nBits)
    (hmoney : (targetGetMint env.cons.target nBits).2+poolFees env ≤ maxMoney)
    {vchPubKey : List UInt8} (hkey : ValidKey vchPubKey)
    (hforeign : ∀ nValue, Foreign env (env.cons.ext.txHash (coinbaseTx vchPubKey nValue)))
    {fuel : ℕ} (hfuel : env.pool.mapTx.entries.length ≤ fuel) :
    ∃ template vtx, createNewBlock env (some vchPubKey) fuel = .ok (some template) ∧
      GoodTemplate env vchPubKey nBits vtx template := by
  obtain ⟨hfits,hcache,hfees,hparams,hbest,hclock,hmedian⟩ := hready
  have hmin : 0 < env.cons.target.nTargetMinLength.toNat := by
    rcases hparams with hparams | hparams <;> rw [hparams] <;> decide
  have hempty : CollectOk env ⟨[], fun _ => [], []⟩ :=
    ⟨fun top hmem => absurd hmem List.not_mem_nil, fun entry hmem => absurd hmem List.not_mem_nil,
      fun hash porphan hmem => absurd hmem List.not_mem_nil⟩
  obtain ⟨c,hcollect,hcok,hcount⟩ := collectTxs_ok hfits pindexPrev.nHeight
    (fun tx (hmem : tx ∈ env.pool.inOrder) => mem_inOrder hmem) hempty
  rw [length_inOrder] at hcount
  obtain ⟨hstart,hleft⟩ := startAssembly_ok (blockLimits env.args env.nAdjustedTime)
    pindexPrev.nHeight hcok
  have hzero : (⟨[], fun _ => [], []⟩ : Collected D).count = 0 := rfl
  obtain ⟨s,hassemble,hs⟩ := assemble_ok hfits hstart (show _ ≤ fuel by omega)
  have hbuilt := hs.built
  have hok := hbuilt.ok hfits
  -- the value of the coinbase
  have hmint := cent_le_mint hmin hlength
  have hcent : cent = 1000000 := rfl
  have hnonneg : 0 ≤ (s.vtx.map (txFee env)).sum := by
    apply List.sum_nonneg
    intro fee hfee
    obtain ⟨tx,hmem,rfl⟩ := List.mem_map.mp hfee
    exact hbuilt.fee_nonneg hfits hcache hmem
  have hsum := hok.fees_le
  generalize hvalue : getBlockValue env.cons.target nBits (s.vtx.map (txFee env)).sum = nValue
  have hvalue' := hvalue
  rw [getBlockValue] at hvalue'
  have hlow : cent ≤ nValue := by omega
  have hhigh : nValue ≤ maxMoney := by omega
  have hrange : moneyRange nValue = true := by
    rw [moneyRange, Bool.and_eq_true, decide_eq_true_eq, decide_eq_true_eq]
    exact ⟨by omega, hhigh⟩
  have hnodup : ((coinbaseTx vchPubKey nValue :: s.vtx).map env.cons.ext.txHash).Nodup := by
    rw [List.map_cons, List.nodup_cons]
    refine ⟨fun hmem => ?_, hok.nodup⟩
    obtain ⟨tx,htx,heq⟩ := List.mem_map.mp hmem
    have hlookup := (hok.inPool tx htx).lookup
    rw [heq, (hforeign nValue).pool] at hlookup
    cases hlookup
  -- the limits
  have hlimits := blockLimits_le env.args env.nAdjustedTime
  have hsize : (s.vtx.map CTransaction.getSerializeSize).sum ≤ maxBlockSize-2000 := by
    rcases hs.sizeLimit with hnil | hlt
    · rw [hnil]
      exact Nat.zero_le _
    · have heq := hs.size
      omega
  have hsigLimit := hs.sigLimit
  have hsigEq := hs.blockSigOps
  have hlegacy : (s.vtx.map CTransaction.getLegacySigOpCount).sum ≤ (s.vtx.map (txSigOps env)).sum :=
    List.sum_le_sum fun tx _ => Nat.le_add_right _ _
  obtain ⟨hblockSize,hchecked⟩ := checkBlock_template hfits hok.inPool hkey hlow hhigh hnodup hsize
    (by omega) hmedian hclock hlate nBits
  have hconnect (ptr : BlockPtr) := connectBlock_template hfits hcache hfees hbuilt hkey rfl hindex hbest
    hclock hlate hmedian hvalue.symm hrange (hforeign nValue) (by omega) rfl hchecked ptr
  refine ⟨⟨newBlock env nBits (coinbaseTx vchPubKey nValue :: s.vtx), -s.nFees :: s.vTxFees,
    ((coinbaseTx vchPubKey nValue).getLegacySigOpCount : ℤ) :: s.vTxSigOps⟩, s.vtx, ?_, ?_⟩
  · rw [createNewBlock, hindex]
    dsimp only
    rw [hcollect]
    dsimp only
    rw [hassemble]
    dsimp only
    rw [hwork]
    dsimp only
    rw [finishTemplate, hs.total, hvalue, hconnect]
  · refine ⟨?_, rfl, hok.inPool, hok.nodup, hok.parents, hblockSize, ?_, ?_, ?_⟩
    · rw [← hvalue]
      rfl
    · change (((coinbaseTx vchPubKey nValue).getLegacySigOpCount : ℤ) :: s.vTxSigOps).sum ≤ _
      have hcast : (s.vtx.map fun tx => (txSigOps env tx : ℤ)).sum =
          (((s.vtx.map (txSigOps env)).sum : ℕ) : ℤ) := by
        rw [Nat.cast_list_sum, List.map_map]
        rfl
      rw [hs.sigOps, coinbase_sigOps hkey, List.sum_cons, hcast]
      omega
    · rw [← hs.fees, hs.total, ← hs.fees]
    · intro nHeight ptr hheight
      rw [hindex, Option.map_some, Option.some.injEq] at hheight
      rw [← hheight]
      exact hconnect ptr

end Connect

/-- The queue kept in order, the largest first. -/
def sortedHeap (T : Type) : HeapFunctions T where
  makeHeap less v := v.insertionSort fun a b => less a b = false
  popHeap _ v := v.tail
  pushHeap less x v := v.orderedInsert (fun a b => less a b = false) x
  makeHeap_perm _ v := List.perm_insertionSort _ v
  popHeap_perm _ _ := List.Perm.refl _
  pushHeap_perm _ x v := List.perm_orderedInsert _ x v

/-- Spends an output of 5 coins of transaction 7. -/
def templateTx : CTransaction := ⟨1, [⟨⟨7, 0⟩, [], 2^32-1⟩], [⟨4*coin, opTrue⟩], 0⟩

/-- A compressed key. -/
def templateKey : List UInt8 := List.replicate 33 2

/-- The outputs of one transaction. -/
def templateCoins (txid : Uint256) (nValue : ℤ) : Uint256 → Option CCoins := fun hash =>
  if hash = txid then some ⟨false, [⟨nValue, opTrue⟩], 0, 1⟩ else none

/-- A tip with some coins, and a pool. -/
def templateEnv (tip : CBlockIndex) (coins : Uint256 → Option CCoins) (pool : CTxMemPool) :
    CreateEnv ℚ where
  cons :=
    { ext :=
        { txHash := fun tx => if tx = templateTx then 8 else 9
          blockHash := fun _ => 10
          nodeHash := fun _ _ => 11
          verifyScript := fun _ scriptPubKey _ _ _ => scriptPubKey == opTrue }
      fees := defaultFees
      target := testNetParams
      hashGenesisBlock := 0x2222
      nTotalBlocksEstimate := 0
      fScriptCheckThreads := false
      fTxIndex := false }
  dbl := ⟨fun n => n, fun a b => a+b, fun a b => a*b, fun a b => a/b, fun a b => decide (a < b),
    fun a b => decide (a = b)⟩
  heap := sortedHeap _
  mapBlockIndex ptr :=
    if ptr = 0x2222 then some tip
    else if ptr = 0x1111 then some (sampleIndex 0x1111 1 (some 0))
    else none
  pindexBest := 0x2222
  nBestHeight := 0
  pcoinsTip := .ofBase coins (some 0x2222)
  pool := pool
  nAdjustedTime := 1400000000
  args := ⟨none, none, none⟩
  fDebug := false

def templatePool : CTxMemPool := CTxMemPool.empty.addUnchecked 8 templateTx

theorem templatePool_lookup {hash : Uint256} {tx : CTransaction}
    (h : templatePool.mapTx.lookup hash = some tx) : hash = 8 ∧ tx = templateTx := by
  change ((∅ : AList fun _ : Uint256 => CTransaction).insert 8 templateTx).lookup hash = some tx at h
  by_cases heq : hash = 8
  · rw [heq, AList.lookup_insert] at h
    exact ⟨heq, (Option.some.inj h).symm⟩
  · rw [AList.lookup_insert_ne heq, AList.lookup_empty] at h
    cases h

def templateTip (nBits : BitVec 32) (pprev : Option BlockPtr) : CBlockIndex :=
  { sampleIndex 0x2222 2 pprev with nBits := nBits }

theorem templateEnv_ready {tip : CBlockIndex} {coins : Uint256 → Option CCoins} {pool : CTxMemPool}
    (hfits : PoolFits (templateEnv tip coins pool))
    (hmedian : getMedianTimePast (templateEnv tip coins pool).mapBlockIndex 0x2222 < 1400007200) :
    Ready (templateEnv tip coins pool) where
  fits := hfits
  cache := fun _ _ _ _ _ => rfl
  minTxFee := rfl
  params := Or.inr rfl
  best := rfl
  clock := by
    change (1368576000 : ℤ) ≤ 1400000000
    decide
  median := hmedian

theorem templatePool_fits (tip : CBlockIndex) {nValue : ℤ}
    (havail : available (CCoinsViewCache.ofBase (templateCoins 7 nValue) (some 0x2222)) ⟨7, 0⟩ = true) :
    PoolFits (templateEnv tip (templateCoins 7 nValue) templatePool) := by
  constructor
  · intro hash tx h
    obtain ⟨rfl,rfl⟩ := templatePool_lookup h
    have hhash : (if templateTx = templateTx then (8 : Uint256) else 9) = 8 := if_pos rfl
    exact hhash
  · intro hash tx h
    obtain ⟨-,rfl⟩ := templatePool_lookup h
    decide
  · intro hash tx h
    obtain ⟨rfl,-⟩ := templatePool_lookup h
    rfl
  · intro hash tx h txin hmem
    obtain ⟨-,rfl⟩ := templatePool_lookup h
    obtain rfl := List.mem_singleton.mp hmem
    exact Or.inl havail

theorem emptyPool_fits (tip : CBlockIndex) (coins : Uint256 → Option CCoins) :
    PoolFits (templateEnv tip coins CTxMemPool.empty) := by
  constructor
  all_goals
    intro hash tx h
    cases h

/-- The theorem at a pool of one transaction. -/
theorem new_block_connects_sample : ∃ template vtx,
    createNewBlock (templateEnv (templateTip 0x07000000 none) (templateCoins 7 (5*coin)) templatePool)
      (some templateKey) 1 = .ok (some template) ∧
    GoodTemplate (templateEnv (templateTip 0x07000000 none) (templateCoins 7 (5*coin)) templatePool)
      templateKey (targetGetInitial testNetParams) vtx template := by
  have hforeign (nValue : ℤ) : (if coinbaseTx templateKey nValue = templateTx then (8 : Uint256) else 9) =
      9 := by
    apply if_neg
    intro heq
    have hvin := congrArg CTransaction.vin heq
    have hne : (coinbaseTx templateKey 0).vin ≠ templateTx.vin := by decide
    exact hne hvin
  apply new_block_connects (templateEnv (templateTip 0x07000000 none) (templateCoins 7 (5*coin))
    templatePool) (templateEnv_ready (templatePool_fits _ (by decide)) (by decide)) rfl
  · decide
  · rfl
  · decide
  · decide +kernel
  · exact Or.inl rfl
  · intro nValue
    constructor
    · have hlive : live (templateCoins 7 (5*coin) 9) = none := rfl
      rw [← hforeign nValue] at hlive
      exact hlive
    · have hlookup : templatePool.mapTx.lookup 9 = none := rfl
      rw [← hforeign nValue] at hlookup
      exact hlookup
  · decide

/-- No template: the tip has the coinbase already, the target of the tip is too short for a subsidy,
the fees leave the money range. -/
theorem new_block_fails :
    (Ready (templateEnv (templateTip 0x07000000 none) (templateCoins 9 (5*coin)) CTxMemPool.empty) ∧
      createNewBlock
        (templateEnv (templateTip 0x07000000 none) (templateCoins 9 (5*coin)) CTxMemPool.empty)
        (some templateKey) 0 = .error (.connectBlock .overwriteTransaction)) ∧
    (Ready (templateEnv (templateTip 0 (some 0x1111)) (templateCoins 7 (5*coin)) CTxMemPool.empty) ∧
      createNewBlock
        (templateEnv (templateTip 0 (some 0x1111)) (templateCoins 7 (5*coin)) CTxMemPool.empty)
        (some templateKey) 0 =
          .error (.connectBlock (.checkBlock (.transaction .valueBelowMinimum)))) ∧
    (Ready (templateEnv (templateTip 0x07000000 none) (templateCoins 7 maxMoney) templatePool) ∧
      createNewBlock (templateEnv (templateTip 0x07000000 none) (templateCoins 7 maxMoney) templatePool)
        (some templateKey) 1 =
          .error (.connectBlock (.checkBlock (.transaction .valueTooHigh)))) := by
  refine ⟨⟨?_, by decide +kernel⟩, ⟨?_, by decide +kernel⟩, ?_, by decide +kernel⟩
  · exact templateEnv_ready (emptyPool_fits _ _) (by decide)
  · exact templateEnv_ready (emptyPool_fits _ _) (by decide)
  · exact templateEnv_ready (templatePool_fits _ (by decide)) (by decide)

end Candypool.Chain
