import Candypool.Chain.TemplateConnects
import Candypool.Script.Builder
import Candypool.Script.SigCache

/-! `CheckBlock` on a template: the room the estimates of `CreateNewBlock` leave for the header and the
coinbase is enough. -/
namespace Candypool.Chain
open Candypool.Prime Candypool.Core Candypool.Coins Candypool.Script

section Coinbase
variable {vchPubKey : List UInt8}

/-- A key as `GetReservedKey` gives it. -/
def ValidKey (vchPubKey : List UInt8) : Prop := vchPubKey.length = 33 ∨ vchPubKey.length = 65

theorem ValidKey.length_lt (h : ValidKey vchPubKey) : vchPubKey.length < opPushData1 := by
  rw [opPushData1]
  rcases h with h | h <;> omega

theorem length_pushData_of_lt (h : vchPubKey.length < opPushData1) :
    (pushData vchPubKey).length = vchPubKey.length+1 := by
  simp only [pushData]
  rw [if_pos h, List.length_append, List.length_map, List.length_range, add_comm]

/-- The script of the coinbase has one signature operation. -/
theorem keyScript_sigOps (h : ValidKey vchPubKey) :
    getSigOpCount (pushData vchPubKey ++ [UInt8.ofNat opCheckSig]) false = 1 := by
  have hlt := h.length_lt
  have hpush : getOp (pushData vchPubKey ++ [UInt8.ofNat opCheckSig]) =
      some (pushClass vchPubKey.length, vchPubKey, [UInt8.ofNat opCheckSig]) := by
    rw [opPushData1] at hlt
    rw [getOp_pushData (by omega), if_neg]
    rw [List.length_singleton]
    omega
  have hclass : sigOpsOf false (pushClass vchPubKey.length) opInvalidOpcode = 0 := by
    rw [pushClass, if_pos hlt]
    rcases h with h | h <;> rw [h] <;> rfl
  have hcheck : getOp [UInt8.ofNat opCheckSig] = some (opCheckSig, [], []) :=
    getOp_opcode (Or.inr ⟨by decide, by decide⟩) []
  have hlen : (pushData vchPubKey ++ [UInt8.ofNat opCheckSig]).length = vchPubKey.length+1+1 := by
    rw [List.length_append, length_pushData_of_lt hlt, List.length_singleton]
  rw [getSigOpCount, hlen, sigOpLoop_succ, hpush]
  dsimp only
  rw [hclass, sigOpLoop_succ, hcheck]
  dsimp only
  cases vchPubKey.length with
  | zero => rfl
  | succ n => rfl

theorem coinbase_sigOps (h : ValidKey vchPubKey) (nValue : ℤ) :
    (coinbaseTx vchPubKey nValue).getLegacySigOpCount = 1 := by
  have hsig : getSigOpCount [0, 0] false = 0 := by decide
  simp only [CTransaction.getLegacySigOpCount, coinbaseTx, List.map_cons, List.map_nil,
    List.sum_cons, List.sum_nil]
  rw [keyScript_sigOps h, hsig]
  rfl

theorem coinbase_size (h : ValidKey vchPubKey) (nValue : ℤ) :
    (coinbaseTx vchPubKey nValue).getSerializeSize ≤ 200 := by
  have hlen : (pushData vchPubKey ++ [UInt8.ofNat opCheckSig]).length = vchPubKey.length+2 := by
    rw [List.length_append, length_pushData_of_lt h.length_lt, List.length_singleton]
  have hlt := h.length_lt
  rw [opPushData1] at hlt
  have hscript : scriptSize (pushData vchPubKey ++ [UInt8.ofNat opCheckSig]) = vchPubKey.length+3 := by
    rw [scriptSize, hlen, getSizeOfCompactSize, if_pos (by omega)]
    omega
  simp only [CTransaction.getSerializeSize, coinbaseTx, List.map_cons, List.map_nil, List.sum_cons,
    List.sum_nil, List.length_singleton]
  rw [hscript]
  have hone : getSizeOfCompactSize 1 = 1 := rfl
  have hsig : scriptSize [0, 0] = 3 := rfl
  rw [hone, hsig]
  omega

theorem coinbase_valueOut {nValue : ℤ} (h : moneyRange nValue = true) :
    (coinbaseTx vchPubKey nValue).getValueOut = some nValue := by
  simp only [CTransaction.getValueOut, coinbaseTx, valueOutLoop, zero_add, h, Bool.and_self, if_true]

/-- The coinbase is valid from a cent on. -/
theorem coinbase_checked (h : ValidKey vchPubKey) {nValue : ℤ} (hlow : cent ≤ nValue)
    (hhigh : nValue ≤ maxMoney) : (coinbaseTx vchPubKey nValue).checkTransaction = .ok () := by
  have hsize : ¬ (coinbaseTx vchPubKey nValue).getSerializeSize > maxBlockSize := by
    have hle := coinbase_size h nValue
    have hmax : maxBlockSize = 1000000 := rfl
    omega
  have hcent : cent = 1000000 := rfl
  have hmin : minTxOutAmount = cent := rfl
  have hrange : moneyRange nValue = true := by
    rw [moneyRange, Bool.and_eq_true, decide_eq_true_eq, decide_eq_true_eq]
    exact ⟨by omega, hhigh⟩
  have houts : checkOutputs (coinbaseTx vchPubKey nValue).vout 0 = .ok () := by
    simp only [coinbaseTx, checkOutputs]
    rw [hmin, if_neg (by omega), if_neg (by omega), zero_add, hrange]
    rfl
  have hnodup : ((coinbaseTx vchPubKey nValue).vin.map CTxIn.prevout).Nodup := List.nodup_singleton _
  have hvin : (coinbaseTx vchPubKey nValue).vin ≠ [] := List.cons_ne_nil _ _
  have hvout : (coinbaseTx vchPubKey nValue).vout ≠ [] := List.cons_ne_nil _ _
  rw [CTransaction.checkTransaction, if_neg hvin, if_neg hvout, if_neg hsize, houts]
  dsimp only
  rw [if_neg (not_not.mpr hnodup)]
  exact if_pos rfl

/-- The base fee of a coinbase is that of one kilobyte. -/
theorem coinbase_minFee (h : ValidKey vchPubKey) {fees : FeeParams} (hfees : fees.nMinTxFee = minTxFee)
    (nValue : ℤ) : (coinbaseTx vchPubKey nValue).getMinFee fees 1 false .block = minTxFee := by
  have hle := coinbase_size h nValue
  have hbytes : (coinbaseTx vchPubKey nValue).getSerializeSize/1000 = 0 :=
    Nat.div_eq_of_lt (by omega)
  have hrange : moneyRange minTxFee = true := by decide
  simp only [CTransaction.getMinFee, hbytes, hfees]
  simp [hrange]

end Coinbase

section Mint
variable {n a b : ℕ}

/-- One of the two divisions of `TargetGetMint`. -/
theorem mint_quotient (a n : ℕ) :
    bnDiv (bnShiftLeft (a : ℤ) nFractionalBits) n = ((2^24*a/n : ℕ) : ℤ) := by
  have hshift : bnShiftLeft (a : ℤ) nFractionalBits = ((2^24*a : ℕ) : ℤ) := by
    rw [bnShiftLeft, nFractionalBits]
    push_cast
    ring
  rw [bnDiv, hshift, Int.natCast_div]
  exact Int.tdiv_eq_ediv_of_nonneg (by positivity)

theorem mint_quotient_bounds (hlow : 2^24 ≤ n) (hhigh : n < 2^32) (a : ℕ) :
    a/256 ≤ 2^24*a/n ∧ 2^24*a/n ≤ a := by
  constructor
  · rw [Nat.le_div_iff_mul_le (by omega)]
    calc a/256*n ≤ a/256*2^32 := Nat.mul_le_mul_left _ hhigh.le
      _ = 2^24*(a/256*256) := by ring
      _ ≤ 2^24*a := Nat.mul_le_mul_left _ (Nat.div_mul_le_self a 256)
  · apply Nat.div_le_of_le_mul
    exact Nat.mul_le_mul_right a hlow

/-- The mint is a whole number of cents. -/
theorem mint_word (hb : b ≤ 99900000000) :
    ((getuint256 (bnDiv (b : ℤ) cent*cent)).toNat % 2^64 : ℕ) = 1000000*(b/1000000) := by
  have hcent : cent = 1000000 := rfl
  have hround : bnDiv (b : ℤ) cent*cent = ((1000000*(b/1000000) : ℕ) : ℤ) := by
    rw [bnDiv, Int.tdiv_eq_ediv_of_nonneg (by positivity), hcent]
    push_cast
    ring
  rw [hround, getuint256, Int.natAbs_natCast, BitVec.toNat_ofNat]
  omega

/-- `TargetGetMint` of a target that is long enough. -/
theorem targetGetMint_eq {params : TargetParams} {nBits : BitVec 32}
    (h : ¬ targetGetLength nBits < params.nTargetMinLength) {limit : ℤ}
    (hlimit : nMintLimit = limit) {nMint : ℕ}
    (hmint : (getuint256 (bnDiv (bnDiv (bnShiftLeft (bnDiv (bnShiftLeft limit nFractionalBits)
      nBits.toNat) nFractionalBits) nBits.toNat) cent*cent)).toNat % 2^64 = nMint) :
    targetGetMint params nBits = if (nMint : ℤ) > limit then (false, 0) else (true, (nMint : ℤ)) := by
  subst hlimit hmint
  exact if_neg h

/-- A target of at least the minimum length has a mint of at least a cent. -/
theorem cent_le_mint {params : TargetParams} (hmin : 0 < params.nTargetMinLength.toNat)
    {nBits : BitVec 32} (h : params.nTargetMinLength ≤ targetGetLength nBits) :
    cent ≤ (targetGetMint params nBits).2 := by
  have hlength := BitVec.le_def.mp h
  rw [targetGetLength_toNat] at hlength
  have hlow : 2^24 ≤ nBits.toNat := by omega
  have hcent : cent = 1000000 := rfl
  obtain ⟨limit,hvalue,hlimit⟩ : ∃ limit : ℕ, limit = 99900000000 ∧ nMintLimit = limit :=
    ⟨99900000000, rfl, by norm_num [nMintLimit, coin]⟩
  obtain ⟨ha,ha'⟩ := mint_quotient_bounds hlow nBits.isLt limit
  obtain ⟨hb,hb'⟩ := mint_quotient_bounds hlow nBits.isLt (2^24*limit/nBits.toNat)
  have hword := mint_word (b := 2^24*(2^24*limit/nBits.toNat)/nBits.toNat) (by omega)
  rw [← mint_quotient, ← mint_quotient] at hword
  rw [targetGetMint_eq (BitVec.not_lt.mpr h) hlimit hword]
  generalize 2^24*limit/nBits.toNat = a at ha ha' hb hb' ⊢
  generalize 2^24*a/nBits.toNat = b at hb hb' ⊢
  rw [if_neg (by omega)]
  change cent ≤ ((1000000*(b/1000000) : ℕ) : ℤ)
  omega

end Mint

section Check
variable {D : Type} {env : CreateEnv D}

theorem blockLimits_le (args : MiningArgs) (nAdjustedTime : ℤ) :
    (blockLimits args nAdjustedTime).nBlockMaxSize ≤ maxBlockSize-1000 := by
  have hgen : maxBlockSizeGen ≤ maxBlockSize-1000 := by decide
  have hlow : 1000 ≤ maxBlockSize-1000 := by decide
  simp only [blockLimits]
  split_ifs <;> omega

/-- The time of the block is that of the clock or of the tip. -/
theorem updatedTime_eq (hmedian : getMedianTimePast env.mapBlockIndex env.pindexBest <
      env.nAdjustedTime+7200) (hclock : 0 ≤ env.nAdjustedTime) (hlate : env.nAdjustedTime+7200 < 2^32) :
    env.nAdjustedTime ≤ updatedTime env ∧ (updatedTime env : ℤ) ≤ env.nAdjustedTime+7200 := by
  rw [updatedTime]
  omega

theorem serializeSize_pos (tx : CTransaction) : 1 ≤ tx.getSerializeSize := by
  rw [CTransaction.getSerializeSize]
  omega

theorem length_le_sizes (vtx : List CTransaction) :
    vtx.length ≤ (vtx.map CTransaction.getSerializeSize).sum := by
  induction vtx with
  | nil => exact Nat.le_refl 0
  | cons tx vtx ih =>
    have hpos := serializeSize_pos tx
    rw [List.length_cons, List.map_cons, List.sum_cons]
    omega

theorem getSizeOfCompactSize_le (nSize : ℕ) : getSizeOfCompactSize nSize ≤ 9 := by
  rw [getSizeOfCompactSize]
  split_ifs <;> omega

theorem newBlock_size (env : CreateEnv D) (nBits : BitVec 32) (vtx : List CTransaction) :
    (newBlock env nBits vtx).getSerializeSize ≤
      100+(vtx.map CTransaction.getSerializeSize).sum := by
  have hcount := getSizeOfCompactSize_le vtx.length
  have hzero : CBigNum.vchSize 0 = 0 := rfl
  have hone : getSizeOfCompactSize 0 = 1 := rfl
  simp only [CBlock.getSerializeSize, newBlock, hzero, hone]
  omega

theorem checkTransactions_of_all {vtx : List CTransaction}
    (h : ∀ tx ∈ vtx, tx.checkTransaction = .ok ()) : checkTransactions vtx = .ok () := by
  induction vtx with
  | nil => rfl
  | cons tx vtx ih =>
    rw [checkTransactions, h tx List.mem_cons_self]
    exact ih fun tx' hmem => h tx' (List.mem_cons_of_mem _ hmem)

/-- `CheckBlock` accepts a template. -/
theorem checkBlock_template (hfits : PoolFits env) {vtx : List CTransaction}
    (hpool : ∀ tx ∈ vtx, InPool env tx) {vchPubKey : List UInt8} (hkey : ValidKey vchPubKey)
    {nValue : ℤ} (hlow : cent ≤ nValue) (hhigh : nValue ≤ maxMoney)
    (hnodup : ((coinbaseTx vchPubKey nValue :: vtx).map env.cons.ext.txHash).Nodup)
    (hsize : (vtx.map CTransaction.getSerializeSize).sum ≤ maxBlockSize-2000)
    (hsig : (vtx.map CTransaction.getLegacySigOpCount).sum+1 ≤ maxBlockSigOps)
    (hmedian : getMedianTimePast env.mapBlockIndex env.pindexBest < env.nAdjustedTime+7200)
    (hclock : 1368576000 ≤ env.nAdjustedTime) (hlate : env.nAdjustedTime+7200 < 2^32)
    (nBits : BitVec 32) :
    (newBlock env nBits (coinbaseTx vchPubKey nValue :: vtx)).getSerializeSize ≤ maxBlockSize ∧
      (newBlock env nBits (coinbaseTx vchPubKey nValue :: vtx)).checkBlock env.cons.ext
        env.nAdjustedTime false = .ok () := by
  have hcoinbase := coinbase_size hkey nValue
  have hmax : maxBlockSize = 1000000 := rfl
  have hlen := length_le_sizes vtx
  have hblock : (newBlock env nBits (coinbaseTx vchPubKey nValue :: vtx)).getSerializeSize ≤
      maxBlockSize := by
    have hle := newBlock_size env nBits (coinbaseTx vchPubKey nValue :: vtx)
    rw [List.map_cons, List.sum_cons] at hle
    omega
  refine ⟨hblock, ?_⟩
  obtain ⟨htime,htime'⟩ := updatedTime_eq hmedian (by omega) hlate
  have hshape : ¬((newBlock env nBits (coinbaseTx vchPubKey nValue :: vtx)).vtx = [] ∨
      (newBlock env nBits (coinbaseTx vchPubKey nValue :: vtx)).vtx.length > maxBlockSize ∨
      (newBlock env nBits (coinbaseTx vchPubKey nValue :: vtx)).getSerializeSize > maxBlockSize) := by
    rw [not_or, not_or]
    refine ⟨List.cons_ne_nil _ _, ?_, not_lt.mpr hblock⟩
    change ¬(vtx.length+1 > maxBlockSize)
    omega
  have hlocks : ¬(1363867200 ≤ (newBlock env nBits (coinbaseTx vchPubKey nValue :: vtx)).nTime ∧
      (newBlock env nBits (coinbaseTx vchPubKey nValue :: vtx)).nTime < 1368576000 ∧
      ((newBlock env nBits (coinbaseTx vchPubKey nValue :: vtx)).lockedTxids
        env.cons.ext).dedup.length > 4500) := by
    intro hboth
    have hbefore : updatedTime env < 1368576000 := hboth.2.1
    omega
  have hfar : ¬(((newBlock env nBits (coinbaseTx vchPubKey nValue :: vtx)).nTime : ℤ) >
      env.nAdjustedTime+2*60*60) := by
    change ¬((updatedTime env : ℤ) > env.nAdjustedTime+2*60*60)
    omega
  have hmore : vtx.any CTransaction.isCoinBase = false := by
    rw [List.any_eq_false]
    intro tx hmem
    rw [(hpool tx hmem).notCoinBase]
    exact Bool.false_ne_true
  have hchecked : checkTransactions
      (newBlock env nBits (coinbaseTx vchPubKey nValue :: vtx)).vtx = .ok () := by
    change checkTransactions (coinbaseTx vchPubKey nValue :: vtx) = .ok ()
    apply checkTransactions_of_all
    intro tx hmem
    rcases List.mem_cons.mp hmem with rfl | hmem
    · exact coinbase_checked hkey hlow hhigh
    · exact hfits.checked _ tx (hpool tx hmem).lookup
  have hdup : ((coinbaseTx vchPubKey nValue :: vtx).map env.cons.ext.txHash).dedup.length =
      (coinbaseTx vchPubKey nValue :: vtx).length := by
    rw [List.dedup_eq_self.mpr hnodup, List.length_map]
  have hsigops : ¬(((coinbaseTx vchPubKey nValue :: vtx).map
      CTransaction.getLegacySigOpCount).sum > maxBlockSigOps) := by
    rw [List.map_cons, List.sum_cons, coinbase_sigOps hkey]
    omega
  rw [CBlock.checkBlock, if_neg hshape, if_neg hlocks, if_neg hfar]
  refine (if_neg ?_).trans ?_
  · change ¬((!(coinbaseTx vchPubKey nValue).isCoinBase) = true)
    exact Bool.false_ne_true
  refine (if_neg ?_).trans ?_
  · change ¬(vtx.any CTransaction.isCoinBase = true)
    rw [hmore]
    exact Bool.false_ne_true
  rw [hchecked]
  dsimp only
  refine (if_neg (not_not.mpr hdup)).trans ((if_neg hsigops).trans (if_neg ?_))
  rintro ⟨hroot,-⟩
  cases hroot

end Check

end Candypool.Chain
