import Candypool.Prime.Termination

/-! `CheckPrimeProofOfWork`: what an accepted certificate guarantees. -/
namespace Candypool.Prime

inductive PrimeChainType
  | cunningham1
  | cunningham2
  | biTwin
  deriving DecidableEq, Repr

/-- The error returns, in the order of the code. The last one has already set the outputs. -/
inductive ProofOfWorkError
  | invalidChainLengthTarget
  | headerHashUnderLimit
  | primeTooSmall
  | primeTooBig
  | failedPrimeChainTest (lens : ChainLengths)
  | primeChainLengthAssert (lens : ChainLengths)
  | failedFermatTest (lens lensFermat : ChainLengths)
  | failedFermatDoubleCheck (lens lensFermat : ChainLengths)
  | notNormalized (nChainType : PrimeChainType) (nChainLength : BitVec 32)
  deriving DecidableEq, Repr

def hashBlockHeaderLimit : Uint256 := 1 <<< 255

def bnPrimeMin : CBigNum := 2^255

def bnPrimeMax : CBigNum := 2^2000-1

/-- The longest of the three chain types, an earlier type winning a tie. -/
def longestChain (lens : ChainLengths) : PrimeChainType × BitVec 32 :=
  let best : PrimeChainType × BitVec 32 := (.cunningham1, lens.nChainLengthCunningham1)
  let best := if lens.nChainLengthCunningham2 > best.2 then
    (.cunningham2, lens.nChainLengthCunningham2) else best
  if lens.nChainLengthBiTwin > best.2 then (.biTwin, lens.nChainLengthBiTwin) else best

/-- The halved origin is tried when the multiplier is even and the origin divisible by 4. -/
def certificateNormalized (fuel : ℕ) (bnPrimeChainMultiplier bnPrimeChainOrigin : CBigNum)
    (nBits nChainLength : BitVec 32) : Option Bool :=
  if bnMod bnPrimeChainMultiplier 2 = 0 ∧ bnMod bnPrimeChainOrigin 4 = 0 then do
    let (found,lens) ← probablePrimeChainTest fuel (bnDiv bnPrimeChainOrigin 2) nBits false
    return !(found && (decide (lens.nChainLengthCunningham1 > nChainLength) ||
      decide (lens.nChainLengthCunningham2 > nChainLength) ||
      decide (lens.nChainLengthBiTwin > nChainLength)))
  else some true

/-- The part of the check after the origin was found to be in range. -/
def checkPrimeChain (fuel : ℕ) (nBits : BitVec 32)
    (bnPrimeChainMultiplier bnPrimeChainOrigin : CBigNum) :
    Option (Except ProofOfWorkError (PrimeChainType × BitVec 32)) := do
  let (found,lens) ← probablePrimeChainTest fuel bnPrimeChainOrigin nBits false
  if !found then return .error (.failedPrimeChainTest lens)
  if lens.nChainLengthCunningham1 < nBits ∧ lens.nChainLengthCunningham2 < nBits ∧
      lens.nChainLengthBiTwin < nBits then
    return .error (.primeChainLengthAssert lens)
  let (foundFermat,lensFermat) ← probablePrimeChainTest fuel bnPrimeChainOrigin nBits true
  if !foundFermat then return .error (.failedFermatTest lens lensFermat)
  if lens ≠ lensFermat then return .error (.failedFermatDoubleCheck lens lensFermat)
  let best := longestChain lens
  let normalized ← certificateNormalized fuel bnPrimeChainMultiplier bnPrimeChainOrigin nBits best.2
  if !normalized then return .error (.notNormalized best.1 best.2)
  return .ok best

def checkPrimeProofOfWork (params : TargetParams) (fuel : ℕ) (hashBlockHeader : Uint256)
    (nBits : BitVec 32) (bnPrimeChainMultiplier : CBigNum) (bSkipTargetCheck : Bool) :
    Option (Except ProofOfWorkError (PrimeChainType × BitVec 32)) :=
  if !bSkipTargetCheck && (decide (targetGetLength nBits < params.nTargetMinLength) ||
      decide (targetGetLength nBits > 99)) then
    some (.error .invalidChainLengthTarget)
  else if hashBlockHeader < hashBlockHeaderLimit then
    some (.error .headerHashUnderLimit)
  else if (hashBlockHeader.toNat : ℤ)*bnPrimeChainMultiplier < bnPrimeMin then
    some (.error .primeTooSmall)
  else if (hashBlockHeader.toNat : ℤ)*bnPrimeChainMultiplier > bnPrimeMax then
    some (.error .primeTooBig)
  else checkPrimeChain fuel nBits bnPrimeChainMultiplier
    ((hashBlockHeader.toNat : ℤ)*bnPrimeChainMultiplier)

/-- A chain of the reported type with `k` base-2 Fermat probable primes. -/
def ProbablePrimeChain (nChainType : PrimeChainType) (origin : ℤ) (k : ℕ) : Prop :=
  match nChainType with
  | .cunningham1 => ∀ i < k, FermatProbablePrime (2^i*origin-1)
  | .cunningham2 => ∀ i < k, FermatProbablePrime (2^i*origin+1)
  | .biTwin => (∀ i < (k+1)/2, FermatProbablePrime (2^i*origin-1)) ∧
      ∀ i < k/2, FermatProbablePrime (2^i*origin+1)

theorem checkPrimeChain_ok {fuel : ℕ} {nBits : BitVec 32} {mult origin : CBigNum}
    {best : PrimeChainType × BitVec 32}
    (h : checkPrimeChain fuel nBits mult origin = some (.ok best)) :
    ∃ lens, probablePrimeChainTest fuel origin nBits false = some (true,lens) ∧
      best = longestChain lens := by
  simp only [checkPrimeChain, Option.bind_eq_bind, Option.bind_eq_some_iff, Prod.exists,
    Option.pure_def] at h
  obtain ⟨found,lens,hlens,h⟩ := h
  cases found with
  | false => simp at h
  | true =>
    refine ⟨lens, hlens, ?_⟩
    split_ifs at h with h1 h2
    · simp at h1
    · simp at h
    · simp only [Option.bind_eq_some_iff, Prod.exists] at h
      obtain ⟨foundFermat,lensFermat,-,h⟩ := h
      split_ifs at h <;> simp only [Option.some.injEq, reduceCtorEq, Option.bind_eq_some_iff] at h
      obtain ⟨normalized,-,h⟩ := h
      split_ifs at h <;> simp only [Option.some.injEq, reduceCtorEq, Except.ok.injEq] at h
      exact h.symm

theorem longestChain_cases (lens : ChainLengths) :
    longestChain lens = (.cunningham1, lens.nChainLengthCunningham1) ∨
    longestChain lens = (.cunningham2, lens.nChainLengthCunningham2) ∨
    longestChain lens = (.biTwin, lens.nChainLengthBiTwin) := by
  simp only [longestChain]
  split_ifs <;> simp

/-- The selected length is the largest of the three. -/
theorem meets_longestChain {lens : ChainLengths} {nBits : BitVec 32}
    (h : lens.meets nBits = true) : nBits ≤ (longestChain lens).2 := by
  simp only [ChainLengths.meets, Bool.or_eq_true, decide_eq_true_eq, ge_iff_le,
    BitVec.le_def] at h
  simp only [longestChain, BitVec.le_def, gt_iff_lt, BitVec.lt_def]
  split_ifs with hc2 hbt hbt <;> simp only at hbt ⊢ <;> omega

theorem breaksAt_fermat {fSophieGermain : Bool} {origin : ℤ} (ho : 2 ≤ origin) {j i : ℕ}
    (hb : BreaksAt fSophieGermain false origin j) (hi : i < j) :
    FermatProbablePrime (chainMember fSophieGermain origin i) := by
  have hpass := chainTest_passed_fermat ho (hb.1 i hi)
  have hpos := chainMember_pos ho fSophieGermain i
  obtain ⟨n,hn⟩ := Int.eq_ofNat_of_zero_le (show 0 ≤ chainMember fSophieGermain origin i by omega)
  rw [hn, fermat_passed_iff n (by omega)] at hpass
  rw [hn, fermatProbablePrime_natCast n (by omega)]
  exact hpass

/-- The packed bi-twin length as a number. -/
theorem biTwinLength_toNat (len1 len2 : BitVec 32) : (biTwinLength len1 len2).toNat =
    if len2.toNat/2^24 < len1.toNat/2^24 then
      (len2.toNat+(len2.toNat/2^24+1) % 2^32*2^24 % 2^32) % 2^32
    else (len1.toNat+len1.toNat/2^24*2^24 % 2^32) % 2^32 := by
  have hone : (1 : BitVec 32).toNat = 1 := rfl
  have hlt : targetGetLength len1 > targetGetLength len2 ↔
      len2.toNat/2^24 < len1.toNat/2^24 := by
    rw [gt_iff_lt, BitVec.lt_def, targetGetLength_toNat, targetGetLength_toNat]
  rw [biTwinLength]
  by_cases hmore : len2.toNat/2^24 < len1.toNat/2^24
  · rw [if_pos (hlt.mpr hmore), if_pos hmore, BitVec.toNat_add, targetFromInt_toNat,
      BitVec.toNat_add, targetGetLength_toNat, hone]
  · rw [if_neg (mt hlt.mp hmore), if_neg hmore, BitVec.toNat_add, targetFromInt_toNat,
      targetGetLength_toNat]

/-- The packed bi-twin length never exceeds what its two chains support, also when the
8-bit length field has wrapped. -/
theorem biTwinLength_bound (len1 len2 : BitVec 32) (j1 j2 : ℕ) (h1 : len1.toNat/2^24 = j1 % 256)
    (h2 : len2.toNat/2^24 = j2 % 256) :
    ((biTwinLength len1 len2).toNat/2^24+1)/2 ≤ j1 ∧
      (biTwinLength len1 len2).toNat/2^24/2 ≤ j2 := by
  have hb1 := len1.isLt
  have hb2 := len2.isLt
  rw [biTwinLength_toNat]
  split_ifs
  · omega
  · omega

/-- Soundness of the proof-of-work check: an accepted certificate names a chain of the
reported type that has the reported number of base-2 Fermat probable primes. -/
theorem checkPrimeProofOfWork_sound (params : TargetParams) (fuel : ℕ)
    (hashBlockHeader : Uint256) (nBits : BitVec 32) (bnPrimeChainMultiplier : ℤ)
    (bSkipTargetCheck : Bool) (nChainType : PrimeChainType) (nChainLength : BitVec 32)
    (h : checkPrimeProofOfWork params fuel hashBlockHeader nBits bnPrimeChainMultiplier
      bSkipTargetCheck = some (.ok (nChainType,nChainLength))) :
    2^255 ≤ hashBlockHeader.toNat ∧
    2^255 ≤ (hashBlockHeader.toNat : ℤ)*bnPrimeChainMultiplier ∧
    (hashBlockHeader.toNat : ℤ)*bnPrimeChainMultiplier ≤ 2^2000-1 ∧
    nBits ≤ nChainLength ∧
    ProbablePrimeChain nChainType (hashBlockHeader.toNat*bnPrimeChainMultiplier)
      (targetGetLength nChainLength).toNat := by
  simp only [checkPrimeProofOfWork] at h
  split_ifs at h with htarget hhash hsmall hbig
  · simp at h
  · simp at h
  · simp at h
  · simp at h
  have hlimit : 2^255 ≤ hashBlockHeader.toNat := by
    have : hashBlockHeaderLimit.toNat = 2^255 := by decide
    rw [BitVec.lt_def, this] at hhash
    omega
  set origin := (hashBlockHeader.toNat : ℤ)*bnPrimeChainMultiplier with horigin
  have hmin : 2^255 ≤ origin := by
    rw [bnPrimeMin, not_lt] at hsmall
    exact hsmall
  have hmax : origin ≤ 2^2000-1 := by
    rw [bnPrimeMax, not_lt] at hbig
    exact hbig
  refine ⟨hlimit, hmin, hmax, ?_⟩
  have ho : 2 ≤ origin := le_trans (by norm_num) hmin
  obtain ⟨lens,hlens,hbest⟩ := checkPrimeChain_ok h
  obtain ⟨j1,-,j2,-,hb1,hb2,hl1,hl2,hl3,hmeets⟩ :=
    (probablePrimeChainTest_eq_some_iff _ _ _ _ _ _).mp hlens
  have hd1 : lens.nChainLengthCunningham1.toNat/2^24 = j1 % 256 := by rw [hl1, breakLength_div]
  have hd2 : lens.nChainLengthCunningham2.toNat/2^24 = j2 % 256 := by rw [hl2, breakLength_div]
  have hf1 (i : ℕ) (hi : i < j1) : FermatProbablePrime (2^i*origin-1) := by
    have h1 := breaksAt_fermat ho hb1 hi
    rwa [chainMember, if_pos rfl, ← sub_eq_add_neg] at h1
  have hf2 (i : ℕ) (hi : i < j2) : FermatProbablePrime (2^i*origin+1) := by
    have h2 := breaksAt_fermat ho hb2 hi
    rwa [chainMember, if_neg Bool.false_ne_true] at h2
  have hmax := meets_longestChain hmeets.symm
  rw [← hbest] at hmax
  refine ⟨hmax, ?_⟩
  rw [targetGetLength_toNat]
  rcases longestChain_cases lens with hc | hc | hc <;>
    obtain ⟨rfl,rfl⟩ := Prod.mk.inj (hbest.trans hc)
  · intro i hi
    exact hf1 i (by omega)
  · intro i hi
    exact hf2 i (by omega)
  · have hbt := biTwinLength_bound _ _ j1 j2 hd1 hd2
    rw [← hl3] at hbt
    exact ⟨fun i hi => hf1 i (by omega), fun i hi => hf2 i (by omega)⟩

/-- The certificate of the genesis block: a bi-twin chain of six primes. -/
theorem checkPrimeProofOfWork_sound_genesis :
    checkPrimeProofOfWork mainNetParams 10
        0xa6d8ded5409f1d1eb0cc3c54f4dd324258cfb5d54fdd2597b0aa227a517a39f1#256 0x06000000#32
        118806100082670 false = some (.ok (.biTwin,0x06e0d80e#32)) ∧
      ProbablePrimeChain .biTwin
        ((0xa6d8ded5409f1d1eb0cc3c54f4dd324258cfb5d54fdd2597b0aa227a517a39f1#256).toNat*
          118806100082670) (targetGetLength 0x06e0d80e#32).toNat := by
  have h : checkPrimeProofOfWork mainNetParams 10
      0xa6d8ded5409f1d1eb0cc3c54f4dd324258cfb5d54fdd2597b0aa227a517a39f1#256 0x06000000#32
      118806100082670 false = some (.ok (.biTwin,0x06e0d80e#32)) := by decide +kernel
  exact ⟨h, (checkPrimeProofOfWork_sound _ _ _ _ _ _ _ _ h).2.2.2.2⟩

end Candypool.Prime
