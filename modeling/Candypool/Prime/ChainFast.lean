import Candypool.Prime.ProofOfWork

/-! The chain test of the miner. It runs on GMP integers kept in `CPrimalityTestParams` and
leaves early, where the consensus test uses fresh `CBigNum` values and runs to the end. -/
namespace Candypool.Prime
open Candypool.Lib

/-- `mpz_powm` for a base and an exponent that are not negative and a positive modulus. -/
def mpzPowm (b e m : ℤ) : ℤ := (powMod b.toNat e.toNat m.toNat : ℕ)

/-- `mpz_get_ui`: the low 64 bits of the absolute value. -/
def mpzGetUi (a : ℤ) : BitVec 64 := BitVec.ofNat 64 a.natAbs

/-- The scratch integers, the values of the round and the result. -/
structure CPrimalityTestParams where
  mpzE : ℤ
  mpzR : ℤ
  mpzRplusOne : ℤ
  mpzOriginMinusOne : ℤ
  mpzOriginPlusOne : ℤ
  N : ℤ
  nBits : BitVec 32
  nCandidateType : PrimeChainType
  nChainLength : BitVec 32

/-- The common end of both member tests: the remainder is in `mpzR`. -/
def failedMemberFast (n : ℤ) (nLength : BitVec 32) (testParams : CPrimalityTestParams) :
    MemberTest × CPrimalityTestParams :=
  let testParams := { testParams with mpzE := n-testParams.mpzR }
  let testParams := { testParams with mpzR := testParams.mpzE*2^nFractionalBits }
  let testParams := { testParams with mpzE := testParams.mpzR.tdiv n }
  let nFractionalLength := (mpzGetUi testParams.mpzE).setWidth 32
  if nFractionalLength ≥ 1 <<< nFractionalBits then
    (⟨false, nLength, some .fractionalAssert⟩, testParams)
  else (⟨false, setFractionalLength nLength nFractionalLength, none⟩, testParams)

def fermatProbablePrimalityTestFast (n : ℤ) (nLength : BitVec 32)
    (testParams : CPrimalityTestParams) (fFastFail : Bool) : MemberTest × CPrimalityTestParams :=
  let testParams := { testParams with mpzE := n-1 }
  let testParams := { testParams with mpzR := mpzPowm 2 testParams.mpzE n }
  if testParams.mpzR = 1 then (⟨true, nLength, none⟩, testParams)
  else if fFastFail then (⟨false, nLength, none⟩, testParams)
  else failedMemberFast n nLength testParams

def eulerLagrangeLifchitzPrimalityTestFast (n : ℤ) (fSophieGermain : Bool) (nLength : BitVec 32)
    (testParams : CPrimalityTestParams) : MemberTest × CPrimalityTestParams :=
  let testParams := { testParams with mpzE := n-1 }
  let testParams := { testParams with mpzE := testParams.mpzE.tdiv 2 }
  let testParams := { testParams with mpzR := mpzPowm 2 testParams.mpzE n }
  let nMod8 := (mpzGetUi n % 8).setWidth 32
  let plusOne := { testParams with mpzRplusOne := testParams.mpzR+1 }
  let (fPassedTest, testParams) : Option Bool × CPrimalityTestParams :=
    if fSophieGermain && nMod8 == 7 then (some (testParams.mpzR == 1), testParams)
    else if fSophieGermain && nMod8 == 3 then (some (plusOne.mpzRplusOne == n), plusOne)
    else if !fSophieGermain && nMod8 == 5 then (some (plusOne.mpzRplusOne == n), plusOne)
    else if !fSophieGermain && nMod8 == 1 then (some (testParams.mpzR == 1), testParams)
    else (none, testParams)
  match fPassedTest with
  | none => (⟨false, nLength, some .invalidMod8⟩, testParams)
  | some true => (⟨true, nLength, none⟩, testParams)
  | some false =>
    let testParams := { testParams with mpzE := testParams.mpzR*testParams.mpzR }
    let testParams := { testParams with mpzR := testParams.mpzE.tmod n }
    failedMemberFast n nLength testParams

def memberTestFast (fSophieGermain fFermatTest : Bool) (N : ℤ) (nLength : BitVec 32)
    (testParams : CPrimalityTestParams) : MemberTest × CPrimalityTestParams :=
  if fFermatTest then fermatProbablePrimalityTestFast N nLength testParams false
  else eulerLagrangeLifchitzPrimalityTestFast N fSophieGermain nLength testParams

def chainLoopFast (fSophieGermain fFermatTest : Bool) :
    ℕ → BitVec 32 → CPrimalityTestParams → Option (BitVec 32 × CPrimalityTestParams)
  | 0, _, _ => none
  | fuel+1, nProbableChainLength, testParams =>
    let nProbableChainLength := targetIncrementLength nProbableChainLength
    let testParams := { testParams with N := testParams.N*2^1 }
    let testParams := { testParams with N := testParams.N+(if fSophieGermain then 1 else -1) }
    let (test, testParams) :=
      memberTestFast fSophieGermain fFermatTest testParams.N nProbableChainLength testParams
    if test.passed then chainLoopFast fSophieGermain fFermatTest fuel test.nLength testParams
    else some (test.nLength, testParams)

def probableCunninghamChainTestFast (fuel : ℕ) (n : ℤ) (fSophieGermain fFermatTest : Bool)
    (testParams : CPrimalityTestParams) : Option (Bool × BitVec 32 × CPrimalityTestParams) :=
  let (test, testParams) := fermatProbablePrimalityTestFast n 0 testParams true
  if test.passed then
    (chainLoopFast fSophieGermain fFermatTest fuel test.nLength { testParams with N := n }).map
      fun (nProbableChainLength, testParams) =>
        (decide (targetGetLength nProbableChainLength ≥ 2), nProbableChainLength, testParams)
  else some (false, test.nLength, testParams)

def probablePrimeChainTestFast (fuel : ℕ) (mpzPrimeChainOrigin : ℤ)
    (testParams : CPrimalityTestParams) : Option (Bool × CPrimalityTestParams) := do
  let nBits := testParams.nBits
  let testParams := { testParams with nChainLength := 0 }
  let testParams ← match testParams.nCandidateType with
    | .cunningham1 => do
      let testParams := { testParams with mpzOriginMinusOne := mpzPrimeChainOrigin-1 }
      let (_, nChainLength, testParams) ←
        probableCunninghamChainTestFast fuel testParams.mpzOriginMinusOne true false testParams
      some { testParams with nChainLength := nChainLength }
    | .cunningham2 => do
      let testParams := { testParams with mpzOriginPlusOne := mpzPrimeChainOrigin+1 }
      let (_, nChainLength, testParams) ←
        probableCunninghamChainTestFast fuel testParams.mpzOriginPlusOne false false testParams
      some { testParams with nChainLength := nChainLength }
    | .biTwin => do
      let testParams := { testParams with mpzOriginMinusOne := mpzPrimeChainOrigin-1 }
      let (found, nChainLengthCunningham1, testParams) ←
        probableCunninghamChainTestFast fuel testParams.mpzOriginMinusOne true false testParams
      if found then do
        let testParams := { testParams with mpzOriginPlusOne := mpzPrimeChainOrigin+1 }
        let (_, nChainLengthCunningham2, testParams) ←
          probableCunninghamChainTestFast fuel testParams.mpzOriginPlusOne false false testParams
        some { testParams with
          nChainLength := biTwinLength nChainLengthCunningham1 nChainLengthCunningham2 }
      else some testParams
  return (decide (testParams.nChainLength ≥ nBits), testParams)

/-- The length the consensus test computes for one chain type. -/
def ChainLengths.ofType (lens : ChainLengths) : PrimeChainType → BitVec 32
  | .cunningham1 => lens.nChainLengthCunningham1
  | .cunningham2 => lens.nChainLengthCunningham2
  | .biTwin => lens.nChainLengthBiTwin

theorem mpzPowm_eq (b e m : ℤ) : mpzPowm b e m = bnModExp b e m := rfl

/-- `mpz_get_ui` and `BN_get_word` agree on a number of one word. -/
theorem mpzGetUi_getuint (a : ℤ) (ha : a.natAbs < 2^64) :
    (mpzGetUi a).setWidth 32 = getuint a := by
  rw [mpzGetUi, getuint, if_pos ha]
  exact BitVec.setWidth_ofNat_of_le (by norm_num) _

theorem mpzGetUi_mod8 (n k : ℕ) (hk : k < 8) :
    ((mpzGetUi n % 8).setWidth 32 == BitVec.ofNat 32 k) = (bnMod (n : ℤ) 8 == (k : ℤ)) := by
  have hmod : bnMod (n : ℤ) 8 = ((n % 8 : ℕ) : ℤ) := by
    rw [bnMod, Int.tmod_eq_emod_of_nonneg (by omega)]
    rfl
  rw [Bool.eq_iff_iff, beq_iff_eq, beq_iff_eq, hmod, Nat.cast_inj, ← BitVec.toNat_inj,
    BitVec.toNat_setWidth, BitVec.toNat_umod, mpzGetUi, Int.natAbs_natCast, BitVec.toNat_ofNat,
    BitVec.toNat_ofNat]
  have h8 : (8 : BitVec 64).toNat = 8 := rfl
  rw [h8]
  omega

/-- A member test writes the scratch integers only. -/
def SameRound (tp tp' : CPrimalityTestParams) : Prop :=
  tp'.N = tp.N ∧ tp'.nChainLength = tp.nChainLength

section Member
variable (n : ℕ) (nLength : BitVec 32) (testParams : CPrimalityTestParams)

theorem failedMemberFast_eq (r : ℕ) (hr : r ≤ n) (hR : testParams.mpzR = r) :
    (failedMemberFast n nLength testParams).1 = failedMember n r nLength := by
  have hword : (mpzGetUi ((((n : ℤ)-r)*2^nFractionalBits).tdiv n)).setWidth 32 =
      fractionalLength n r := by
    apply mpzGetUi_getuint
    have hcast : ((n : ℤ)-r)*2^nFractionalBits = ((n-r)*2^24 : ℕ) := by
      simp only [nFractionalBits]
      push_cast [Nat.cast_sub hr]
      ring
    rw [hcast, Int.tdiv_eq_ediv_of_nonneg (by positivity), ← Int.natCast_ediv, Int.natAbs_natCast]
    have hle : (n-r)*2^24/n ≤ 2^24 := Nat.div_le_of_le_mul (Nat.mul_le_mul_right _ (by omega))
    exact hle.trans_lt (by norm_num)
  simp only [failedMemberFast, failedMember, hR, hword]
  split_ifs <;> rfl

theorem failedMemberFast_sameRound :
    SameRound testParams (failedMemberFast n nLength testParams).2 := by
  simp only [failedMemberFast]
  split_ifs <;> exact ⟨rfl, rfl⟩

theorem fermatFast_eq (hn : 0 < n) :
    (fermatProbablePrimalityTestFast n nLength testParams false).1 =
      fermatProbablePrimalityTest n nLength := by
  have he : (n : ℤ)-1 = ((n-1 : ℕ) : ℤ) := by omega
  simp only [fermatProbablePrimalityTestFast, fermatProbablePrimalityTest, mpzPowm_eq, he,
    bnModExp_two _ _ hn, Bool.false_eq_true, if_false]
  split_ifs
  · rfl
  · exact failedMemberFast_eq _ _ _ _ (Nat.mod_lt _ hn).le rfl

theorem fermatFast_sameRound (fFastFail : Bool) :
    SameRound testParams (fermatProbablePrimalityTestFast n nLength testParams fFastFail).2 := by
  simp only [fermatProbablePrimalityTestFast]
  split_ifs
  · exact ⟨rfl, rfl⟩
  · exact ⟨rfl, rfl⟩
  · exact failedMemberFast_sameRound n nLength { testParams with mpzE := _, mpzR := _ }

/-- With `fFastFail` the verdict is the same and the length is not touched. -/
theorem fermatFast_fastFail :
    (fermatProbablePrimalityTestFast n nLength testParams true).1.passed =
        (fermatProbablePrimalityTest n nLength).passed ∧
      (fermatProbablePrimalityTestFast n nLength testParams true).1.nLength = nLength := by
  simp only [fermatProbablePrimalityTestFast, fermatProbablePrimalityTest, mpzPowm_eq, if_true]
  split_ifs
  · exact ⟨rfl, rfl⟩
  · exact ⟨(failedMember_passed _ _ _).symm, rfl⟩

theorem ellFast_eq (hn : 0 < n) (fSophieGermain : Bool) :
    (eulerLagrangeLifchitzPrimalityTestFast n fSophieGermain nLength testParams).1 =
        eulerLagrangeLifchitzPrimalityTest n fSophieGermain nLength ∧
      SameRound testParams
        (eulerLagrangeLifchitzPrimalityTestFast n fSophieGermain nLength testParams).2 := by
  have he : ((n : ℤ)-1).tdiv 2 = bnShiftRight ((n : ℤ)-1) 1 := by
    rcases Nat.lt_or_ge n 3 with h | h
    · have hgt : (2 : ℤ)^1 > (n : ℤ)-1 := by omega
      rw [bnShiftRight, if_pos hgt, Int.tdiv_eq_ediv_of_nonneg (by omega)]
      change _ = (0 : ℤ)
      omega
    · have hgt : ¬ (2 : ℤ)^1 > (n : ℤ)-1 := by omega
      rw [bnShiftRight, if_neg hgt, pow_one]
  have h7 := mpzGetUi_mod8 n 7 (by norm_num)
  have h3 := mpzGetUi_mod8 n 3 (by norm_num)
  have h5 := mpzGetUi_mod8 n 5 (by norm_num)
  have h1 := mpzGetUi_mod8 n 1 (by norm_num)
  simp only [BitVec.ofNat_eq_ofNat, Nat.cast_ofNat, Nat.cast_one] at h7 h3 h5 h1
  set r := bnModExp 2 (bnShiftRight ((n : ℤ)-1) 1) n with hr
  have hrem : ∃ m : ℕ, m ≤ n ∧ (r*r).tmod n = (m : ℤ) := by
    refine ⟨((r*r).tmod n).toNat, ?_, ?_⟩
    all_goals
      have hpos : 0 ≤ r*r := mul_self_nonneg r
      have hlt := Int.emod_lt_of_pos (r*r) (show (0 : ℤ) < n by omega)
      have hge := Int.emod_nonneg (r*r) (show (n : ℤ) ≠ 0 by omega)
      rw [Int.tmod_eq_emod_of_nonneg hpos]
      omega
  obtain ⟨m,hm,hrm⟩ := hrem
  simp only [eulerLagrangeLifchitzPrimalityTestFast, eulerLagrangeLifchitzPrimalityTest, mpzPowm_eq,
    he, BitVec.ofNat_eq_ofNat, h7, h3, h5, h1, ← hr]
  have hfail (tp : CPrimalityTestParams) (hR : tp.mpzR = (m : ℤ)) (hN : SameRound testParams tp) :
      (failedMemberFast n nLength tp).1 = failedMember n (bnMod (r*r) n) nLength ∧
        SameRound testParams (failedMemberFast n nLength tp).2 := by
    have hround := failedMemberFast_sameRound n nLength tp
    rw [failedMemberFast_eq n nLength tp m hm hR, bnMod, hrm]
    exact ⟨rfl, hround.1.trans hN.1, hround.2.trans hN.2⟩
  split_ifs
  · cases r == 1
    · exact hfail _ hrm ⟨rfl, rfl⟩
    · exact ⟨rfl, rfl, rfl⟩
  · cases r+1 == (n : ℤ)
    · exact hfail _ hrm ⟨rfl, rfl⟩
    · exact ⟨rfl, rfl, rfl⟩
  · cases r+1 == (n : ℤ)
    · exact hfail _ hrm ⟨rfl, rfl⟩
    · exact ⟨rfl, rfl, rfl⟩
  · cases r == 1
    · exact hfail _ hrm ⟨rfl, rfl⟩
    · exact ⟨rfl, rfl, rfl⟩
  · exact ⟨rfl, rfl, rfl⟩

theorem memberTestFast_eq (hn : 0 < n) (fSophieGermain fFermatTest : Bool) :
    (memberTestFast fSophieGermain fFermatTest n nLength testParams).1 =
        memberTest fSophieGermain fFermatTest n nLength ∧
      SameRound testParams
        (memberTestFast fSophieGermain fFermatTest n nLength testParams).2 := by
  cases fFermatTest
  · simp only [memberTestFast, memberTest, Bool.false_eq_true, if_false]
    exact ellFast_eq n nLength testParams hn fSophieGermain
  · simp only [memberTestFast, memberTest, if_true]
    exact ⟨fermatFast_eq n nLength testParams hn, fermatFast_sameRound n nLength testParams false⟩

end Member

/-- The loop of the miner runs through the members the consensus loop runs through. -/
theorem chainLoopFast_eq {fSophieGermain fFermatTest : Bool} {fuel : ℕ} {nLength L : BitVec 32}
    (testParams : CPrimalityTestParams) (hN : 2 ≤ testParams.N)
    (h : chainLoop fSophieGermain fFermatTest fuel testParams.N nLength = some L) :
    ∃ tp, chainLoopFast fSophieGermain fFermatTest fuel nLength testParams = some (L,tp) ∧
      tp.nChainLength = testParams.nChainLength := by
  induction fuel generalizing nLength testParams with
  | zero => exact absurd h (by simp [chainLoop])
  | succ fuel ih =>
    have hnext : testParams.N*2^1+(if fSophieGermain then 1 else -1) =
        testParams.N+testParams.N+(if fSophieGermain then 1 else -1) := by ring
    have hpos : 2 ≤ testParams.N+testParams.N+(if fSophieGermain then 1 else -1) := by
      split_ifs <;> omega
    obtain ⟨n,hn⟩ := Int.eq_ofNat_of_zero_le
      (show 0 ≤ testParams.N+testParams.N+(if fSophieGermain then 1 else -1) by omega)
    obtain ⟨htest,hround⟩ := memberTestFast_eq n (targetIncrementLength nLength)
      { testParams with N := (n : ℤ) } (by omega) fSophieGermain fFermatTest
    simp only [chainLoop, hn] at h
    simp only [chainLoopFast, hnext, hn]
    rw [htest]
    split_ifs at h ⊢ with hp
    · have hN' := hround.1
      obtain ⟨tp,hloop,hlen⟩ := ih _ (by rw [hN']; change 2 ≤ (n : ℤ); omega) (by rw [hN']; exact h)
      exact ⟨tp, hloop, hlen.trans hround.2⟩
    · exact ⟨_, by rw [Option.some.inj h], hround.2⟩

/-- A test of the miner returns when the consensus test does. The lengths agree unless the
first member fails, whose fraction the miner drops. -/
theorem probableCunninghamChainTestFast_eq {fuel : ℕ} {n : ℤ} (hn : 2 ≤ n)
    {fSophieGermain fFermatTest b : Bool} {L : BitVec 32}
    (h : probableCunninghamChainTest fuel n fSophieGermain fFermatTest = some (b,L))
    (testParams : CPrimalityTestParams) :
    ∃ L' tp, probableCunninghamChainTestFast fuel n fSophieGermain fFermatTest testParams =
        some (b,L',tp) ∧ tp.nChainLength = testParams.nChainLength ∧
      (b = true → 2*2^24 ≤ L.toNat) ∧ (b = false → L.toNat < 2*2^24) ∧
      (L' = L ∨ L' = 0 ∧ L.toNat < 2^24) := by
  obtain ⟨m,rfl⟩ := Int.eq_ofNat_of_zero_le (show 0 ≤ n by omega)
  have hfast := fermatFast_fastFail m 0 testParams
  have hround := (fermatFast_sameRound m 0 testParams true).2
  have hdiv := fermat_length_div (m : ℤ) 0
  have h0 : (0 : BitVec 32).toNat = 0 := rfl
  simp only [probableCunninghamChainTest] at h
  simp only [probableCunninghamChainTestFast]
  rw [hfast.1, hfast.2]
  split_ifs at h ⊢ with hp
  · rw [fermat_passed_nLength _ _ hp, Option.map_eq_some_iff] at h
    obtain ⟨l,hl,he⟩ := h
    obtain ⟨rfl,rfl⟩ := Prod.mk.inj he
    obtain ⟨tp,hloop,hlen⟩ := chainLoopFast_eq
      { (fermatProbablePrimalityTestFast m 0 testParams true).2 with N := (m : ℤ) } hn hl
    have htwo : (2 : BitVec 32).toNat = 2 := rfl
    simp only [hloop, Option.map_some]
    refine ⟨l, tp, rfl, hlen.trans hround, ?_, ?_, Or.inl rfl⟩
    all_goals
      simp only [decide_eq_true_eq, decide_eq_false_iff_not, ge_iff_le, BitVec.le_def,
        targetGetLength_toNat, htwo]
      omega
  · obtain ⟨rfl,rfl⟩ := Prod.mk.inj (Option.some.inj h)
    rw [h0] at hdiv
    refine ⟨0, _, rfl, hround, fun hf => Bool.noConfusion hf, fun _ => ?_, Or.inr ⟨rfl, ?_⟩⟩
    all_goals omega

/-- A bi-twin candidate whose first-kind chain is shorter than two stays below 3.0. -/
theorem biTwinLength_lt_three (len1 len2 : BitVec 32) (h : len1.toNat < 2*2^24) :
    (biTwinLength len1 len2).toNat < 3*2^24 := by
  rw [biTwinLength_toNat]
  split_ifs
  · omega
  · omega

/-- A bi-twin candidate whose second-kind chain is empty stays below 2.0. -/
theorem biTwinLength_lt_two (len1 len2 : BitVec 32) (h1 : 2*2^24 ≤ len1.toNat)
    (h2 : len2.toNat < 2^24) : (biTwinLength len1 len2).toNat < 2*2^24 := by
  rw [biTwinLength_toNat, if_pos (by omega)]
  omega

/-- Two lengths give the same verdict on a target of at least 3.0 when they are equal or
both below 3.0. -/
def SameVerdict (fast consensus : BitVec 32) : Prop :=
  fast = consensus ∨ fast.toNat < 3*2^24 ∧ consensus.toNat < 3*2^24

theorem sameVerdict_meets {fast consensus nBits : BitVec 32} (h : SameVerdict fast consensus)
    (hBits : 3 ≤ (targetGetLength nBits).toNat) :
    (nBits ≤ fast ↔ nBits ≤ consensus) ∧ (nBits ≤ fast → fast = consensus) := by
  rw [targetGetLength_toNat] at hBits
  rcases h with rfl | ⟨hf,hc⟩
  · exact ⟨Iff.rfl, fun _ => rfl⟩
  · rw [BitVec.le_def, BitVec.le_def]
    exact ⟨by omega, by omega⟩

/-- Where the consensus test returns, so does the test of the miner, with a length that has
the same verdict. -/
theorem probablePrimeChainTestFast_sameVerdict {fuel : ℕ} {origin : ℤ} (ho : 3 ≤ origin)
    {nBits : BitVec 32} {b : Bool} {lens : ChainLengths}
    (h : probablePrimeChainTest fuel origin nBits false = some (b,lens))
    (testParams : CPrimalityTestParams) :
    ∃ tp, probablePrimeChainTestFast fuel origin testParams =
        some (decide (testParams.nBits ≤ tp.nChainLength),tp) ∧
      SameVerdict tp.nChainLength (lens.ofType testParams.nCandidateType) := by
  simp only [probablePrimeChainTest, Option.bind_eq_bind, Option.bind_eq_some_iff, Prod.exists,
    Option.pure_def, Option.some.injEq, Prod.mk.injEq] at h
  obtain ⟨b1,len1,h1,b2,len2,h2,-,rfl⟩ := h
  have hfast1 := probableCunninghamChainTestFast_eq (show 2 ≤ origin-1 by omega) h1
  have hfast2 := probableCunninghamChainTestFast_eq (show 2 ≤ origin+1 by omega) h2
  have hzero : (0 : BitVec 32).toNat < 3*2^24 := by decide
  obtain ⟨E,R,RplusOne,minusOne,plusOne,N,bits,nCandidateType,nChainLength⟩ := testParams
  cases nCandidateType with
  | cunningham1 =>
    obtain ⟨L,tp,hL,-,-,-,hlen⟩ :=
      hfast1 ⟨E, R, RplusOne, origin-1, plusOne, N, bits, .cunningham1, 0⟩
    refine ⟨{ tp with nChainLength := L }, ?_, ?_⟩
    · simp only [probablePrimeChainTestFast, hL]
      rfl
    · rcases hlen with rfl | ⟨rfl,hlen⟩
      · exact Or.inl rfl
      · exact Or.inr ⟨hzero, by change len1.toNat < _; omega⟩
  | cunningham2 =>
    obtain ⟨L,tp,hL,-,-,-,hlen⟩ :=
      hfast2 ⟨E, R, RplusOne, minusOne, origin+1, N, bits, .cunningham2, 0⟩
    refine ⟨{ tp with nChainLength := L }, ?_, ?_⟩
    · simp only [probablePrimeChainTestFast, hL]
      rfl
    · rcases hlen with rfl | ⟨rfl,hlen⟩
      · exact Or.inl rfl
      · exact Or.inr ⟨hzero, by change len2.toNat < _; omega⟩
  | biTwin =>
    obtain ⟨L1,tp1,hL1,hkeep,htrue,hfalse,hlen1⟩ :=
      hfast1 ⟨E, R, RplusOne, origin-1, plusOne, N, bits, .biTwin, 0⟩
    cases b1 with
    | false =>
      -- the second-kind test is skipped and the length stays 0
      refine ⟨tp1, ?_, Or.inr ⟨?_, ?_⟩⟩
      · simp only [probablePrimeChainTestFast, hL1]
        rfl
      · rw [hkeep]
        exact hzero
      · exact biTwinLength_lt_three len1 len2 (hfalse rfl)
    | true =>
      obtain ⟨L2,tp2,hL2,-,-,-,hlen2⟩ := hfast2 { tp1 with mpzOriginPlusOne := origin+1 }
      have h1 := htrue rfl
      refine ⟨{ tp2 with nChainLength := biTwinLength L1 L2 }, ?_, ?_⟩
      · simp only [probablePrimeChainTestFast, hL1]
        simp only [Option.bind_eq_bind, Option.bind_some, if_true, hL2]
        rfl
      · obtain rfl : L1 = len1 := by
          rcases hlen1 with h | ⟨-,h⟩
          · exact h
          · omega
        rcases hlen2 with rfl | ⟨rfl,h2⟩
        · exact Or.inl rfl
        · have hf := biTwinLength_lt_two L1 0 h1 (by decide)
          have hc := biTwinLength_lt_two L1 len2 h1 h2
          exact Or.inr ⟨hf.trans (by norm_num), hc.trans (by norm_num)⟩

/-- The miner and the consensus agree: on an origin of the protocol, even or odd, and a target
of at least 3.0 the fast test succeeds exactly when the consensus length of the candidate type
meets the target, and then it reports that length. -/
theorem miner_chain_test_agrees (origin : ℤ) (hmin : 2^255 ≤ origin)
    (testParams : CPrimalityTestParams) (hBits : 3 ≤ (targetGetLength testParams.nBits).toNat) :
    (∀ fuel b lens, probablePrimeChainTest fuel origin testParams.nBits false = some (b,lens) →
      ∃ ret tp, probablePrimeChainTestFast fuel origin testParams = some (ret,tp) ∧
        (ret = true ↔ lens.ofType testParams.nCandidateType ≥ testParams.nBits) ∧
        (ret = true → tp.nChainLength = lens.ofType testParams.nCandidateType)) ∧
    (origin ≤ 2^2000-1 →
      ∃ b lens, probablePrimeChainTest (2^24) origin testParams.nBits false = some (b,lens)) := by
  have ho : 3 ≤ origin := le_trans (by norm_num) hmin
  refine ⟨fun fuel b lens h => ?_, fun hmax => ?_⟩
  · obtain ⟨tp,hfast,hsame⟩ := probablePrimeChainTestFast_sameVerdict ho h testParams
    obtain ⟨hiff,heq⟩ := sameVerdict_meets hsame hBits
    refine ⟨_, tp, hfast, ?_, fun hret => heq (of_decide_eq_true hret)⟩
    rw [decide_eq_true_eq, ge_iff_le, hiff]
  · exact probablePrimeChainTest_returns origin (by omega) hmax testParams.nBits false

/-- The genesis origin as a bi-twin candidate, from a dirty scratch state. -/
theorem miner_chain_test_agrees_genesis :
    ∃ ret tp, probablePrimeChainTestFast 10
        (0xa6d8ded5409f1d1eb0cc3c54f4dd324258cfb5d54fdd2597b0aa227a517a39f1*118806100082670)
        ⟨5, 7, 11, 13, 17, 19, 0x06000000#32, .biTwin, 23⟩ = some (ret,tp) ∧ ret = true ∧
      tp.nChainLength = 0x06e0d80e#32 := by
  have h : probablePrimeChainTest 10
      (0xa6d8ded5409f1d1eb0cc3c54f4dd324258cfb5d54fdd2597b0aa227a517a39f1*118806100082670)
      0x06000000#32 false = some (true,⟨0x03e0d80e#32,0x03a061bd#32,0x06e0d80e#32⟩) := by
    decide +kernel
  obtain ⟨ret,tp,hfast,hiff,heq⟩ := (miner_chain_test_agrees
    (0xa6d8ded5409f1d1eb0cc3c54f4dd324258cfb5d54fdd2597b0aa227a517a39f1*118806100082670)
    (by norm_num) ⟨5, 7, 11, 13, 17, 19, 0x06000000#32, .biTwin, 23⟩ (by decide)).1 10 _ _ h
  have hret : ret = true := hiff.mpr (by decide)
  exact ⟨ret, tp, hfast, hret, heq hret⟩

end Candypool.Prime
