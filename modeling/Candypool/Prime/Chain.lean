import Candypool.Prime.MemberTests

/-! The chain tests of the consensus rule. The `while (true)` loop of
`ProbableCunninghamChainTest` runs on fuel; `none` is a loop that has not ended yet. -/
namespace Candypool.Prime

/-- The Fermat test, or the Euler-Lagrange-Lifchitz test, of a member after the first. -/
def memberTest (fSophieGermain fFermatTest : Bool) (N : CBigNum) (nLength : BitVec 32) :
    MemberTest :=
  if fFermatTest then fermatProbablePrimalityTest N nLength
  else eulerLagrangeLifchitzPrimalityTest N fSophieGermain nLength

def chainLoop (fSophieGermain fFermatTest : Bool) :
    ℕ → CBigNum → BitVec 32 → Option (BitVec 32)
  | 0, _, _ => none
  | fuel+1, N, nProbableChainLength =>
    let nProbableChainLength := targetIncrementLength nProbableChainLength
    let N := N+N+(if fSophieGermain then 1 else -1)
    let test := memberTest fSophieGermain fFermatTest N nProbableChainLength
    if test.passed then chainLoop fSophieGermain fFermatTest fuel N test.nLength
    else some test.nLength

def probableCunninghamChainTest (fuel : ℕ) (n : CBigNum) (fSophieGermain fFermatTest : Bool) :
    Option (Bool × BitVec 32) :=
  let test := fermatProbablePrimalityTest n 0
  if test.passed then
    (chainLoop fSophieGermain fFermatTest fuel n test.nLength).map
      fun nProbableChainLength => (decide (targetGetLength nProbableChainLength ≥ 2),
        nProbableChainLength)
  else some (false, test.nLength)

/-- The three lengths `ProbablePrimeChainTest` computes. -/
structure ChainLengths where
  nChainLengthCunningham1 : BitVec 32
  nChainLengthCunningham2 : BitVec 32
  nChainLengthBiTwin : BitVec 32
  deriving DecidableEq, Repr

/-- A bi-twin chain allows a single prime at the end for an odd length. -/
def biTwinLength (len1 len2 : BitVec 32) : BitVec 32 :=
  if targetGetLength len1 > targetGetLength len2 then
    len2+targetFromInt (targetGetLength len2+1)
  else len1+targetFromInt (targetGetLength len1)

def ChainLengths.meets (lens : ChainLengths) (nBits : BitVec 32) : Bool :=
  decide (lens.nChainLengthCunningham1 ≥ nBits) || decide (lens.nChainLengthCunningham2 ≥ nBits) ||
    decide (lens.nChainLengthBiTwin ≥ nBits)

def probablePrimeChainTest (fuel : ℕ) (bnPrimeChainOrigin : CBigNum) (nBits : BitVec 32)
    (fFermatTest : Bool) : Option (Bool × ChainLengths) := do
  let (_,len1) ← probableCunninghamChainTest fuel (bnPrimeChainOrigin-1) true fFermatTest
  let (_,len2) ← probableCunninghamChainTest fuel (bnPrimeChainOrigin+1) false fFermatTest
  let lens : ChainLengths := ⟨len1, len2, biTwinLength len1 len2⟩
  return (lens.meets nBits, lens)

/-- The members `2^j * origin - 1` of a first-kind and `2^j * origin + 1` of a
second-kind chain. -/
def chainMember (fSophieGermain : Bool) (origin : ℤ) (j : ℕ) : ℤ :=
  2^j*origin+(if fSophieGermain then -1 else 1)

/-- The test applied to the member at position `j`: always Fermat for the first. -/
def chainTest (fSophieGermain fFermatTest : Bool) (origin : ℤ) (j : ℕ) (nLength : BitVec 32) :
    MemberTest :=
  if j = 0 then fermatProbablePrimalityTest (chainMember fSophieGermain origin 0) nLength
  else memberTest fSophieGermain fFermatTest (chainMember fSophieGermain origin j) nLength

/-- The chain breaks at `j`: the members before it pass and member `j` does not. -/
def BreaksAt (fSophieGermain fFermatTest : Bool) (origin : ℤ) (j : ℕ) : Prop :=
  (∀ i < j, (chainTest fSophieGermain fFermatTest origin i 0).passed = true) ∧
    (chainTest fSophieGermain fFermatTest origin j 0).passed = false

/-- The packed length of a chain that breaks at `j`. -/
def breakLength (fSophieGermain fFermatTest : Bool) (origin : ℤ) (j : ℕ) : BitVec 32 :=
  (chainTest fSophieGermain fFermatTest origin j (BitVec.ofNat 32 (j*2^24))).nLength

theorem chainMember_succ (fSophieGermain : Bool) (origin : ℤ) (j : ℕ) :
    chainMember fSophieGermain origin j+chainMember fSophieGermain origin j+
      (if fSophieGermain then 1 else -1) = chainMember fSophieGermain origin (j+1) := by
  cases fSophieGermain <;> simp only [chainMember, Bool.false_eq_true, if_true, if_false] <;> ring

section Results
variable (fSophieGermain fFermatTest : Bool) (N : CBigNum) (nLength : BitVec 32)

theorem fermat_passed_nLength (h : (fermatProbablePrimalityTest N nLength).passed = true) :
    (fermatProbablePrimalityTest N nLength).nLength = nLength := by
  simp only [fermatProbablePrimalityTest] at h ⊢
  split_ifs with hr
  · rfl
  · simp only [hr, if_false, failedMember_passed, Bool.false_eq_true] at h

theorem fermat_passed_length_indep (l : BitVec 32) :
    (fermatProbablePrimalityTest N nLength).passed = (fermatProbablePrimalityTest N l).passed := by
  simp only [fermatProbablePrimalityTest]
  split_ifs
  · rfl
  · rw [failedMember_passed, failedMember_passed]

theorem fermat_length_div :
    (fermatProbablePrimalityTest N nLength).nLength.toNat/2^24 = nLength.toNat/2^24 := by
  simp only [fermatProbablePrimalityTest]
  split_ifs
  · rfl
  · exact failedMember_length _ _ _

/-- The verdict of the Euler-Lagrange-Lifchitz test as a function of its three outcomes. -/
theorem ell_cases :
    (eulerLagrangeLifchitzPrimalityTest N fSophieGermain nLength =
        ⟨false, nLength, some .invalidMod8⟩ ∧
      ∀ l, (eulerLagrangeLifchitzPrimalityTest N fSophieGermain l).passed = false) ∨
    (eulerLagrangeLifchitzPrimalityTest N fSophieGermain nLength = ⟨true, nLength, none⟩ ∧
      ∀ l, (eulerLagrangeLifchitzPrimalityTest N fSophieGermain l).passed = true) ∨
    (∃ r, eulerLagrangeLifchitzPrimalityTest N fSophieGermain nLength = failedMember N r nLength ∧
      ∀ l, (eulerLagrangeLifchitzPrimalityTest N fSophieGermain l).passed = false) := by
  simp only [eulerLagrangeLifchitzPrimalityTest]
  split
  · exact Or.inl ⟨rfl, fun _ => rfl⟩
  · exact Or.inr (Or.inl ⟨rfl, fun _ => rfl⟩)
  · exact Or.inr (Or.inr ⟨_, rfl, fun _ => failedMember_passed _ _ _⟩)

theorem memberTest_passed_nLength
    (h : (memberTest fSophieGermain fFermatTest N nLength).passed = true) :
    (memberTest fSophieGermain fFermatTest N nLength).nLength = nLength := by
  cases fFermatTest
  · simp only [memberTest, Bool.false_eq_true, if_false] at h ⊢
    rcases ell_cases fSophieGermain N nLength with ⟨he,hp⟩ | ⟨he,_⟩ | ⟨r,_,hp⟩
    · exact absurd h (by simp [hp])
    · rw [he]
    · exact absurd h (by simp [hp])
  · simp only [memberTest, if_true] at h ⊢
    exact fermat_passed_nLength N nLength h

theorem memberTest_length_div :
    (memberTest fSophieGermain fFermatTest N nLength).nLength.toNat/2^24 =
      nLength.toNat/2^24 := by
  cases fFermatTest
  · simp only [memberTest, Bool.false_eq_true, if_false]
    rcases ell_cases fSophieGermain N nLength with ⟨he,_⟩ | ⟨he,_⟩ | ⟨r,he,_⟩ <;> rw [he]
    exact failedMember_length _ _ _
  · simp only [memberTest, if_true]
    exact fermat_length_div N nLength

theorem memberTest_passed_indep (l : BitVec 32) :
    (memberTest fSophieGermain fFermatTest N nLength).passed =
      (memberTest fSophieGermain fFermatTest N l).passed := by
  cases fFermatTest
  · simp only [memberTest, Bool.false_eq_true, if_false]
    rcases ell_cases fSophieGermain N nLength with ⟨_,hp⟩ | ⟨_,hp⟩ | ⟨_,_,hp⟩ <;> rw [hp, hp]
  · simp only [memberTest, if_true]
    exact fermat_passed_length_indep N nLength l

end Results

section Loop
variable (fSophieGermain fFermatTest : Bool) (origin : ℤ)

theorem chainTest_passed_indep (j : ℕ) (nLength l : BitVec 32) :
    (chainTest fSophieGermain fFermatTest origin j nLength).passed =
      (chainTest fSophieGermain fFermatTest origin j l).passed := by
  simp only [chainTest]
  split_ifs
  · exact fermat_passed_length_indep _ _ _
  · exact memberTest_passed_indep _ _ _ _ _

theorem chainTest_passed_nLength (j : ℕ) (nLength : BitVec 32)
    (h : (chainTest fSophieGermain fFermatTest origin j nLength).passed = true) :
    (chainTest fSophieGermain fFermatTest origin j nLength).nLength = nLength := by
  simp only [chainTest] at h ⊢
  split_ifs at h ⊢
  · exact fermat_passed_nLength _ _ h
  · exact memberTest_passed_nLength _ _ _ _ h

/-- The whole part of the packed length is the number of members before the break,
modulo the 8 bits it is kept in. -/
theorem breakLength_div (j : ℕ) :
    (breakLength fSophieGermain fFermatTest origin j).toNat/2^24 = j % 256 := by
  have hbase : (BitVec.ofNat 32 (j*2^24)).toNat/2^24 = j % 256 := by
    rw [BitVec.toNat_ofNat]
    omega
  rw [breakLength, ← hbase]
  simp only [chainTest]
  split_ifs
  · exact fermat_length_div _ _
  · exact memberTest_length_div _ _ _ _

theorem breaksAt_unique {j k : ℕ} (hj : BreaksAt fSophieGermain fFermatTest origin j)
    (hk : BreaksAt fSophieGermain fFermatTest origin k) : j = k := by
  rcases Nat.lt_trichotomy j k with h | h | h
  · exact absurd (hk.1 j h) (by rw [hj.2]; exact Bool.false_ne_true)
  · exact h
  · exact absurd (hj.1 k h) (by rw [hk.2]; exact Bool.false_ne_true)

theorem targetIncrementLength_ofNat (i : ℕ) :
    targetIncrementLength (BitVec.ofNat 32 (i*2^24)) = BitVec.ofNat 32 ((i+1)*2^24) := by
  apply BitVec.eq_of_toNat_eq
  rw [targetIncrementLength_toNat, BitVec.toNat_ofNat, BitVec.toNat_ofNat]
  omega

theorem chainTest_succ (i : ℕ) (nLength : BitVec 32) :
    memberTest fSophieGermain fFermatTest (chainMember fSophieGermain origin (i+1)) nLength =
      chainTest fSophieGermain fFermatTest origin (i+1) nLength := by
  rw [chainTest, if_neg (Nat.succ_ne_zero i)]

/-- The loop entered after member `i` has passed runs to the first member that fails. -/
theorem chainLoop_eq_some_iff (fuel i : ℕ) (L : BitVec 32) :
    chainLoop fSophieGermain fFermatTest fuel (chainMember fSophieGermain origin i)
        (BitVec.ofNat 32 (i*2^24)) = some L ↔
      ∃ j, i < j ∧ j ≤ i+fuel ∧
        (∀ k, i < k → k < j → (chainTest fSophieGermain fFermatTest origin k 0).passed = true) ∧
        (chainTest fSophieGermain fFermatTest origin j 0).passed = false ∧
        L = breakLength fSophieGermain fFermatTest origin j := by
  induction fuel generalizing i with
  | zero =>
    simp only [chainLoop, reduceCtorEq, false_iff]
    rintro ⟨j,hij,hji,-⟩
    omega
  | succ fuel ih =>
    have hind := chainTest_passed_indep fSophieGermain fFermatTest origin (i+1)
      (BitVec.ofNat 32 ((i+1)*2^24)) 0
    simp only [chainLoop, targetIncrementLength_ofNat, chainMember_succ, chainTest_succ]
    split_ifs with hp
    · rw [chainTest_passed_nLength _ _ _ _ _ hp, ih]
      rw [hind] at hp
      constructor
      · rintro ⟨j,hij,hji,hall,hj⟩
        refine ⟨j, by omega, by omega, fun k hik hkj => ?_, hj⟩
        rcases Nat.lt_or_ge (i+1) k with hk | hk
        · exact hall k hk hkj
        · rwa [show k = i+1 by omega]
      · rintro ⟨j,hij,hji,hall,hj,hL⟩
        have hne : j ≠ i+1 := by
          rintro rfl
          rw [hp] at hj
          exact Bool.noConfusion hj
        exact ⟨j, by omega, by omega, fun k hik hkj => hall k (by omega) hkj, hj, hL⟩
    · rw [hind] at hp
      have hf : (chainTest fSophieGermain fFermatTest origin (i+1) 0).passed = false := by
        simpa using hp
      constructor
      · intro h
        exact ⟨i+1, by omega, by omega, fun k _ _ => by omega, hf, (Option.some.inj h).symm⟩
      · rintro ⟨j,hij,-,hall,-,hL⟩
        have hj : j = i+1 := by
          by_contra hne
          exact hp (hall (i+1) (by omega) (by omega))
        rw [hL, hj]
        rfl

/-- A chain test that returns has found the break of its chain within its fuel. -/
theorem probableCunninghamChainTest_eq_some_iff (fuel : ℕ) (b : Bool) (L : BitVec 32) :
    probableCunninghamChainTest fuel (chainMember fSophieGermain origin 0) fSophieGermain
        fFermatTest = some (b,L) ↔
      ∃ j ≤ fuel, BreaksAt fSophieGermain fFermatTest origin j ∧
        L = breakLength fSophieGermain fFermatTest origin j ∧
        b = decide (targetGetLength L ≥ 2) := by
  have hfirst (l : BitVec 32) : fermatProbablePrimalityTest (chainMember fSophieGermain origin 0) l =
      chainTest fSophieGermain fFermatTest origin 0 l := rfl
  simp only [probableCunninghamChainTest, hfirst]
  split_ifs with hp
  · rw [chainTest_passed_nLength _ _ _ _ _ hp, Option.map_eq_some_iff]
    have hloop := chainLoop_eq_some_iff fSophieGermain fFermatTest origin fuel 0
    simp only [zero_mul, zero_add] at hloop
    constructor
    · rintro ⟨l,hl,he⟩
      obtain ⟨j,hj0,hjf,hall,hj,rfl⟩ := (hloop l).mp hl
      obtain ⟨rfl,rfl⟩ := Prod.mk.inj he
      refine ⟨j, hjf, ⟨fun i hi => ?_, hj⟩, rfl, rfl⟩
      rcases Nat.eq_zero_or_pos i with rfl | hi0
      · exact hp
      · exact hall i hi0 hi
    · rintro ⟨j,hjf,⟨hall,hj⟩,rfl,rfl⟩
      have hj0 : 0 < j := by
        rcases Nat.eq_zero_or_pos j with rfl | h
        · rw [hp] at hj
          exact Bool.noConfusion hj
        · exact h
      exact ⟨_, (hloop _).mpr ⟨j, hj0, hjf, fun k _ hk => hall k hk, hj, rfl⟩, rfl⟩
  · have hf : (chainTest fSophieGermain fFermatTest origin 0 0).passed = false := by simpa using hp
    have hlen : targetGetLength (breakLength fSophieGermain fFermatTest origin 0) = 0 := by
      apply BitVec.eq_of_toNat_eq
      rw [targetGetLength_toNat, breakLength_div]
      rfl
    have hdec : decide (targetGetLength (breakLength fSophieGermain fFermatTest origin 0) ≥ 2) =
        false := by rw [hlen]; decide
    constructor
    · intro h
      obtain ⟨rfl,rfl⟩ := Prod.mk.inj (Option.some.inj h)
      refine ⟨0, Nat.zero_le _, ⟨fun i hi => absurd hi (Nat.not_lt_zero i), hf⟩, rfl, ?_⟩
      exact hdec.symm
    · rintro ⟨j,-,hj,rfl,rfl⟩
      have h0 : BreaksAt fSophieGermain fFermatTest origin 0 :=
        ⟨fun i hi => absurd hi (Nat.not_lt_zero i), hf⟩
      rw [breaksAt_unique _ _ _ hj h0, hdec]
      rfl

end Loop

/-- The consensus chain test returns when both of its chains break within the fuel. -/
theorem probablePrimeChainTest_eq_some_iff (fuel : ℕ) (origin : CBigNum) (nBits : BitVec 32)
    (fFermatTest b : Bool) (lens : ChainLengths) :
    probablePrimeChainTest fuel origin nBits fFermatTest = some (b,lens) ↔
      ∃ j1 ≤ fuel, ∃ j2 ≤ fuel, BreaksAt true fFermatTest origin j1 ∧
        BreaksAt false fFermatTest origin j2 ∧
        lens.nChainLengthCunningham1 = breakLength true fFermatTest origin j1 ∧
        lens.nChainLengthCunningham2 = breakLength false fFermatTest origin j2 ∧
        lens.nChainLengthBiTwin =
          biTwinLength lens.nChainLengthCunningham1 lens.nChainLengthCunningham2 ∧
        b = lens.meets nBits := by
  have h1 : origin-1 = chainMember true origin 0 := by
    simp only [chainMember, if_true, pow_zero, one_mul]
    ring
  have h2 : origin+1 = chainMember false origin 0 := by
    simp only [chainMember, Bool.false_eq_true, if_false, pow_zero, one_mul]
  simp only [probablePrimeChainTest, Option.bind_eq_bind, Option.bind_eq_some_iff, h1, h2,
    Option.pure_def, Option.some.injEq, Prod.exists, Prod.mk.injEq,
    probableCunninghamChainTest_eq_some_iff]
  constructor
  · rintro ⟨_,_,⟨j1,hj1,hb1,rfl,-⟩,_,_,⟨j2,hj2,hb2,rfl,-⟩,rfl,rfl⟩
    exact ⟨j1, hj1, j2, hj2, hb1, hb2, rfl, rfl, rfl, rfl⟩
  · rintro ⟨j1,hj1,j2,hj2,hb1,hb2,hl1,hl2,hl3,hb⟩
    obtain ⟨len1,len2,len3⟩ := lens
    simp only at hl1 hl2 hl3
    subst hl1 hl2 hl3 hb
    exact ⟨_, _, ⟨j1,hj1,hb1,rfl,rfl⟩, _, _, ⟨j2,hj2,hb2,rfl,rfl⟩, rfl, rfl⟩

end Candypool.Prime
