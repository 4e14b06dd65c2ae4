import Candypool.Prime.SieveRounds

/-! What the sieve says about a multiplier. The base sieve is exact. An extension is exact but for
the last word of a sieve of one round, where hits of earlier layers can stay behind. -/
namespace Candypool.Prime
open Candypool.Lib

section Builds
variable {w : ℕ} {P : SieveParams}

theorem processMultiplier_build (hw : 0 < w) (lane : Lane w) (lo hi k : ℕ) :
    processMultiplier true P lane lo hi k = processMultiplier false P lane lo hi k := by
  unfold processMultiplier
  apply rangeLoop_congr
  intro s t _ _
  dsimp only
  rw [strikeMultiples_rotate hw]

theorem weaveLayers_build (hw : 0 < w) (newBlock : WeaveCheck → Bool) (j : ℕ) (st : WeaveState w) :
    weaveLayers true P newBlock j st = weaveLayers false P newBlock j st := by
  unfold weaveLayers
  apply rangeLoop_congr
  intro k t _ _
  unfold weaveLayer
  rw [processMultiplier_build hw, processMultiplier_build hw]

/-- The rotating build and the plain build weave the same sieve, interrupted or not. -/
theorem weave_build (hw : 0 < w) (newBlock : WeaveCheck → Bool) (uninit1 uninit2 : ℕ → BitVec w) :
    weave w true P newBlock uninit1 uninit2 = weave w false P newBlock uninit1 uninit2 := by
  have hrounds : ∀ st : WeaveState w,
      weaveRounds true P newBlock st = weaveRounds false P newBlock st := by
    intro st
    unfold weaveRounds
    apply rangeLoop_congr
    intro j t _ _
    unfold weaveRound
    rw [weaveLayers_build hw]
  unfold weave
  simp only [hrounds]

end Builds

section Exact
variable {w : ℕ}

/-- A sieving prime divides a member of the first kind of `i`, in one of the `N` layers from `off`
on. -/
def HasFactor1 (P : SieveParams) (off N i : ℕ) : Prop :=
  ∃ k, off ≤ k ∧ k < off+N ∧ ∃ s, 1 ≤ s ∧ s < P.nPrimes ∧
    (P.vPrimes.getD s 0 : ℤ) ∣ P.fixedFactor*i*2^k-1

/-- The same for the second kind. -/
def HasFactor2 (P : SieveParams) (off N i : ℕ) : Prop :=
  ∃ k, off ≤ k ∧ k < off+N ∧ ∃ s, 1 ≤ s ∧ s < P.nPrimes ∧
    (P.vPrimes.getD s 0 : ℤ) ∣ P.fixedFactor*i*2^k+1

/-- The bits of multiplier `i`, in the bit sets that start at word `word`, are those that the chains
from layer `off` on call for. -/
structure Exact (P : SieveParams) (c : Composites w) (vfCandidates : Array (BitVec w))
    (word off i : ℕ) : Prop where
  cunningham1 : bitAt c.vfCompositeCunningham1 word i = true ↔ HasFactor1 P off P.nChainLength i
  cunningham2 : bitAt c.vfCompositeCunningham2 word i = true ↔ HasFactor2 P off P.nChainLength i
  biTwin : bitAt c.vfCompositeBiTwin word i = true ↔
    HasFactor1 P off ((P.nChainLength+1)/2) i ∨ HasFactor2 P off (P.nChainLength/2) i
  candidate : bitAt vfCandidates word i = true ↔
    bitAt c.vfCompositeCunningham1 word i = false ∨
    bitAt c.vfCompositeCunningham2 word i = false ∨ bitAt c.vfCompositeBiTwin word i = false

variable {P : SieveParams} {off N i : ℕ}

theorem hasFactor1_iff : HasFactor1 P off N i ↔ ∃ k, off ≤ k ∧ k < off+N ∧ LayerHit P 1 k i :=
  Iff.rfl

theorem hasFactor2_iff : HasFactor2 P off N i ↔ ∃ k, off ≤ k ∧ k < off+N ∧ LayerHit P (-1) k i := by
  unfold HasFactor2 LayerHit Hits
  simp only [sub_neg_eq_add]

theorem WovenPart.candidate_iff {part : SievePart} {c : Composites w} {vf : Array (BitVec w)}
    (h : WovenPart P part c vf i) : bitAt vf part.word i = true ↔
      bitAt c.vfCompositeCunningham1 part.word i = false ∨
      bitAt c.vfCompositeCunningham2 part.word i = false ∨
      bitAt c.vfCompositeBiTwin part.word i = false := by
  rw [h.candidate, not_and_or, not_and_or]
  simp only [Bool.not_eq_true]

/-- Where nothing is missed a part weaves the hits of its own layers. -/
theorem woven_iff {σ : ℤ} (part : SievePart)
    (h : ∀ k < N, ¬ (Missed P w i ∧ P.nChainLength ≤ part.layer+k)) :
    Woven P w σ part N i ↔
      ∃ k, part.layer ≤ k ∧ k < part.layer+N ∧ LayerHit P σ k i := by
  constructor
  · rintro ⟨k,hk,hc⟩
    exact ⟨part.layer+k,by omega,by omega,(content_of_not_missed (h k hk)).mp hc⟩
  · rintro ⟨k,hle,hlt,hhit⟩
    obtain ⟨d,rfl⟩ := Nat.exists_eq_add_of_le hle
    exact ⟨d,by omega,(content_of_not_missed (h d (by omega))).mpr hhit⟩

/-- The base sieve is exact, and the same in both builds. -/
theorem base_sieve_exact (hw : w = 32 ∨ w = 64) (hL : 1 ≤ P.nChainLength)
    (hpct : P.settings.nSievePercentage ≤ 99) {newBlock : WeaveCheck → Bool}
    (hnew : ∀ c, newBlock c = false) (uninit1 uninit2 : ℕ → BitVec w) :
    ∃ A, weave w true P newBlock uninit1 uninit2 = .ok A ∧
      weave w false P newBlock uninit1 uninit2 = .ok A ∧
      ∀ i, 1 ≤ i → i < P.nSieveSize → Exact P A.vfComposite A.vfCandidates 0 0 i := by
  obtain ⟨A,hA,hbase,-⟩ := weave_spec hw true hpct hL hnew uninit1 uninit2
  refine ⟨A,hA,?_,fun i _ hi => ?_⟩
  · rw [← weave_build (by omega)]
    exact hA
  have hwoven : ∀ (σ : ℤ) (N : ℕ), N ≤ P.nChainLength → (Woven P w σ basePart N i ↔
      ∃ k, 0 ≤ k ∧ k < 0+N ∧ LayerHit P σ k i) := by
    intro σ N hN
    apply woven_iff basePart
    rintro k hk ⟨-,hle⟩
    have hle' : P.nChainLength ≤ 0+k := hle
    omega
  have h := hbase i hi
  refine ⟨?_,?_,?_,h.candidate_iff⟩
  · rw [hasFactor1_iff, ← hwoven 1 _ le_rfl]
    exact h.cunningham1
  · rw [hasFactor2_iff, ← hwoven (-1) _ le_rfl]
    exact h.cunningham2
  · rw [hasFactor1_iff, hasFactor2_iff, ← hwoven 1 _ (by omega), ← hwoven (-1) _ (by omega)]
    exact h.biTwin

/-- What an extension finds in a word that the wipe misses: hits of layers before its own, from the
last base layer on. -/
def StaleHit (P : SieveParams) (σ : ℤ) (e i : ℕ) : Prop :=
  ∃ k, P.nChainLength ≤ k+1 ∧ k ≤ e ∧ LayerHit P σ k i

theorem woven_missed {σ : ℤ} {e : ℕ} (hmiss : Missed P w i) (hN : 0 < N) :
    Woven P w σ (extensionPart P w e) N i ↔
      (∃ k, e+1 ≤ k ∧ k < e+1+N ∧ LayerHit P σ k i) ∨ StaleHit P σ e i := by
  constructor
  · rintro ⟨k,hk,k',hkk,hhit⟩
    have hk' : k' = e+1+k ∨ (P.nChainLength ≤ k'+1 ∧ k' < e+1+k) := by
      rcases hkk with heq | ⟨-,hle,hlt⟩
      · exact Or.inl heq
      · exact Or.inr ⟨hle,hlt⟩
    rcases Nat.lt_or_ge e k' with hgt | hle
    · exact Or.inl ⟨k',hgt,by omega,hhit⟩
    · exact Or.inr ⟨k',by omega,hle,hhit⟩
  · rintro (⟨k,hle,hlt,hhit⟩ | ⟨k,hlast,hle,hhit⟩)
    · obtain ⟨d,rfl⟩ := Nat.exists_eq_add_of_le hle
      exact ⟨d,by omega,e+1+d,Or.inl rfl,hhit⟩
    · refine ⟨0,hN,k,Or.inr ⟨hmiss,hlast,?_⟩,hhit⟩
      dsimp only [extensionPart]
      omega

/-- No multiplier of a missed word is hit in a stale layer and not in the layers it is sieved for. -/
def StaleHarmless (P : SieveParams) (w : ℕ) : Prop :=
  ∀ e < P.nSieveExtensions, ∀ i < P.nSieveSize, Missed P w i →
    (StaleHit P 1 e i → HasFactor1 P (e+1) P.nChainLength i) ∧
    (StaleHit P (-1) e i → HasFactor2 P (e+1) P.nChainLength i) ∧
    (StaleHit P 1 e i ∨ (2 ≤ P.nChainLength ∧ StaleHit P (-1) e i) →
      HasFactor1 P (e+1) ((P.nChainLength+1)/2) i ∨ HasFactor2 P (e+1) (P.nChainLength/2) i)

/-- The bits of an extension in a missed word, with the stale hits. -/
theorem exact_missed_iff {c : Composites w} {vf : Array (BitVec w)} {e : ℕ}
    (hL : 1 ≤ P.nChainLength) (hmiss : Missed P w i)
    (h : WovenPart P (extensionPart P w e) c vf i) :
    Exact P c vf (e*P.nCandidatesWords w) (e+1) i ↔
      (StaleHit P 1 e i → HasFactor1 P (e+1) P.nChainLength i) ∧
      (StaleHit P (-1) e i → HasFactor2 P (e+1) P.nChainLength i) ∧
      (StaleHit P 1 e i ∨ (2 ≤ P.nChainLength ∧ StaleHit P (-1) e i) →
        HasFactor1 P (e+1) ((P.nChainLength+1)/2) i ∨
          HasFactor2 P (e+1) (P.nChainLength/2) i) := by
  have h1 := h.cunningham1
  have h2 := h.cunningham2
  have h3 := h.biTwin
  rw [woven_missed hmiss hL, ← hasFactor1_iff] at h1
  rw [woven_missed hmiss hL, ← hasFactor2_iff] at h2
  have htwin : Woven P w (-1) (extensionPart P w e) (P.nChainLength/2) i ↔
      HasFactor2 P (e+1) (P.nChainLength/2) i ∨ (2 ≤ P.nChainLength ∧ StaleHit P (-1) e i) := by
    by_cases htwo : 2 ≤ P.nChainLength
    · rw [woven_missed hmiss (by omega), ← hasFactor2_iff]
      simp [htwo]
    · -- A chain of length one has no member of the second kind.
      have hwoven : ¬ Woven P w (-1) (extensionPart P w e) (P.nChainLength/2) i := by
        rintro ⟨k,hk,-⟩
        omega
      have hfactor : ¬ HasFactor2 P (e+1) (P.nChainLength/2) i := by
        rintro ⟨k,hle,hlt,-⟩
        omega
      simp [htwo, hwoven, hfactor]
  rw [woven_missed hmiss (by omega), ← hasFactor1_iff, htwin, or_or_or_comm] at h3
  constructor
  · rintro ⟨e1,e2,e3,-⟩
    exact ⟨fun hs => e1.mp (h1.mpr (Or.inr hs)),fun hs => e2.mp (h2.mpr (Or.inr hs)),
      fun hs => e3.mp (h3.mpr (Or.inr hs))⟩
  · rintro ⟨e1,e2,e3⟩
    exact ⟨h1.trans (or_iff_left_of_imp e1),h2.trans (or_iff_left_of_imp e2),
      h3.trans (or_iff_left_of_imp e3),h.candidate_iff⟩

theorem exact_of_not_missed {c : Composites w} {vf : Array (BitVec w)} {e : ℕ}
    (hmiss : ¬ Missed P w i) (h : WovenPart P (extensionPart P w e) c vf i) :
    Exact P c vf (e*P.nCandidatesWords w) (e+1) i := by
  have hwoven : ∀ (σ : ℤ) (N : ℕ), Woven P w σ (extensionPart P w e) N i ↔
      ∃ k, e+1 ≤ k ∧ k < e+1+N ∧ LayerHit P σ k i := fun σ N =>
    woven_iff (extensionPart P w e) fun k _ hk => hmiss hk.1
  refine ⟨?_,?_,?_,h.candidate_iff⟩
  · rw [hasFactor1_iff, ← hwoven]
    exact h.cunningham1
  · rw [hasFactor2_iff, ← hwoven]
    exact h.cunningham2
  · rw [hasFactor1_iff, hasFactor2_iff, ← hwoven, ← hwoven]
    exact h.biTwin

/-- The extensions are exact precisely when no stale hit does harm. -/
theorem extended_sieve_exact_iff (hw : w = 32 ∨ w = 64) (fRotate : Bool)
    (hL : 1 ≤ P.nChainLength) (hpct : P.settings.nSievePercentage ≤ 99)
    {newBlock : WeaveCheck → Bool} (hnew : ∀ c, newBlock c = false)
    (uninit1 uninit2 : ℕ → BitVec w) :
    ∃ A, weave w fRotate P newBlock uninit1 uninit2 = .ok A ∧
      ((∀ e < P.nSieveExtensions, ∀ i, P.nSieveSize/2 ≤ i → i < P.nSieveSize →
          Exact P A.vfExtendedComposite A.vfExtendedCandidates (e*P.nCandidatesWords w) (e+1) i) ↔
        StaleHarmless P w) := by
  obtain ⟨A,hA,-,hext⟩ := weave_spec hw fRotate hpct hL hnew uninit1 uninit2
  refine ⟨A,hA,?_⟩
  constructor
  · intro hexact e he i hi hmiss
    -- The last word lies in the upper half.
    have hhalf : P.nSieveSize/2 ≤ i := by
      obtain ⟨-,-,hlast⟩ := hmiss
      have := P.size_mem
      rcases hw with rfl | rfl <;> omega
    exact (exact_missed_iff hL hmiss (hext e he i hhalf hi)).mp (hexact e he i hhalf hi)
  · intro hharmless e he i hhalf hi
    by_cases hmiss : Missed P w i
    · exact (exact_missed_iff hL hmiss (hext e he i hhalf hi)).mpr (hharmless e he i hi hmiss)
    · exact exact_of_not_missed hmiss (hext e he i hhalf hi)

end Exact

section Runs

/-- A sieve with the default settings. -/
def defaultSieve : SieveParams where
  settings := sieveSettings false none none none
  nBits := 0x07000000
  mpzHash := 2^255
  mpzFixedMultiplier := 210
  vPrimes := generatePrimeTable (sieveSettings false none none none).nSieveSize
  vPrimes_eq := rfl

theorem base_sieve_exact_default :
    ∃ A, weave 64 true defaultSieve (fun _ => false) (fun _ => 0) (fun _ => 0) = .ok A ∧
      weave 64 false defaultSieve (fun _ => false) (fun _ => 0) (fun _ => 0) = .ok A ∧
      ∀ i, 1 ≤ i → i < defaultSieve.nSieveSize →
        Exact defaultSieve A.vfComposite A.vfCandidates 0 0 i :=
  base_sieve_exact (Or.inr rfl) (by decide) (by decide) (fun _ => rfl) _ _

theorem extended_sieve_exact_iff_default :
    ∃ A, weave 64 true defaultSieve (fun _ => false) (fun _ => 0) (fun _ => 0) = .ok A ∧
      ((∀ e < defaultSieve.nSieveExtensions, ∀ i, defaultSieve.nSieveSize/2 ≤ i →
          i < defaultSieve.nSieveSize → Exact defaultSieve A.vfExtendedComposite
            A.vfExtendedCandidates (e*defaultSieve.nCandidatesWords 64) (e+1) i) ↔
        StaleHarmless defaultSieve 64) :=
  extended_sieve_exact_iff (Or.inr rfl) true (by decide) (by decide) (fun _ => rfl) _ _

/-- A sieve whose last word is missed, for chains of length six with six extensions. -/
def staleSieve : SieveParams where
  settings := ⟨6,1,100065,by decide,by decide,by decide⟩
  nBits := 0x06000000
  mpzHash := 2^255
  mpzFixedMultiplier := 5808
  vPrimes := generatePrimeTable 100065
  vPrimes_eq := rfl

/-- No number from 2 to `b + 1` divides `N`. -/
def noDivisor (N : ℕ) : ℕ → Bool
  | 0 => true
  | m+1 => !(Nat.beq (N%(m+2)) 0) && noDivisor N m

theorem not_dvd_of_noDivisor {N b m : ℕ} (h : noDivisor N b = true) (hm : 2 ≤ m) (hlt : m < b+2) :
    ¬ m ∣ N := by
  induction b with
  | zero => omega
  | succ b ih =>
    rw [noDivisor, Bool.and_eq_true, Bool.not_eq_true'] at h
    rcases Nat.lt_succ_iff_lt_or_eq.mp hlt with hlt' | rfl
    · exact ih h.2 hlt'
    · intro hdvd
      exact Nat.ne_of_beq_eq_false h.1 (Nat.mod_eq_zero_of_dvd hdvd)

/-- The members of multiplier 100060 in the layers of the last extension of `staleSieve`. -/
def staleMembers : List ℕ := (List.range' 6 6).map fun k => 2^255*5808*100060*2^k-1

theorem staleMembers_noDivisor : noDivisor staleMembers.prod 16382 = true := by decide +kernel

/-- Multiplier 100060 of the last extension is marked, as 13 divides its member in layer 5, but no
sieving prime divides a member in the extension's own layers, 6 to 11. -/
theorem extended_sieve_stale :
    ∃ A, weave 64 true staleSieve (fun _ => false) (fun _ => 0) (fun _ => 0) = .ok A ∧
      bitAt A.vfExtendedComposite.vfCompositeCunningham1
        (5*staleSieve.nCandidatesWords 64) 100060 = true ∧
      ¬ HasFactor1 staleSieve (5+1) staleSieve.nChainLength 100060 := by
  have hL : staleSieve.nChainLength = 6 := by decide
  have hF : staleSieve.fixedFactor = 2^255*5808 := rfl
  have hcount : staleSieve.nPrimes ≤ 1000 := staleSieve.nPrimes_le_size.trans (by decide)
  have hlt : 5 < staleSieve.nPrimes := (by decide : 5 < 40).trans_le staleSieve.nPrimes_large
  have hthirteen : staleSieve.vPrimes.getD 5 0 = 13 := by
    rw [staleSieve.vPrimes_eq]
    exact generatePrimeTable_thirteen (by decide)
  obtain ⟨A,hA,-,hext⟩ := weave_spec (P := staleSieve) (Or.inr rfl) true (by decide) (by decide)
    (fun _ => rfl) (fun _ : ℕ => (0 : BitVec 64)) (fun _ => 0)
  have hwoven := (hext 5 (by decide) 100060 (by decide) (by decide)).cunningham1
  have hmiss : Missed staleSieve 64 100060 := by
    unfold Missed
    decide
  have hstale : StaleHit staleSieve 1 5 100060 := by
    refine ⟨5,by rw [hL],le_rfl,5,by norm_num,hlt,?_⟩
    rw [hthirteen, hF]
    unfold Hits
    norm_num
  refine ⟨A,hA,?_,?_⟩
  · rw [woven_missed hmiss (by rw [hL]; norm_num)] at hwoven
    exact hwoven.mpr (Or.inr hstale)
  · rintro ⟨k,hle,hk,s,h1,hs,hdvd⟩
    have hprime := SieveParams.sievingPrime hs
    have hsmall := SieveParams.sievingPrime_lt_two_pow (b := 14) hcount (by norm_num) (by decide)
      (by norm_num) hs
    rw [hL] at hk
    rw [hF] at hdvd
    generalize staleSieve.vPrimes.getD s 0 = p at hprime hsmall hdvd
    have hone : 1 ≤ 2^255*5808*100060*2^k := Nat.one_le_iff_ne_zero.mpr (by positivity)
    have hdvd' : p ∣ 2^255*5808*100060*2^k-1 := by
      apply Int.natCast_dvd_natCast.mp
      rw [Nat.cast_sub hone]
      push_cast at hdvd ⊢
      exact hdvd
    have hmem : 2^255*5808*100060*2^k-1 ∈ staleMembers := by
      unfold staleMembers
      apply List.mem_map_of_mem
      rw [List.mem_range'_1]
      omega
    exact not_dvd_of_noDivisor staleMembers_noDivisor hprime.two_le hsmall
      (hdvd'.trans (List.dvd_prod hmem))

end Runs

end Candypool.Prime
