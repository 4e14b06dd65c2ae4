import Candypool.Prime.SieveMultipliers

/-! One layer of the sieve: which bits a round of it sets, and where its primes resume in the next
round. The rotating and the plain build do the same. -/
namespace Candypool.Prime
open Candypool.Lib

section Strike
variable {w p hi : ℕ}

/-- Rotating the mask along gives the masks that the other build makes anew. -/
theorem strikeMultiples_rotate (hw : 0 < w) (vf : Array (BitVec w)) (v : ℕ) :
    strikeMultiples true p hi vf v = strikeMultiples false p hi vf v := by
  obtain ⟨⟨-,hvf⟩,hcount⟩ := strideLoop_simulates (p := p)
    (fun u (st : Array (BitVec w) × BitVec w) t => st.2 = bitMask w u ∧ st.1 = t)
    (f := fun st u => (orWord st.1 (u/w) st.2, rotateMask st.2 (p%w)))
    (g := fun vf u => orWord vf (u/w) (bitMask w u)) (s := (vf,bitMask w v)) (t := vf) (v := v)
    (by
      rintro u st t - ⟨hmask,rfl⟩
      exact ⟨by rw [hmask, rotateMask_bitMask hw],by rw [hmask]⟩)
    ⟨rfl,rfl⟩
  exact Prod.ext hvf hcount

theorem strikeMultiples_build (hw : 0 < w) (fRotate : Bool) (vf : Array (BitVec w)) (v : ℕ) :
    strikeMultiples fRotate p hi vf v = strikeMultiples false p hi vf v := by
  cases fRotate
  · rfl
  · exact strikeMultiples_rotate hw vf v

theorem strikeMultiples_spec (hw : 0 < w) (hp : 0 < p) (fRotate : Bool) {vf : Array (BitVec w)}
    (hsize : ∀ u < hi, u/w < vf.size) (v : ℕ) :
    (strikeMultiples fRotate p hi vf v).1.size = vf.size ∧
    (∀ i, bitAt (strikeMultiples fRotate p hi vf v).1 0 i = true ↔
      bitAt vf 0 i = true ∨ (v ≤ i ∧ i < hi ∧ p ∣ i-v)) ∧
    Strides p hi v (strikeMultiples fRotate p hi vf v).2 ∧
    hi ≤ (strikeMultiples fRotate p hi vf v).2 := by
  rw [strikeMultiples_build hw]
  have hsizes : ∀ (t : Array (BitVec w)) (u : ℕ), u < hi → t.size = vf.size →
      (orWord t (u/w) (bitMask w u)).size = vf.size := by
    intro t u _ ht
    rwa [orWord_size]
  refine ⟨strideLoop_induct (fun t : Array (BitVec w) => t.size = vf.size) hsizes rfl,fun i => ?_,
    strideLoop_counter hp _ _ _⟩
  refine strideLoop_marks (fun t : Array (BitVec w) => t.size = vf.size)
    (fun t j => bitAt t 0 j = true) hp hsizes ?_ rfl i
  intro t u j hu ht
  rw [bitAt_orWord t u j hw (by rw [ht]; exact hsize u hu)]
  simp

end Strike

section Layer
variable {w : ℕ} {P : SieveParams} {σ : ℤ} {k lo hi : ℕ}

/-- A sieving prime divides member `i` of layer `k`. -/
def LayerHit (P : SieveParams) (σ : ℤ) (k i : ℕ) : Prop :=
  ∃ s, 1 ≤ s ∧ s < P.nPrimes ∧ Hits P.fixedFactor σ (P.vPrimes.getD s 0) k i

/-- Prime number `s` resumes in layer `k` at its first hit from `m` on. -/
def ResumesAt (P : SieveParams) (σ : ℤ) (lane : Lane w) (s k m : ℕ) : Prop :=
  Progression (Hits P.fixedFactor σ (P.vPrimes.getD s 0) k) (P.vPrimes.getD s 0) P.nSieveSize m
    (lane.vMultipliers.getD (s*P.nSieveLayers+k) 0)

/-- The allocated sizes of a lane. -/
structure Lane.Sized (P : SieveParams) (lane : Lane w) : Prop where
  words : lane.vfCompositeLayer.size = P.nCandidatesWords w
  slots : lane.vMultipliers.size = P.nPrimes*P.nSieveLayers

theorem div_lt_nCandidatesWords (hw : 0 < w) {u : ℕ} (hu : u < P.nSieveSize) :
    u/w < P.nCandidatesWords w := by
  unfold SieveParams.nCandidatesWords
  rw [← Nat.succ_le_iff, Nat.le_div_iff_mul_le hw, Nat.succ_mul]
  have := Nat.div_mul_le_self u w
  omega

/-- The lane before the turn of prime number `s`, compared with the wiped lane `lane0`. -/
structure Struck (P : SieveParams) (σ : ℤ) (k lo hi : ℕ) (lane0 : Lane w) (s : ℕ) (lane : Lane w) :
    Prop where
  sized : lane.Sized P
  bits : ∀ i, lo ≤ i → i < hi → (bitAt lane.vfCompositeLayer 0 i = true ↔
    bitAt lane0.vfCompositeLayer 0 i = true ∨
      ∃ s', 1 ≤ s' ∧ s' < s ∧ Hits P.fixedFactor σ (P.vPrimes.getD s' 0) k i)
  resumed : ∀ s', 1 ≤ s' → s' < s → ResumesAt P σ lane s' k (max lo hi)
  kept : ∀ s' k', k' < P.nSieveLayers → k' ≠ k ∨ s ≤ s' →
    lane.vMultipliers.getD (s'*P.nSieveLayers+k') 0 =
      lane0.vMultipliers.getD (s'*P.nSieveLayers+k') 0

theorem Struck.next (hw : 0 < w) (fRotate : Bool) {lane0 lane : Lane w} {s : ℕ}
    (h : Struck P σ k lo hi lane0 s lane) (hk : k < P.nSieveLayers) (hhi : hi ≤ P.nSieveSize)
    (h1 : 1 ≤ s) (hs : s < P.nPrimes) (hres : ResumesAt P σ lane0 s k lo) :
    let slot := s*P.nSieveLayers+k
    let r := strikeMultiples fRotate (P.vPrimes.getD s 0) hi lane.vfCompositeLayer
      (catchUp (P.vPrimes.getD s 0) lo (lane.vMultipliers.getD slot 0))
    Struck P σ k lo hi lane0 (s+1) ⟨r.1,lane.vMultipliers.setIfInBounds slot r.2⟩ := by
  intro slot r
  have hp := SieveParams.sievingPrime hs
  have hslot : slot < lane.vMultipliers.size := by
    rw [h.sized.slots]
    exact slot_lt hs hk
  -- The slot is still the one of the wiped lane, and resumes at `lo` after catching up.
  have hprog : Progression (Hits P.fixedFactor σ (P.vPrimes.getD s 0) k) (P.vPrimes.getD s 0)
      P.nSieveSize lo (catchUp (P.vPrimes.getD s 0) lo (lane.vMultipliers.getD slot 0)) := by
    rw [h.kept s k hk (Or.inr le_rfl)]
    exact hres.resume le_rfl catchUp_strides
  obtain ⟨hsize,hbits,hstrides,-⟩ := strikeMultiples_spec hw hp.pos fRotate
    (fun u hu => (div_lt_nCandidatesWords hw (hu.trans_le hhi)).trans_eq h.sized.words.symm)
    (catchUp (P.vPrimes.getD s 0) lo (lane.vMultipliers.getD slot 0))
  refine ⟨⟨hsize.trans h.sized.words,?_⟩,fun i hlo hlt => ?_,fun s' h1' hlt => ?_,
    fun s' k' hk' hne => ?_⟩
  · rw [Array.size_setIfInBounds]
    exact h.sized.slots
  · rw [hbits i, h.bits i hlo hlt, or_assoc]
    apply or_congr_right
    have hhit := hprog i hlo (hlt.trans_le hhi)
    constructor
    · rintro (⟨s',h1',hs',hh⟩ | ⟨hle,-,hdvd⟩)
      · exact ⟨s',h1',by omega,hh⟩
      · exact ⟨s,h1,Nat.lt_succ_self s,hhit.mpr ⟨hle,hdvd⟩⟩
    · rintro ⟨s',h1',hs',hh⟩
      rcases Nat.lt_succ_iff_lt_or_eq.mp hs' with hlt' | rfl
      · exact Or.inl ⟨s',h1',hlt',hh⟩
      · obtain ⟨hle,hdvd⟩ := hhit.mp hh
        exact Or.inr ⟨hle,hlt,hdvd⟩
  · unfold ResumesAt
    dsimp only
    rw [getD_setIfInBounds hslot]
    rcases Nat.lt_succ_iff_lt_or_eq.mp hlt with hlt' | rfl
    · rw [if_neg fun heq => hlt'.ne (slot_inj hk hk heq).1]
      exact h.resumed s' h1' hlt'
    · rw [if_pos rfl]
      refine hprog.resume (le_max_left lo hi) ⟨hstrides.le,hstrides.dvd,?_⟩
      rcases hstrides.near with heq | hnear
      · exact Or.inl heq
      · exact Or.inr (hnear.trans_le (Nat.add_le_add_right (le_max_right lo hi) _))
  · dsimp only
    rw [getD_setIfInBounds hslot, if_neg]
    · exact h.kept s' k' hk' (by omega)
    · intro heq
      obtain ⟨rfl,rfl⟩ := slot_inj hk' hk heq
      omega

/-- The words that the wipe before a layer reaches. -/
def Wiped (w lo hi i : ℕ) : Prop := lo/w ≤ i/w ∧ i/w < lo/w+(hi-lo+w-1)/w

/-- One layer over the multipliers from `lo` to `hi`. What the wipe misses of the layer before stays
in the bit set. -/
theorem processMultiplier_spec (hw : 0 < w) (fRotate : Bool) {lane : Lane w} (hsized : lane.Sized P)
    (hk : k < P.nSieveLayers) (hhi : hi ≤ P.nSieveSize)
    (hres : ∀ s, 1 ≤ s → s < P.nPrimes → ResumesAt P σ lane s k lo) :
    (processMultiplier fRotate P lane lo hi k).Sized P ∧
    (∀ i, lo ≤ i → i < hi →
      (bitAt (processMultiplier fRotate P lane lo hi k).vfCompositeLayer 0 i = true ↔
        (bitAt lane.vfCompositeLayer 0 i = true ∧ ¬ Wiped w lo hi i) ∨ LayerHit P σ k i)) ∧
    (∀ s, 1 ≤ s → s < P.nPrimes →
      ResumesAt P σ (processMultiplier fRotate P lane lo hi k) s k (max lo hi)) ∧
    ∀ s k' m, k' < P.nSieveLayers → k' ≠ k → ResumesAt P σ lane s k' m →
      ResumesAt P σ (processMultiplier fRotate P lane lo hi k) s k' m := by
  set vf := if lo < hi then wipeWords lane.vfCompositeLayer (lo/w) ((hi-lo+w-1)/w)
    else lane.vfCompositeLayer with hvf
  have hvfsize : vf.size = P.nCandidatesWords w := by
    rw [hvf]
    split_ifs
    · rw [wipeWords_size, hsized.words]
    · exact hsized.words
  have hrun : Struck P σ k lo hi ⟨vf,lane.vMultipliers⟩ P.nPrimes
      (processMultiplier fRotate P lane lo hi k) := by
    refine rangeLoop_induct (Struck P σ k lo hi ⟨vf,lane.vMultipliers⟩) P.one_lt_nPrimes.le
      never_eq_false ?_ ?_
    · intro s t h1 hs ht
      exact ht.next hw fRotate hk hhi h1 hs (hres s h1 hs)
    · refine ⟨⟨hvfsize,hsized.slots⟩,fun i _ _ => ?_,fun s' h1 hlt => ?_,fun _ _ _ _ => rfl⟩
      · have hnone : ¬ ∃ s', 1 ≤ s' ∧ s' < 1 ∧ Hits P.fixedFactor σ (P.vPrimes.getD s' 0) k i := by
          rintro ⟨s',h1,hlt,-⟩
          omega
        exact ⟨Or.inl,fun h => h.resolve_right hnone⟩
      · omega
  refine ⟨hrun.sized,fun i hlo hlt => ?_,hrun.resumed,fun s k' m hk' hne h => ?_⟩
  · rw [hrun.bits i hlo hlt]
    dsimp only
    rw [hvf, if_pos (hlo.trans_lt hlt), bitAt_wipeWords]
    · rfl
    · rw [hsized.words]
      exact div_lt_nCandidatesWords hw (hlt.trans_le hhi)
  · unfold ResumesAt at h ⊢
    rwa [hrun.kept s k' hk' (Or.inl hne)]

end Layer

end Candypool.Prime
