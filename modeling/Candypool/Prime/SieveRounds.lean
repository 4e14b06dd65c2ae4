import Candypool.Prime.SieveLayers

/-! The rounds of the weave. The invariant follows one round layer by layer: what each layer's bit
set holds, including what the wipe misses, and which layers each index has already been given. -/
namespace Candypool.Prime
open Candypool.Lib

section Content
variable {w : ℕ} {P : SieveParams} {σ : ℤ} {k i : ℕ}

/-- The indices that the wipe of an extension layer misses: those in the last word of a sieve of one
round, if the count of words to wipe comes out one too small. -/
def Missed (P : SieveParams) (w i : ℕ) : Prop :=
  P.nSieveSize ≤ nL1CacheElements ∧ w < P.nSieveSize%(2*w) ∧ w*(P.nSieveSize/w) ≤ i

/-- What the bit set of layer `k` holds at index `i`: the hits of the layer and, where the wipe
misses, those of the layers before it from the last base layer on. -/
def Content (P : SieveParams) (w : ℕ) (σ : ℤ) (k i : ℕ) : Prop :=
  ∃ k', (k' = k ∨ (Missed P w i ∧ P.nChainLength ≤ k'+1 ∧ k' < k)) ∧ LayerHit P σ k' i

theorem content_of_not_missed (h : ¬ (Missed P w i ∧ P.nChainLength ≤ k)) :
    Content P w σ k i ↔ LayerHit P σ k i := by
  constructor
  · rintro ⟨k',rfl | ⟨hmiss,hle,hlt⟩,hhit⟩
    · exact hhit
    · exact absurd ⟨hmiss,by omega⟩ h
  · intro hhit
    exact ⟨k,Or.inl rfl,hhit⟩

theorem content_succ (hmiss : Missed P w i) (hk : P.nChainLength ≤ k+1) :
    Content P w σ (k+1) i ↔ Content P w σ k i ∨ LayerHit P σ (k+1) i := by
  constructor
  · rintro ⟨k',rfl | ⟨-,hle,hlt⟩,hhit⟩
    · exact Or.inr hhit
    · rcases Nat.lt_succ_iff_lt_or_eq.mp hlt with hlt' | rfl
      · exact Or.inl ⟨k',Or.inr ⟨hmiss,hle,hlt'⟩,hhit⟩
      · exact Or.inl ⟨k',Or.inl rfl,hhit⟩
  · rintro (⟨k',rfl | ⟨-,hle,hlt⟩,hhit⟩ | hhit)
    · exact ⟨k',Or.inr ⟨hmiss,hk,Nat.lt_succ_self k'⟩,hhit⟩
    · exact ⟨k',Or.inr ⟨hmiss,hle,by omega⟩,hhit⟩
    · exact ⟨k+1,Or.inl rfl,hhit⟩

end Content

section Wipe
variable {w : ℕ} (P : SieveParams) {j k i : ℕ}

theorem layerMin_mono (j k : ℕ) : P.layerMin j k ≤ P.layerMin j (k+1) := by
  unfold SieveParams.layerMin SieveParams.nExtMinMultiplier
  split_ifs <;> omega

theorem layerMin_nextRound (j k : ℕ) :
    max (P.layerMin j k) (P.nMaxMultiplier j) ≤ P.layerMin (j+1) k := by
  unfold SieveParams.layerMin SieveParams.nExtMinMultiplier SieveParams.nMaxMultiplier
    SieveParams.nMinMultiplier nL1CacheElements
  split_ifs <;> omega

/-- A base layer starts at a word of its own and is wiped in full. -/
theorem wiped_base (hw : w = 32 ∨ w = 64) (hlo : SieveParams.nMinMultiplier j ≤ i)
    (hhi : i < P.nMaxMultiplier j) :
    Wiped w (SieveParams.nMinMultiplier j) (P.nMaxMultiplier j) i := by
  unfold Wiped
  unfold SieveParams.nMaxMultiplier SieveParams.nMinMultiplier nL1CacheElements at *
  rcases hw with rfl | rfl <;> omega

/-- An extension layer may start within a word: its last word is then missed if the start is further
into its word than the end of the sieve is into the last one. -/
theorem wiped_extension (hw : w = 32 ∨ w = 64) (hlo : P.nExtMinMultiplier j ≤ i)
    (hhi : i < P.nMaxMultiplier j) :
    Wiped w (P.nExtMinMultiplier j) (P.nMaxMultiplier j) i ↔ ¬ Missed P w i := by
  unfold Wiped Missed
  unfold SieveParams.nExtMinMultiplier SieveParams.nExtensionsMinMultiplier
    SieveParams.nMaxMultiplier SieveParams.nMinMultiplier nL1CacheElements at *
  rcases hw with rfl | rfl <;> omega

end Wipe

section Lane
variable {w : ℕ} {P : SieveParams} {σ : ℤ} {j k : ℕ} {lane : Lane w}

/-- A lane in round `j` before layer `k`. -/
structure LaneAt (P : SieveParams) (σ : ℤ) (j k : ℕ) (lane : Lane w) : Prop where
  sized : lane.Sized P
  resumes : ∀ s, 1 ≤ s → s < P.nPrimes → ∀ k' < P.nSieveLayers, ResumesAt P σ lane s k'
    (if k' < k then max (P.layerMin j k') (P.nMaxMultiplier j) else P.layerMin j k')
  content : ∀ k0, k = k0+1 → ∀ i, P.layerMin j k0 ≤ i → i < P.nMaxMultiplier j →
    (bitAt lane.vfCompositeLayer 0 i = true ↔ Content P w σ k0 i)

theorem LaneAt.next (hw : w = 32 ∨ w = 64) (fRotate : Bool) (hL : 1 ≤ P.nChainLength)
    (h : LaneAt P σ j k lane) (hk : k < P.nSieveLayers) :
    LaneAt P σ j (k+1)
      (processMultiplier fRotate P lane (P.layerMin j k) (P.nMaxMultiplier j) k) := by
  have hwpos : 0 < w := by omega
  have hhi : P.nMaxMultiplier j ≤ P.nSieveSize := min_le_right _ _
  have hres : ∀ s, 1 ≤ s → s < P.nPrimes → ResumesAt P σ lane s k (P.layerMin j k) := by
    intro s h1 hs
    simpa using h.resumes s h1 hs k hk
  obtain ⟨hsized,hbits,hsame,hother⟩ :=
    processMultiplier_spec hwpos fRotate h.sized hk hhi hres
  refine ⟨hsized,fun s h1 hs k' hk' => ?_,fun k0 heq i hlo hlt => ?_⟩
  · by_cases hkk : k' = k
    · subst hkk
      rw [if_pos (Nat.lt_succ_self k')]
      exact hsame s h1 hs
    · have hres := hother s k' _ hk' hkk (h.resumes s h1 hs k' hk')
      have hlt : k' < k+1 ↔ k' < k := by omega
      simpa only [hlt] using hres
  obtain rfl : k = k0 := by omega
  rw [hbits i hlo hlt]
  by_cases hbase : k < P.nChainLength
  · -- A base layer is wiped in full.
    have hmin : P.layerMin j k = SieveParams.nMinMultiplier j := if_pos hbase
    rw [hmin] at hlo ⊢
    have hwipe := wiped_base P hw hlo hlt
    rw [content_of_not_missed (by omega)]
    simp [hwipe]
  · have hmin : P.layerMin j k = P.nExtMinMultiplier j := if_neg hbase
    rw [hmin] at hlo ⊢
    rw [wiped_extension P hw hlo hlt, not_not]
    by_cases hmiss : Missed P w i
    · -- What is missed holds the layer before, which there is as the chain is not empty.
      obtain ⟨k0,rfl⟩ : ∃ k0, k = k0+1 := ⟨k-1,by omega⟩
      have hlo' : P.layerMin j k0 ≤ i := (layerMin_mono P j k0).trans (hmin.trans_le hlo)
      rw [h.content k0 rfl i hlo' hlt, content_succ hmiss (by omega)]
      simp [hmiss]
    · rw [content_of_not_missed fun hc => hmiss hc.1]
      simp [hmiss]

theorem LaneAt.nextRound (h : LaneAt P σ j P.nSieveLayers lane) : LaneAt P σ (j+1) 0 lane where
  sized := h.sized
  resumes s h1 hs k' hk' := by
    have hres := h.resumes s h1 hs k' hk'
    rw [if_pos hk'] at hres
    rw [if_neg (Nat.not_lt_zero k')]
    exact hres.mono (layerMin_nextRound P j k')
  content k0 heq := absurd heq.symm (Nat.succ_ne_zero k0)

end Lane

section Parts
variable {w : ℕ} {P : SieveParams} {σ : ℤ} {j k i : ℕ}

/-- A part of the sieve: the base sieve or one extension. Its layers count from `layer` on, its
multipliers from `first` on, and its words from `word` on in the arrays. -/
structure SievePart where
  layer : ℕ
  first : ℕ
  word : ℕ

def basePart : SievePart := ⟨0,0,0⟩

def extensionPart (P : SieveParams) (w nExtensionSeq : ℕ) : SievePart :=
  ⟨nExtensionSeq+1,P.nExtensionsMinMultiplier,nExtensionSeq*P.nCandidatesWords w⟩

/-- Layer `k'` has been added at index `i`, before layer `k` of round `j`. -/
def Processed (P : SieveParams) (j k k' i : ℕ) : Prop :=
  i < SieveParams.nMinMultiplier j ∨ (i < P.nMaxMultiplier j ∧ k' < k)

/-- One of the first `N` layers of a part has been added with `i` in it. -/
def Seen (P : SieveParams) (w : ℕ) (σ : ℤ) (j k : ℕ) (part : SievePart) (N i : ℕ) : Prop :=
  ∃ k' < N, Processed P j k (part.layer+k') i ∧ Content P w σ (part.layer+k') i

theorem seen_succ (part : SievePart) (N : ℕ) :
    Seen P w σ j (k+1) part N i ↔ Seen P w σ j k part N i ∨
      (SieveParams.nMinMultiplier j ≤ i ∧ i < P.nMaxMultiplier j) ∧
        (part.layer ≤ k ∧ k < part.layer+N) ∧ Content P w σ k i := by
  constructor
  · rintro ⟨k',hk',hlt | ⟨hhi,hlt⟩,hc⟩
    · exact Or.inl ⟨k',hk',Or.inl hlt,hc⟩
    · rcases Nat.lt_succ_iff_lt_or_eq.mp hlt with hlt' | heq
      · exact Or.inl ⟨k',hk',Or.inr ⟨hhi,hlt'⟩,hc⟩
      · rcases Nat.lt_or_ge i (SieveParams.nMinMultiplier j) with hlo | hlo
        · exact Or.inl ⟨k',hk',Or.inl hlo,hc⟩
        · rw [heq] at hc
          exact Or.inr ⟨⟨hlo,hhi⟩,by omega,hc⟩
  · rintro (⟨k',hk',hproc,hc⟩ | ⟨⟨-,hhi⟩,⟨hle,hlt⟩,hc⟩)
    · refine ⟨k',hk',?_,hc⟩
      rcases hproc with hlt | ⟨hhi,hlt⟩
      · exact Or.inl hlt
      · exact Or.inr ⟨hhi,hlt.trans (Nat.lt_succ_self k)⟩
    · have hk : part.layer+(k-part.layer) = k := by omega
      refine ⟨k-part.layer,by omega,Or.inr ⟨hhi,by omega⟩,?_⟩
      rwa [hk]

theorem seen_nextRound (part : SievePart) {N : ℕ} (hN : part.layer+N ≤ P.nSieveLayers)
    (hi : i < P.nSieveSize) :
    Seen P w σ (j+1) 0 part N i ↔ Seen P w σ j P.nSieveLayers part N i := by
  unfold Seen
  apply exists_congr
  intro k'
  apply and_congr_right
  intro hk'
  apply and_congr_left'
  unfold Processed SieveParams.nMaxMultiplier SieveParams.nMinMultiplier nL1CacheElements
  omega

/-- The bit sets of a part, before layer `k` of round `j`. -/
structure CompositesAt (P : SieveParams) (j k : ℕ) (part : SievePart) (c : Composites w) :
    Prop where
  cunningham1 : ∀ i, part.first ≤ i → i < P.nSieveSize →
    (bitAt c.vfCompositeCunningham1 part.word i = true ↔ Seen P w 1 j k part P.nChainLength i)
  cunningham2 : ∀ i, part.first ≤ i → i < P.nSieveSize →
    (bitAt c.vfCompositeCunningham2 part.word i = true ↔ Seen P w (-1) j k part P.nChainLength i)
  biTwin : ∀ i, part.first ≤ i → i < P.nSieveSize →
    (bitAt c.vfCompositeBiTwin part.word i = true ↔
      Seen P w 1 j k part ((P.nChainLength+1)/2) i ∨ Seen P w (-1) j k part (P.nChainLength/2) i)

/-- The allocated size of the three bit sets. -/
structure Composites.Sized (size : ℕ) (c : Composites w) : Prop where
  biTwin : c.vfCompositeBiTwin.size = size
  cunningham1 : c.vfCompositeCunningham1.size = size
  cunningham2 : c.vfCompositeCunningham2.size = size

theorem Composites.Sized.applyLayer {size off lo hi n : ℕ} {vf1 vf2 : Array (BitVec w)}
    {c : Composites w} (h : c.Sized size) : (applyLayer P off lo hi n vf1 vf2 c).Sized size := by
  refine ⟨?_,?_,?_⟩
  · unfold Prime.applyLayer
    dsimp only
    split_ifs <;> simp [h.biTwin]
  · simp [Prime.applyLayer, h.cunningham1]
  · simp [Prime.applyLayer, h.cunningham2]

theorem bitAt_applyLayer {size off lo hi n i : ℕ} {vf1 vf2 : Array (BitVec w)} {c : Composites w}
    (h : c.Sized size) (hi' : off+i/w < size) :
    (bitAt (applyLayer P off lo hi n vf1 vf2 c).vfCompositeCunningham1 off i = true ↔
      bitAt c.vfCompositeCunningham1 off i = true ∨
        (lo ≤ i/w ∧ i/w < hi) ∧ bitAt vf1 0 i = true) ∧
    (bitAt (applyLayer P off lo hi n vf1 vf2 c).vfCompositeCunningham2 off i = true ↔
      bitAt c.vfCompositeCunningham2 off i = true ∨
        (lo ≤ i/w ∧ i/w < hi) ∧ bitAt vf2 0 i = true) ∧
    (bitAt (applyLayer P off lo hi n vf1 vf2 c).vfCompositeBiTwin off i = true ↔
      (bitAt c.vfCompositeBiTwin off i = true ∨
        (lo ≤ i/w ∧ i/w < hi) ∧ n < (P.nChainLength+1)/2 ∧ bitAt vf1 0 i = true) ∨
        (lo ≤ i/w ∧ i/w < hi) ∧ n < P.nChainLength/2 ∧ bitAt vf2 0 i = true) := by
  refine ⟨bitAt_orWords (hi'.trans_eq h.cunningham1.symm),
    bitAt_orWords (hi'.trans_eq h.cunningham2.symm),?_⟩
  have hbt := hi'.trans_eq h.biTwin.symm
  have hle : P.nChainLength/2 ≤ (P.nChainLength+1)/2 := by omega
  unfold applyLayer
  dsimp only
  split_ifs with h2 h1
  · rw [bitAt_orWords (by rw [orWords_size]; exact hbt), bitAt_orWords hbt]
    simp [h2, h2.trans_le hle]
  · rw [bitAt_orWords hbt]
    simp [h1, h2]
  · simp [h1, h2]

/-- A layer added elsewhere leaves the bit sets alone. -/
theorem bitAt_applyLayer_of_disjoint {size off off' lo hi n i : ℕ} {vf1 vf2 : Array (BitVec w)}
    {c : Composites w} (h : c.Sized size) (hi' : off'+i/w < size)
    (hdisj : off'+i/w < off+lo ∨ off+hi ≤ off'+i/w) :
    bitAt (applyLayer P off lo hi n vf1 vf2 c).vfCompositeCunningham1 off' i =
      bitAt c.vfCompositeCunningham1 off' i ∧
    bitAt (applyLayer P off lo hi n vf1 vf2 c).vfCompositeCunningham2 off' i =
      bitAt c.vfCompositeCunningham2 off' i ∧
    bitAt (applyLayer P off lo hi n vf1 vf2 c).vfCompositeBiTwin off' i =
      bitAt c.vfCompositeBiTwin off' i := by
  refine ⟨bitAt_mapWords_of_disjoint (hi'.trans_eq h.cunningham1.symm) hdisj,
    bitAt_mapWords_of_disjoint (hi'.trans_eq h.cunningham2.symm) hdisj,?_⟩
  have hbt := hi'.trans_eq h.biTwin.symm
  unfold applyLayer
  dsimp only
  split_ifs
  · unfold orWords
    rw [bitAt_mapWords_of_disjoint (by rw [mapWords_size]; exact hbt) hdisj,
      bitAt_mapWords_of_disjoint hbt hdisj]
  · exact bitAt_mapWords_of_disjoint hbt hdisj
  · rfl

theorem CompositesAt.congr {part : SievePart} {c c' : Composites w} (h : CompositesAt P j k part c)
    (heq : ∀ i, part.first ≤ i → i < P.nSieveSize →
      bitAt c'.vfCompositeCunningham1 part.word i = bitAt c.vfCompositeCunningham1 part.word i ∧
      bitAt c'.vfCompositeCunningham2 part.word i = bitAt c.vfCompositeCunningham2 part.word i ∧
      bitAt c'.vfCompositeBiTwin part.word i = bitAt c.vfCompositeBiTwin part.word i) :
    CompositesAt P j k part c' where
  cunningham1 i hlo hi := by rw [(heq i hlo hi).1, h.cunningham1 i hlo hi]
  cunningham2 i hlo hi := by rw [(heq i hlo hi).2.1, h.cunningham2 i hlo hi]
  biTwin i hlo hi := by rw [(heq i hlo hi).2.2, h.biTwin i hlo hi]

/-- A part whose window the layer is outside of has no use for it. -/
theorem CompositesAt.skip {part : SievePart} {c : Composites w} (h : CompositesAt P j k part c)
    (hout : ¬ (part.layer ≤ k ∧ k < part.layer+P.nChainLength)) :
    CompositesAt P j (k+1) part c := by
  have hseen : ∀ (σ : ℤ) (N i : ℕ), N ≤ P.nChainLength →
      (Seen P w σ j (k+1) part N i ↔ Seen P w σ j k part N i) := by
    intro σ N i hN
    have hwin : ¬ (part.layer ≤ k ∧ k < part.layer+N) := by omega
    rw [seen_succ]
    simp [hwin]
  refine ⟨fun i hlo hi => ?_,fun i hlo hi => ?_,fun i hlo hi => ?_⟩
  · rw [h.cunningham1 i hlo hi, hseen 1 _ i le_rfl]
  · rw [h.cunningham2 i hlo hi, hseen (-1) _ i le_rfl]
  · rw [h.biTwin i hlo hi, hseen 1 _ i (by omega), hseen (-1) _ i (by omega)]

/-- The words from `lo` to `hi` are those of the multipliers of round `j` in the part. -/
def WordsOf (P : SieveParams) (w j : ℕ) (part : SievePart) (lo hi : ℕ) : Prop :=
  ∀ i, part.first ≤ i → i < P.nSieveSize →
    ((lo ≤ i/w ∧ i/w < hi) ↔ SieveParams.nMinMultiplier j ≤ i ∧ i < P.nMaxMultiplier j)

theorem CompositesAt.apply {size lo hi : ℕ} {part : SievePart} {vf1 vf2 : Array (BitVec w)}
    {c : Composites w} (h : CompositesAt P j k part c) (hsized : c.Sized size)
    (hroom : ∀ i < P.nSieveSize, part.word+i/w < size) (hwords : WordsOf P w j part lo hi)
    (hin : part.layer ≤ k ∧ k < part.layer+P.nChainLength)
    (h1 : ∀ i, part.first ≤ i → SieveParams.nMinMultiplier j ≤ i → i < P.nMaxMultiplier j →
      (bitAt vf1 0 i = true ↔ Content P w 1 k i))
    (h2 : ∀ i, part.first ≤ i → SieveParams.nMinMultiplier j ≤ i → i < P.nMaxMultiplier j →
      (bitAt vf2 0 i = true ↔ Content P w (-1) k i)) :
    CompositesAt P j (k+1) part (applyLayer P part.word lo hi (k-part.layer) vf1 vf2 c) := by
  have hlayer : ∀ {vf : Array (BitVec w)} {σ : ℤ} {N : ℕ} (i : ℕ), part.first ≤ i →
      i < P.nSieveSize →
      (∀ i, part.first ≤ i → SieveParams.nMinMultiplier j ≤ i → i < P.nMaxMultiplier j →
        (bitAt vf 0 i = true ↔ Content P w σ k i)) →
      ((lo ≤ i/w ∧ i/w < hi) ∧ k-part.layer < N ∧ bitAt vf 0 i = true ↔
        (SieveParams.nMinMultiplier j ≤ i ∧ i < P.nMaxMultiplier j) ∧
          (part.layer ≤ k ∧ k < part.layer+N) ∧ Content P w σ k i) := by
    intro vf σ N i hlo hi' hvf
    rw [hwords i hlo hi']
    apply and_congr_right
    rintro ⟨hmin,hmax⟩
    rw [hvf i hlo hmin hmax]
    apply and_congr_left'
    omega
  have hwin : k-part.layer < P.nChainLength := by omega
  refine ⟨fun i hlo hi' => ?_,fun i hlo hi' => ?_,fun i hlo hi' => ?_⟩
  · rw [(bitAt_applyLayer hsized (hroom i hi')).1, h.cunningham1 i hlo hi', seen_succ,
      ← hlayer i hlo hi' h1]
    simp [hwin]
  · rw [(bitAt_applyLayer hsized (hroom i hi')).2.1, h.cunningham2 i hlo hi', seen_succ,
      ← hlayer i hlo hi' h2]
    simp [hwin]
  · rw [(bitAt_applyLayer hsized (hroom i hi')).2.2, h.biTwin i hlo hi', seen_succ, seen_succ,
      ← hlayer i hlo hi' h1, ← hlayer i hlo hi' h2, or_or_or_comm, or_assoc, or_assoc]

theorem CompositesAt.nextRound {part : SievePart} {c : Composites w}
    (h : CompositesAt P j P.nSieveLayers part c)
    (hlayers : part.layer+P.nChainLength ≤ P.nSieveLayers) : CompositesAt P (j+1) 0 part c where
  cunningham1 i hlo hi := by rw [h.cunningham1 i hlo hi, seen_nextRound part hlayers hi]
  cunningham2 i hlo hi := by rw [h.cunningham2 i hlo hi, seen_nextRound part hlayers hi]
  biTwin i hlo hi := by
    rw [h.biTwin i hlo hi, seen_nextRound part (by omega) hi, seen_nextRound part (by omega) hi]

end Parts

section Candidates
variable {w : ℕ} {P : SieveParams} {j i : ℕ}

/-- One of the first `N` layers of a part has `i` in it. -/
def Woven (P : SieveParams) (w : ℕ) (σ : ℤ) (part : SievePart) (N i : ℕ) : Prop :=
  ∃ k < N, Content P w σ (part.layer+k) i

theorem seen_iff_woven {σ : ℤ} {k : ℕ} {part : SievePart} {N : ℕ}
    (h : ∀ k' < N, Processed P j k (part.layer+k') i) :
    Seen P w σ j k part N i ↔ Woven P w σ part N i := by
  constructor
  · rintro ⟨k',hk',-,hc⟩
    exact ⟨k',hk',hc⟩
  · rintro ⟨k',hk',hc⟩
    exact ⟨k',hk',h k' hk',hc⟩

/-- `i` is composite for all three kinds of chains of the part. -/
def Settled (P : SieveParams) (w : ℕ) (part : SievePart) (i : ℕ) : Prop :=
  Woven P w 1 part P.nChainLength i ∧ Woven P w (-1) part P.nChainLength i ∧
    (Woven P w 1 part ((P.nChainLength+1)/2) i ∨ Woven P w (-1) part (P.nChainLength/2) i)

/-- The candidates of a part, before round `j`. -/
def CandidatesAt (P : SieveParams) (j : ℕ) (part : SievePart) (vfCandidates : Array (BitVec w)) :
    Prop :=
  ∀ i, part.first ≤ i → i < P.nSieveSize → i < SieveParams.nMinMultiplier j →
    (bitAt vfCandidates part.word i = true ↔ ¬ Settled P w part i)

theorem bitAt_combineCandidates (hw : 0 < w) {size off lo hi : ℕ} {c : Composites w}
    {vf : Array (BitVec w)} (hvf : vf.size = size) (hi' : off+i/w < size) :
    bitAt (combineCandidates off lo hi c vf) off i = true ↔
      if lo ≤ i/w ∧ i/w < hi then
        ¬ (bitAt c.vfCompositeCunningham1 off i = true ∧
          bitAt c.vfCompositeCunningham2 off i = true ∧ bitAt c.vfCompositeBiTwin off i = true)
      else bitAt vf off i = true := by
  have hbit := Nat.mod_lt i hw
  unfold bitAt combineCandidates
  rw [mapWords_getD (hi'.trans_eq hvf.symm)]
  split_ifs with h
  · rw [BitVec.getLsbD_not, BitVec.getLsbD_and, BitVec.getLsbD_and]
    simp only [hbit, decide_true, Bool.true_and, Bool.not_eq_true', ← Bool.not_eq_true,
      Bool.and_eq_true, and_assoc]
  · rfl

theorem CandidatesAt.next (hw : 0 < w) {size lo hi : ℕ} {part : SievePart} {c : Composites w}
    {vf : Array (BitVec w)} (h : CandidatesAt P j part vf)
    (hc : CompositesAt P j P.nSieveLayers part c) (hvf : vf.size = size)
    (hroom : ∀ i < P.nSieveSize, part.word+i/w < size) (hwords : WordsOf P w j part lo hi)
    (hlayers : part.layer+P.nChainLength ≤ P.nSieveLayers) :
    CandidatesAt P (j+1) part (combineCandidates part.word lo hi c vf) := by
  intro i hlo hi' hlt
  rw [bitAt_combineCandidates hw hvf (hroom i hi')]
  have hmax : i < P.nMaxMultiplier j := by
    unfold SieveParams.nMaxMultiplier
    exact lt_min hlt hi'
  by_cases hmin : SieveParams.nMinMultiplier j ≤ i
  · have hround : lo ≤ i/w ∧ i/w < hi := (hwords i hlo hi').mpr ⟨hmin,hmax⟩
    have hseen : ∀ (σ : ℤ) (N : ℕ), N ≤ P.nChainLength →
        (Seen P w σ j P.nSieveLayers part N i ↔ Woven P w σ part N i) := fun σ N hN =>
      seen_iff_woven fun k' hk' => Or.inr ⟨hmax,by omega⟩
    rw [if_pos hround, hc.cunningham1 i hlo hi', hc.cunningham2 i hlo hi', hc.biTwin i hlo hi',
      hseen 1 _ le_rfl, hseen (-1) _ le_rfl, hseen 1 _ (by omega), hseen (-1) _ (by omega)]
    rfl
  · have hout : ¬ (lo ≤ i/w ∧ i/w < hi) := fun hin => hmin ((hwords i hlo hi').mp hin).1
    rw [if_neg hout]
    exact h i hlo hi' (by omega)

end Candidates

section Weave
variable {w : ℕ} {P : SieveParams} {j k : ℕ}

theorem wordsOf_base (hw : w = 32 ∨ w = 64) :
    WordsOf P w j basePart (SieveParams.nMinMultiplier j/w) (P.nMaxWord w j) := by
  intro i _ hi
  unfold SieveParams.nMaxWord SieveParams.nMaxMultiplier SieveParams.nMinMultiplier nL1CacheElements
  rcases hw with rfl | rfl <;> omega

theorem wordsOf_extension (hw : w = 32 ∨ w = 64) (e : ℕ) :
    WordsOf P w j (extensionPart P w e) (P.nExtMinWord w j) (P.nMaxWord w j) := by
  intro i hlo hi
  have hword : P.nExtensionsMinMultiplier/w ≤ i/w := Nat.div_le_div_right hlo
  rw [← wordsOf_base hw i (Nat.zero_le i) hi]
  unfold SieveParams.nExtMinWord
  rw [max_le_iff]
  simp [hword]

theorem nMaxWord_le (hw : 0 < w) : P.nMaxWord w j ≤ P.nCandidatesWords w := by
  apply Nat.div_le_div_right
  have := min_le_right (nL1CacheElements*(j+1)) P.nSieveSize
  unfold SieveParams.nMaxMultiplier
  omega

theorem extension_room (hw : 0 < w) {e : ℕ} (he : e < P.nSieveExtensions) {i : ℕ}
    (hi : i < P.nSieveSize) :
    (extensionPart P w e).word+i/w < P.nSieveExtensions*P.nCandidatesWords w :=
  slot_lt he (div_lt_nCandidatesWords hw hi)

/-- The words of two extensions are apart. -/
theorem extension_disjoint (hw : 0 < w) {e e' lo : ℕ} (hne : e' ≠ e) {i : ℕ}
    (hi : i < P.nSieveSize) :
    (extensionPart P w e').word+i/w < (extensionPart P w e).word+lo ∨
      (extensionPart P w e).word+P.nMaxWord w j ≤ (extensionPart P w e').word+i/w := by
  have hmax := nMaxWord_le (P := P) (j := j) hw
  have hdiv := div_lt_nCandidatesWords (P := P) hw hi
  unfold extensionPart
  dsimp only
  generalize i/w = word at hdiv ⊢
  rcases Nat.lt_or_gt_of_ne hne with hlt | hgt
  · have := slot_lt hlt hdiv
    omega
  · have := Nat.mul_le_mul_right (P.nCandidatesWords w) hgt
    rw [Nat.succ_mul] at this
    omega

/-- The invariant of the weave, before layer `k` of round `j`. -/
structure WeaveAt (P : SieveParams) (j k : ℕ) (st : WeaveState w) : Prop where
  lane1 : LaneAt P 1 j k st.cunningham1
  lane2 : LaneAt P (-1) j k st.cunningham2
  sized : st.arrays.vfComposite.Sized (P.nCandidatesWords w)
  extendedSized :
    st.arrays.vfExtendedComposite.Sized (P.nSieveExtensions*P.nCandidatesWords w)
  base : CompositesAt P j k basePart st.arrays.vfComposite
  extended : ∀ e < P.nSieveExtensions,
    CompositesAt P j k (extensionPart P w e) st.arrays.vfExtendedComposite
  candidatesSize : st.arrays.vfCandidates.size = P.nCandidatesWords w
  extendedCandidatesSize :
    st.arrays.vfExtendedCandidates.size = P.nSieveExtensions*P.nCandidatesWords w
  candidates : CandidatesAt P j basePart st.arrays.vfCandidates
  extendedCandidates : ∀ e < P.nSieveExtensions,
    CandidatesAt P j (extensionPart P w e) st.arrays.vfExtendedCandidates

/-- The layer's bit set, at the multipliers that the layer starts from. -/
theorem LaneAt.bits {σ : ℤ} {lane : Lane w} (h : LaneAt P σ j (k+1) lane) {i : ℕ}
    (hfirst : k < P.nChainLength ∨ P.nExtensionsMinMultiplier ≤ i)
    (hlo : SieveParams.nMinMultiplier j ≤ i) (hhi : i < P.nMaxMultiplier j) :
    bitAt lane.vfCompositeLayer 0 i = true ↔ Content P w σ k i := by
  refine h.content k rfl i ?_ hhi
  unfold SieveParams.layerMin SieveParams.nExtMinMultiplier
  split_ifs <;> omega

theorem applyExtensions_spec (hw : w = 32 ∨ w = 64) {lane1 lane2 : Lane w} {c : Composites w}
    (h1 : LaneAt P 1 j (k+1) lane1) (h2 : LaneAt P (-1) j (k+1) lane2)
    (hsized : c.Sized (P.nSieveExtensions*P.nCandidatesWords w))
    (hext : ∀ e < P.nSieveExtensions, CompositesAt P j k (extensionPart P w e) c) :
    (applyExtensions P j k lane1.vfCompositeLayer lane2.vfCompositeLayer c).Sized
        (P.nSieveExtensions*P.nCandidatesWords w) ∧
      ∀ e < P.nSieveExtensions, CompositesAt P j (k+1) (extensionPart P w e)
        (applyExtensions P j k lane1.vfCompositeLayer lane2.vfCompositeLayer c) := by
  have hwpos : 0 < w := by omega
  have hrun : (applyExtensions P j k lane1.vfCompositeLayer lane2.vfCompositeLayer c).Sized
        (P.nSieveExtensions*P.nCandidatesWords w) ∧
      ∀ e < P.nSieveExtensions, CompositesAt P j (if e < P.nSieveExtensions then k+1 else k)
        (extensionPart P w e)
        (applyExtensions P j k lane1.vfCompositeLayer lane2.vfCompositeLayer c) := by
    refine rangeLoop_induct (fun n (c : Composites w) =>
      c.Sized (P.nSieveExtensions*P.nCandidatesWords w) ∧ ∀ e < P.nSieveExtensions,
        CompositesAt P j (if e < n then k+1 else k) (extensionPart P w e) c)
      (Nat.zero_le _) never_eq_false ?_ ⟨hsized,by simpa using hext⟩
    rintro e t - he ⟨ht,hat⟩
    have hself : CompositesAt P j k (extensionPart P w e) t := by simpa using hat e he
    have hothers : ∀ e' < P.nSieveExtensions, e' ≠ e →
        CompositesAt P j (if e' < e+1 then k+1 else k) (extensionPart P w e') t := by
      intro e' he' hne
      have hlt : e' < e+1 ↔ e' < e := by omega
      simpa only [hlt] using hat e' he'
    have hwin : (k ≥ e+1 ∧ k < P.nChainLength+(e+1)) ↔
        (extensionPart P w e).layer ≤ k ∧
          k < (extensionPart P w e).layer+P.nChainLength := by
      dsimp only [extensionPart]
      omega
    dsimp only
    split_ifs with hin
    · refine ⟨ht.applyLayer,fun e' he' => ?_⟩
      by_cases hne : e' = e
      · subst hne
        rw [if_pos (Nat.lt_succ_self e')]
        exact hself.apply ht (fun i hi => extension_room hwpos he hi) (wordsOf_extension hw e')
          (hwin.mp hin) (fun i hlo => h1.bits (Or.inr hlo)) (fun i hlo => h2.bits (Or.inr hlo))
      · exact (hothers e' he' hne).congr fun i hlo hi =>
          bitAt_applyLayer_of_disjoint ht (extension_room hwpos he' hi)
            (extension_disjoint hwpos hne hi)
    · refine ⟨ht,fun e' he' => ?_⟩
      by_cases hne : e' = e
      · subst hne
        rw [if_pos (Nat.lt_succ_self e')]
        exact hself.skip fun h => hin (hwin.mpr h)
      · exact hothers e' he' hne
  refine ⟨hrun.1,fun e he => ?_⟩
  have h := hrun.2 e he
  rwa [if_pos he] at h

theorem WeaveAt.layer (hw : w = 32 ∨ w = 64) (fRotate : Bool) (hL : 1 ≤ P.nChainLength)
    {st : WeaveState w} (h : WeaveAt P j k st) (hk : k < P.nSieveLayers) :
    WeaveAt P j (k+1) (weaveLayer fRotate P j st k) := by
  have hwpos : 0 < w := by omega
  have h1 := h.lane1.next hw fRotate hL hk
  have h2 := h.lane2.next hw fRotate hL hk
  have hext := applyExtensions_spec hw h1 h2 h.extendedSized h.extended
  refine
    { lane1 := h1
      lane2 := h2
      sized := ?_
      extendedSized := hext.1
      base := ?_
      extended := hext.2
      candidatesSize := h.candidatesSize
      extendedCandidatesSize := h.extendedCandidatesSize
      candidates := h.candidates
      extendedCandidates := h.extendedCandidates }
  · unfold weaveLayer
    dsimp only
    split_ifs
    · exact h.sized.applyLayer
    · exact h.sized
  · unfold weaveLayer
    dsimp only
    split_ifs with hbase
    · refine h.base.apply h.sized (fun i hi => ?_) (wordsOf_base hw) ⟨Nat.zero_le k,?_⟩
        (fun i _ => h1.bits (Or.inl hbase)) (fun i _ => h2.bits (Or.inl hbase))
      · exact (Nat.zero_add _).trans_lt (div_lt_nCandidatesWords hwpos hi)
      · exact hbase.trans_eq (Nat.zero_add _).symm
    · refine h.base.skip fun hin => hbase ?_
      exact hin.2.trans_eq (Nat.zero_add _)

theorem combineExtensions_spec (hw : w = 32 ∨ w = 64) {c : Composites w} {vf : Array (BitVec w)}
    (hc : ∀ e < P.nSieveExtensions, CompositesAt P j P.nSieveLayers (extensionPart P w e) c)
    (hvf : vf.size = P.nSieveExtensions*P.nCandidatesWords w)
    (hcand : ∀ e < P.nSieveExtensions, CandidatesAt P j (extensionPart P w e) vf) :
    (combineExtensions P j c vf).size = P.nSieveExtensions*P.nCandidatesWords w ∧
      ∀ e < P.nSieveExtensions,
        CandidatesAt P (j+1) (extensionPart P w e) (combineExtensions P j c vf) := by
  have hwpos : 0 < w := by omega
  have hrun : (combineExtensions P j c vf).size = P.nSieveExtensions*P.nCandidatesWords w ∧
      ∀ e < P.nSieveExtensions, CandidatesAt P (if e < P.nSieveExtensions then j+1 else j)
        (extensionPart P w e) (combineExtensions P j c vf) := by
    refine rangeLoop_induct (fun n (vf : Array (BitVec w)) =>
      vf.size = P.nSieveExtensions*P.nCandidatesWords w ∧ ∀ e < P.nSieveExtensions,
        CandidatesAt P (if e < n then j+1 else j) (extensionPart P w e) vf)
      (Nat.zero_le _) never_eq_false ?_ ⟨hvf,by simpa using hcand⟩
    rintro e t - he ⟨ht,hat⟩
    refine ⟨by rw [combineCandidates, mapWords_size, ht],fun e' he' => ?_⟩
    by_cases hne : e' = e
    · subst hne
      rw [if_pos (Nat.lt_succ_self e')]
      have hself : CandidatesAt P j (extensionPart P w e') t := by simpa using hat e' he'
      exact hself.next hwpos (hc e' he') ht (fun i hi => extension_room hwpos he hi)
        (wordsOf_extension hw e') (by dsimp only [extensionPart, SieveParams.nSieveLayers]; omega)
    · have hlt : e' < e+1 ↔ e' < e := by omega
      simp only [hlt]
      intro i hlo hi hmin
      rw [← hat e' he' i hlo hi hmin]
      apply Eq.to_iff
      congr 1
      exact bitAt_mapWords_of_disjoint ((extension_room hwpos he' hi).trans_eq ht.symm)
        (extension_disjoint hwpos hne hi)
  refine ⟨hrun.1,fun e he => ?_⟩
  have h := hrun.2 e he
  rwa [if_pos he] at h

/-- After the last layer the round's candidates are combined, and the next round starts. -/
theorem WeaveAt.nextRound (hw : w = 32 ∨ w = 64) {st : WeaveState w}
    (h : WeaveAt P j P.nSieveLayers st) :
    WeaveAt P (j+1) 0 { st with arrays := weaveCandidates P j st.arrays } := by
  -- Taken apart, so that the kernel need not compare the arrays before and after as a whole.
  obtain ⟨lane1,lane2,⟨vf,c,extendedVf,extendedC⟩⟩ := st
  have hwpos : 0 < w := by omega
  have hbase : basePart.layer+P.nChainLength ≤ P.nSieveLayers := by
    dsimp only [basePart, SieveParams.nSieveLayers]
    omega
  have hext : ∀ e < P.nSieveExtensions,
      (extensionPart P w e).layer+P.nChainLength ≤ P.nSieveLayers := by
    intro e he
    dsimp only [extensionPart, SieveParams.nSieveLayers]
    omega
  have hcand := combineExtensions_spec hw h.extended h.extendedCandidatesSize h.extendedCandidates
  exact
    { lane1 := h.lane1.nextRound
      lane2 := h.lane2.nextRound
      sized := h.sized
      extendedSized := h.extendedSized
      base := h.base.nextRound hbase
      extended := fun e he => (h.extended e he).nextRound (hext e he)
      candidatesSize := (mapWords_size ..).trans h.candidatesSize
      extendedCandidatesSize := hcand.1
      candidates := h.candidates.next hwpos h.base h.candidatesSize
        (fun i hi => (Nat.zero_add _).trans_lt (div_lt_nCandidatesWords hwpos hi))
        (wordsOf_base hw) hbase
      extendedCandidates := hcand.2 }

theorem WeaveAt.round (hw : w = 32 ∨ w = 64) (fRotate : Bool) (hL : 1 ≤ P.nChainLength)
    {newBlock : WeaveCheck → Bool} (hnew : ∀ c, newBlock c = false) {st : WeaveState w}
    (h : WeaveAt P j 0 st) : WeaveAt P (j+1) 0 (weaveRound fRotate P newBlock st j) := by
  have hrun : WeaveAt P j P.nSieveLayers (weaveLayers fRotate P newBlock j st) :=
    rangeLoop_induct (fun k (st : WeaveState w) => WeaveAt P j k st)
      (Nat.zero_le P.nSieveLayers) (fun k => hnew (.layer j k))
      (fun k t _ hk ht => ht.layer hw fRotate hL hk) h
  exact hrun.nextRound hw

theorem bitAt_replicate (size off i : ℕ) :
    bitAt (Array.replicate size 0#w) off i = false := by
  unfold bitAt
  by_cases h : off+i/w < size <;> simp [h]

theorem CompositesAt.zero (part : SievePart) (size : ℕ) :
    CompositesAt P 0 0 part (Composites.zero w size) := by
  have hnone : ∀ (σ : ℤ) (N i : ℕ), ¬ Seen P w σ 0 0 part N i := by
    rintro σ N i ⟨k',-,hlt | ⟨-,hlt⟩,-⟩
    · exact absurd hlt (by unfold SieveParams.nMinMultiplier; omega)
    · omega
  constructor
  all_goals
    intro i _ _
    simp [Composites.zero, bitAt_replicate, hnone]

theorem weaveAt_start {m : MultiplierState} (hm : Seeded P P.nPrimes m)
    (uninit1 uninit2 : ℕ → BitVec w) : WeaveAt P 0 0 (.start P m uninit1 uninit2) where
  lane1 :=
    { sized := ⟨Array.size_ofFn,hm.size1⟩
      resumes := fun s h1 hs k' hk' =>
        ((hm.seeded s h1 hs k' hk').1).mono (Nat.zero_le _)
      content := fun k0 heq => absurd heq.symm (Nat.succ_ne_zero k0) }
  lane2 :=
    { sized := ⟨Array.size_ofFn,hm.size2⟩
      resumes := fun s h1 hs k' hk' =>
        ((hm.seeded s h1 hs k' hk').2).mono (Nat.zero_le _)
      content := fun k0 heq => absurd heq.symm (Nat.succ_ne_zero k0) }
  sized := ⟨Array.size_replicate,Array.size_replicate,Array.size_replicate⟩
  extendedSized := ⟨Array.size_replicate,Array.size_replicate,Array.size_replicate⟩
  base := .zero _ _
  extended e _ := .zero _ _
  candidatesSize := Array.size_replicate
  extendedCandidatesSize := Array.size_replicate
  candidates i _ _ hlt := absurd hlt (by unfold SieveParams.nMinMultiplier; omega)
  extendedCandidates e _ i _ _ hlt := absurd hlt (by unfold SieveParams.nMinMultiplier; omega)

/-- What the bit sets of a part hold after the weave. -/
structure WovenPart (P : SieveParams) (part : SievePart) (c : Composites w)
    (vfCandidates : Array (BitVec w)) (i : ℕ) : Prop where
  cunningham1 : bitAt c.vfCompositeCunningham1 part.word i = true ↔
    Woven P w 1 part P.nChainLength i
  cunningham2 : bitAt c.vfCompositeCunningham2 part.word i = true ↔
    Woven P w (-1) part P.nChainLength i
  biTwin : bitAt c.vfCompositeBiTwin part.word i = true ↔
    Woven P w 1 part ((P.nChainLength+1)/2) i ∨ Woven P w (-1) part (P.nChainLength/2) i
  candidate : bitAt vfCandidates part.word i = true ↔
    ¬ (bitAt c.vfCompositeCunningham1 part.word i = true ∧
      bitAt c.vfCompositeCunningham2 part.word i = true ∧
      bitAt c.vfCompositeBiTwin part.word i = true)

theorem CompositesAt.wovenPart {part : SievePart} {c : Composites w} {vf : Array (BitVec w)}
    (h : CompositesAt P j k part c) (hcand : CandidatesAt P j part vf)
    (hdone : P.nSieveSize ≤ SieveParams.nMinMultiplier j) {i : ℕ} (hlo : part.first ≤ i)
    (hi : i < P.nSieveSize) : WovenPart P part c vf i := by
  have hseen : ∀ (σ : ℤ) (N : ℕ), Seen P w σ j k part N i ↔ Woven P w σ part N i := fun σ N =>
    seen_iff_woven fun k' _ => Or.inl (hi.trans_le hdone)
  have h1 := (h.cunningham1 i hlo hi).trans (hseen 1 _)
  have h2 := (h.cunningham2 i hlo hi).trans (hseen (-1) _)
  have h3 := (h.biTwin i hlo hi).trans (or_congr (hseen 1 _) (hseen (-1) _))
  refine ⟨h1,h2,h3,?_⟩
  rw [hcand i hlo hi (hi.trans_le hdone), h1, h2, h3]
  rfl

/-- An uninterrupted weave ends without a fault, with these bit sets. -/
theorem weave_spec (hw : w = 32 ∨ w = 64) (fRotate : Bool)
    (hpct : P.settings.nSievePercentage ≤ 99) (hL : 1 ≤ P.nChainLength)
    {newBlock : WeaveCheck → Bool} (hnew : ∀ c, newBlock c = false)
    (uninit1 uninit2 : ℕ → BitVec w) :
    ∃ A, weave w fRotate P newBlock uninit1 uninit2 = .ok A ∧
      (∀ i < P.nSieveSize, WovenPart P basePart A.vfComposite A.vfCandidates i) ∧
      ∀ e < P.nSieveExtensions, ∀ i, P.nExtensionsMinMultiplier ≤ i → i < P.nSieveSize →
        WovenPart P (extensionPart P w e) A.vfExtendedComposite A.vfExtendedCandidates i := by
  obtain ⟨m,hm,hseed⟩ := weaveMultipliers_spec w hpct hnew
  have hrun : WeaveAt P P.nArrayRounds 0
      (weaveRounds fRotate P newBlock (.start P m uninit1 uninit2)) :=
    rangeLoop_induct (fun j (st : WeaveState w) => WeaveAt P j 0 st)
      (Nat.zero_le P.nArrayRounds) (fun j => hnew (.round j))
      (fun j t _ _ ht => ht.round hw fRotate hL hnew) (weaveAt_start hseed uninit1 uninit2)
  have hdone : P.nSieveSize ≤ SieveParams.nMinMultiplier P.nArrayRounds := by
    unfold SieveParams.nMinMultiplier SieveParams.nArrayRounds nL1CacheElements
    omega
  have heq : weave w fRotate P newBlock uninit1 uninit2 =
      .ok (weaveRounds fRotate P newBlock (.start P m uninit1 uninit2)).arrays := by
    unfold weave
    rw [hm]
    rfl
  exact ⟨_,heq,fun i hi => hrun.base.wovenPart hrun.candidates hdone (Nat.zero_le i) hi,
    fun e he i hlo hi =>
      (hrun.extended e he).wovenPart (hrun.extendedCandidates e he) hdone hlo hi⟩

end Weave

end Candypool.Prime
