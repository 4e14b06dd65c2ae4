import Candypool.Prime.ScanOrder

/-! The width of the candidate multipliers: the largest index and the last extension decide. -/
namespace Candypool.Prime
open Candypool.Lib

section Origins
variable (P : SieveParams)

/-- `mpzChainOrigin` of `MineProbablePrimeChain`. -/
def mpzChainOrigin (nTriedMultiplier : ℕ) : ℕ := P.mpzHash*P.mpzFixedMultiplier*nTriedMultiplier

/-- The multiplier that is put into the block. -/
def mpzPrimeChainMultiplier (nTriedMultiplier : ℕ) : ℕ := P.mpzFixedMultiplier*nTriedMultiplier

/-- The places where the scan can stand at a candidate. -/
structure CandidatePlace (s : ScanState) : Prop where
  lt : s.nCandidateIndex < P.nSieveSize
  extended : s.fCandidateIsExtended = true →
    P.nSieveSize/2 ≤ s.nCandidateIndex ∧ s.nCandidateActiveExtension < P.nSieveExtensions

/-- The multiplier the sieve has classified, which is not bounded by a machine word. -/
def classifiedMultiplier (s : ScanState) : ℕ :=
  if s.fCandidateIsExtended then s.nCandidateIndex*2^(s.nCandidateActiveExtension+1)
  else s.nCandidateIndex

/-- The miner tests and certifies what was classified. -/
structure MinesClassified (s : ScanState) : Prop where
  multiplier : candidateMultiplier s = classifiedMultiplier s
  tested : mpzChainOrigin P (candidateMultiplier s) = P.fixedFactor*classifiedMultiplier s
  certified : P.mpzHash*mpzPrimeChainMultiplier P (candidateMultiplier s) =
    P.fixedFactor*classifiedMultiplier s

variable {P} {s : ScanState}

theorem visitsOf_mem {w k j : ℕ} {A : SieveArrays w} (h : j ∈ visitsOf P A k) :
    P.nSieveSize/2 ≤ j ∧ j < P.nSieveSize := by
  rw [visitsOf] at h
  cases harrive : arrive P A k (P.nSieveSize/2) (lastWord P A (k-1)) with
  | nil =>
    rw [harrive] at h
    cases h
  | cons j' l =>
    have hfirst := hitsFrom_tail harrive
    rw [harrive] at h
    rcases List.mem_cons.mp h with rfl | hrest
    · exact ⟨hfirst.2.1, hfirst.2.2.1⟩
    · have hmem := mem_hitsFrom.mp hrest
      exact ⟨by omega, hmem.2.1⟩

/-- Whatever the sieve found, the scan stands at such places. -/
theorem scan_candidatePlace {w : ℕ} (hw : w = 32 ∨ w = 64) {A : SieveArrays w} {visits : List Visit}
    {last : ScanState} (hscan : scan P A = some (visits,last)) :
    ∀ v ∈ visits, CandidatePlace P v.2 := by
  rw [scan_eq hw, Option.some.injEq, Prod.mk.injEq] at hscan
  rw [← hscan.1]
  intro v hv
  obtain ⟨⟨k,j⟩,hplace,rfl⟩ := List.mem_map.mp hv
  rcases List.mem_append.mp hplace with hbase | hlater
  · obtain ⟨i,hi,heq⟩ := List.mem_map.mp hbase
    cases heq
    exact ⟨(mem_hitsFrom.mp hi).2.1, fun h => by cases h⟩
  · obtain ⟨k',hk',hmem⟩ := List.mem_flatMap.mp hlater
    obtain ⟨i,hi,heq⟩ := List.mem_map.mp hmem
    cases heq
    have hrange := List.mem_range'_1.mp hk'
    have hindex := visitsOf_mem hi
    refine ⟨hindex.2, fun _ => ⟨hindex.1, ?_⟩⟩
    change k-1 < P.nSieveExtensions
    omega

theorem candidateMultiplier_extended (h : s.fCandidateIsExtended = true) :
    candidateMultiplier s = classifiedMultiplier s % 2^32 := by
  rw [candidateMultiplier, classifiedMultiplier, h, if_pos rfl, if_pos rfl, Nat.shiftLeft_eq,
    pow_succ' 2 s.nCandidateActiveExtension]

theorem candidateMultiplier_eq_iff : candidateMultiplier s = classifiedMultiplier s ↔
    s.fCandidateIsExtended = true → classifiedMultiplier s < 2^32 := by
  by_cases hext : s.fCandidateIsExtended = true
  · rw [candidateMultiplier_extended hext, Nat.mod_eq_iff_lt (by norm_num)]
    exact ⟨fun h _ => h, fun h => h hext⟩
  · rw [candidateMultiplier, classifiedMultiplier, if_neg hext, if_neg hext]
    exact ⟨fun _ h => absurd h hext, fun _ => rfl⟩

theorem minesClassified_iff :
    MinesClassified P s ↔ (s.fCandidateIsExtended = true → classifiedMultiplier s < 2^32) := by
  rw [← candidateMultiplier_eq_iff]
  constructor
  · exact MinesClassified.multiplier
  · intro h
    have hcertified : P.mpzHash*mpzPrimeChainMultiplier P (classifiedMultiplier s) =
        P.fixedFactor*classifiedMultiplier s := by
      rw [mpzPrimeChainMultiplier, ← mul_assoc]
      rfl
    refine ⟨h,?_,?_⟩
    · rw [h]
      rfl
    · rw [h, hcertified]

/-- No multiplier is above that of the last index in the last extension. -/
theorem classifiedMultiplier_le (hplace : CandidatePlace P s) (hext : s.fCandidateIsExtended = true) :
    classifiedMultiplier s ≤ (P.nSieveSize-1)*2^P.nSieveExtensions := by
  have hactive := (hplace.extended hext).2
  have hindex := hplace.lt
  rw [classifiedMultiplier, if_pos hext]
  apply Nat.mul_le_mul
  · omega
  · exact Nat.pow_le_pow_right (by norm_num) hactive

/-- The last index of the last extension. -/
def lastPlace (P : SieveParams) : ScanState :=
  ⟨0, P.nSieveSize-1, true, P.nSieveExtensions-1⟩

theorem lastPlace_candidatePlace (hext : P.nSieveExtensions ≠ 0) : CandidatePlace P (lastPlace P) := by
  have hsize := P.size_mem.1
  refine ⟨?_,fun _ => ⟨?_,?_⟩⟩
  · change P.nSieveSize-1 < P.nSieveSize
    omega
  · change P.nSieveSize/2 ≤ P.nSieveSize-1
    omega
  · change P.nSieveExtensions-1 < P.nSieveExtensions
    omega

/-- For every sieve: the miner works on the classified origins throughout exactly when there is no
extension, or the last index shifted by all the extensions fits in 32 bits. -/
theorem multipliers_not_truncated_iff (P : SieveParams) :
    (∀ s, CandidatePlace P s → MinesClassified P s) ↔
      P.nSieveExtensions = 0 ∨ (P.nSieveSize-1)*2^P.nSieveExtensions < 2^32 := by
  constructor
  · intro h
    by_cases hext : P.nSieveExtensions = 0
    · exact Or.inl hext
    · right
      have hsucc : P.nSieveExtensions-1+1 = P.nSieveExtensions := by omega
      have hlast := minesClassified_iff.mp (h (lastPlace P) (lastPlace_candidatePlace hext)) rfl
      rw [classifiedMultiplier, lastPlace, if_pos rfl] at hlast
      dsimp only at hlast
      rw [hsucc] at hlast
      exact hlast
  · intro h s hplace
    rw [minesClassified_iff]
    intro hext
    have hactive := (hplace.extended hext).2
    have hfit := h.resolve_left (by omega)
    exact (classifiedMultiplier_le hplace hext).trans_lt hfit

/-- The largest settings. -/
def largestSieve : SieveParams where
  settings := ⟨20, 10, 10000000, by decide, percentage_ten, by decide⟩
  nBits := 0x07000000#32
  mpzHash := 2^255
  mpzFixedMultiplier := 1
  vPrimes := generatePrimeTable 10000000
  vPrimes_eq := rfl

/-- Index `9999999` in the last extension gives `1743781888`, modulo `2^32`. -/
theorem multiplier_truncated : ¬ ∀ s, CandidatePlace largestSieve s → MinesClassified largestSieve s := by
  intro h
  have hplace : CandidatePlace largestSieve (lastPlace largestSieve) :=
    lastPlace_candidatePlace (by decide)
  have hfit := minesClassified_iff.mp (h _ hplace) rfl
  revert hfit
  decide

end Origins

end Candypool.Prime
