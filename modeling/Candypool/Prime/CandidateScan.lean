import Candypool.Lib.Hits
import Candypool.Prime.Sieve
import Candypool.Prime.ProofOfWork

/-! `GetNextCandidateMultiplier`: the scan over the candidate bits of the sieve and of its extensions. -/
namespace Candypool.Prime
open Candypool.Lib

/-- The members of the sieve that the scan keeps from call to call. -/
structure ScanState where
  nCandidateMultiplier : ℕ
  nCandidateIndex : ℕ
  fCandidateIsExtended : Bool
  nCandidateActiveExtension : ℕ
  deriving DecidableEq, Repr

/-- The reset scan. -/
def ScanState.start : ScanState := ⟨0, 0, false, 0⟩

section Code
variable {w : ℕ} (P : SieveParams) (A : SieveArrays w)

/-- A word of the active array, the extensions lying one after the other. -/
def activeWord (base extended : Array (BitVec w)) (s : ScanState) : BitVec w :=
  if s.fCandidateIsExtended then
    extended.getD (s.nCandidateActiveExtension*P.nCandidatesWords w+s.nCandidateIndex/w) 0#w
  else base.getD (s.nCandidateIndex/w) 0#w

/-- The next array, from its middle on. -/
def nextArray (s : ScanState) : Option ScanState :=
  if !s.fCandidateIsExtended && decide (P.nSieveExtensions > 0) then
    some { s with
      fCandidateIsExtended := true
      nCandidateActiveExtension := 0
      nCandidateIndex := P.nSieveSize/2 }
  else if s.fCandidateIsExtended && decide (s.nCandidateActiveExtension+1 < P.nSieveExtensions) then
    some { s with
      nCandidateActiveExtension := s.nCandidateActiveExtension+1
      nCandidateIndex := P.nSieveSize/2 }
  else none

/-- The product is an `unsigned int`. -/
def candidateMultiplier (s : ScanState) : ℕ :=
  if s.fCandidateIsExtended then s.nCandidateIndex*(2 <<< s.nCandidateActiveExtension) % 2^32
  else s.nCandidateIndex

def candidateType (s : ScanState) : PrimeChainType :=
  if ~~~activeWord P A.vfComposite.vfCompositeBiTwin A.vfExtendedComposite.vfCompositeBiTwin s &&&
      bitMask w s.nCandidateIndex ≠ 0#w then .biTwin
  else if ~~~activeWord P A.vfComposite.vfCompositeCunningham1
      A.vfExtendedComposite.vfCompositeCunningham1 s &&& bitMask w s.nCandidateIndex ≠ 0#w then
    .cunningham1
  else .cunningham2

/-- The multiplier and the type of a candidate, if there is one, and the scan after it. -/
abbrev ScanResult := Option (ℕ × PrimeChainType) × ScanState

/-- The loop, with the current word of the bitmap. -/
def scanLoop : ℕ → BitVec w → ScanState → Option ScanResult
  | 0, _, _ => none
  | fuel+1, lBits, s =>
    let s := { s with nCandidateIndex := s.nCandidateIndex+1 }
    match if s.nCandidateIndex ≥ P.nSieveSize then nextArray P s else some s with
    -- out of candidates
    | none => some (none, .start)
    | some s =>
      let word := activeWord P A.vfCandidates A.vfExtendedCandidates s
      if s.nCandidateIndex % w = 0 ∧ word = 0#w then
        -- skip an entire word
        scanLoop fuel 0#w { s with nCandidateIndex := s.nCandidateIndex+(w-1) }
      else
        -- the word is kept until the next aligned index
        let lBits := if s.nCandidateIndex % w = 0 then word else lBits
        if lBits &&& bitMask w s.nCandidateIndex ≠ 0#w then
          let multiplier := candidateMultiplier s
          some (some (multiplier, candidateType P A s), { s with nCandidateMultiplier := multiplier })
        else scanLoop fuel lBits s

def getNextCandidateMultiplier (fuel : ℕ) (s : ScanState) : Option ScanResult :=
  scanLoop P A fuel (activeWord P A.vfCandidates A.vfExtendedCandidates s) s

/-- One candidate of the scan, with the place where it was found. -/
abbrev Visit := (ℕ × PrimeChainType) × ScanState

/-- Calls until one returns `false`. -/
def scanAll (fuel : ℕ) : ℕ → ScanState → Option (List Visit × ScanState)
  | 0, _ => none
  | n+1, s => match getNextCandidateMultiplier P A fuel s with
    | none => none
    | some (none, s') => some ([], s')
    | some (some found, s') => (scanAll fuel n s').map fun (visits,last) => ((found,s') :: visits, last)

/-- Every turn of the loop and every call moves on. -/
def scanFuel : ℕ := (P.nSieveExtensions+1)*P.nSieveSize+1

/-- The whole scan. -/
def scan : Option (List Visit × ScanState) := scanAll P A (scanFuel P) (scanFuel P) .start

end Code

section Places
variable {w : ℕ} (P : SieveParams) (A : SieveArrays w)

/-- A place of the scan: array 0 is the base, array `k` the extension `k - 1`. -/
def scanAt (multiplier k i : ℕ) : ScanState := ⟨multiplier, i, decide (0 < k), k-1⟩

/-- The array of a place. -/
def ScanState.array (s : ScanState) : ℕ :=
  if s.fCandidateIsExtended then s.nCandidateActiveExtension+1 else 0

/-- Word `n` of array `k`. -/
def wordOf (base extended : Array (BitVec w)) (k n : ℕ) : BitVec w :=
  if 0 < k then extended.getD ((k-1)*P.nCandidatesWords w+n) 0#w else base.getD n 0#w

def partBit (base extended : Array (BitVec w)) (k i : ℕ) : Bool :=
  (wordOf P base extended k (i/w)).getLsbD (i%w)

def candidateWord (k n : ℕ) : BitVec w := wordOf P A.vfCandidates A.vfExtendedCandidates k n

/-- Whether the sieve has candidate `i` in array `k`. -/
def candidateBit (k i : ℕ) : Bool := partBit P A.vfCandidates A.vfExtendedCandidates k i

/-- The type the composite bits of array `k` give to index `i`. -/
def typeAt (k i : ℕ) : PrimeChainType :=
  if partBit P A.vfComposite.vfCompositeBiTwin A.vfExtendedComposite.vfCompositeBiTwin k i = false then
    .biTwin
  else if partBit P A.vfComposite.vfCompositeCunningham1
      A.vfExtendedComposite.vfCompositeCunningham1 k i = false then .cunningham1
  else .cunningham2

/-- The candidates of an array: the base from 1 on, an extension from the middle on. -/
def candidatesOf (k : ℕ) : List ℕ :=
  hitsFrom (candidateBit P A k) (if k = 0 then 1 else P.nSieveSize/2) P.nSieveSize

/-- The scan that is wanted: every candidate once, array by array, with its true multiplier. -/
def wantedVisits : List Visit :=
  (List.range (P.nSieveExtensions+1)).flatMap fun k => (candidatesOf P A k).map fun i =>
    ((i*2^k, typeAt P A k i), scanAt (i*2^k) k i)

/-- The word that is current when the scan leaves an array. -/
def lastWord (k : ℕ) : BitVec w := candidateWord P A k ((P.nSieveSize-1)/w)

end Places

section Bits
variable {w : ℕ} {P : SieveParams} {A : SieveArrays w}

/-- What the code tests of a word. -/
theorem and_bitMask_ne_zero (hw : 0 < w) (word : BitVec w) (i : ℕ) :
    word &&& bitMask w i ≠ 0#w ↔ word.getLsbD (i%w) = true := by
  have hlt := Nat.mod_lt i hw
  constructor
  · intro h
    by_contra hbit
    apply h
    apply BitVec.eq_of_getLsbD_eq
    intro k hk
    rw [BitVec.getLsbD_and, bitMask_getLsbD hw, BitVec.getLsbD_zero]
    by_cases hki : k = i%w
    · rw [Bool.not_eq_true] at hbit
      rw [hki, hbit, Bool.false_and]
    · rw [decide_eq_false hki, Bool.and_false]
  · intro hbit hzero
    have h : (word &&& bitMask w i).getLsbD (i%w) = (0#w).getLsbD (i%w) := by rw [hzero]
    rw [BitVec.getLsbD_and, bitMask_getLsbD hw, hbit, decide_eq_true rfl, BitVec.getLsbD_zero] at h
    cases h

theorem activeWord_scanAt (base extended : Array (BitVec w)) (m k i : ℕ) :
    activeWord P base extended (scanAt m k i) = wordOf P base extended k (i/w) := by
  rw [activeWord, wordOf, scanAt]
  dsimp only
  by_cases hk : 0 < k
  · rw [decide_eq_true hk, if_pos rfl, if_pos hk]
  · rw [decide_eq_false hk, if_neg Bool.false_ne_true, if_neg hk]

theorem candidateType_scanAt (hw : 0 < w) (m k i : ℕ) :
    candidateType P A (scanAt m k i) = typeAt P A k i := by
  have hnot (base extended : Array (BitVec w)) :
      ~~~activeWord P base extended (scanAt m k i) &&& bitMask w (scanAt m k i).nCandidateIndex ≠ 0#w ↔
        partBit P base extended k i = false := by
    have hlt := Nat.mod_lt i hw
    rw [and_bitMask_ne_zero hw, activeWord_scanAt, BitVec.getLsbD_not, partBit]
    change (decide (i%w < w) && !_) = true ↔ _
    rw [decide_eq_true hlt, Bool.true_and, Bool.not_eq_true']
    rfl
  rw [candidateType, typeAt]
  simp only [hnot]

theorem candidateMultiplier_scanAt (m i : ℕ) {k : ℕ} :
    candidateMultiplier (scanAt m k i) = if 0 < k then i*2^k % 2^32 else i := by
  rw [candidateMultiplier, scanAt]
  dsimp only
  by_cases hk : 0 < k
  · have hpow : 2 <<< (k-1) = 2^k := by
      rw [Nat.shiftLeft_eq, ← pow_succ', Nat.sub_add_cancel hk]
    rw [decide_eq_true hk, if_pos rfl, if_pos hk, hpow]
  · rw [decide_eq_false hk, if_neg Bool.false_ne_true, if_neg hk]

theorem nextArray_scanAt (m k i : ℕ) : nextArray P (scanAt m k i) =
    if k < P.nSieveExtensions then some (scanAt m (k+1) (P.nSieveSize/2)) else none := by
  cases k with
  | zero =>
    rw [nextArray, scanAt]
    by_cases hext : 0 < P.nSieveExtensions
    · simp [hext, scanAt]
    · simp [hext]
  | succ k =>
    rw [nextArray, scanAt]
    by_cases hext : k+1 < P.nSieveExtensions
    · simp [hext, scanAt]
    · simp [hext]

end Bits

end Candypool.Prime
