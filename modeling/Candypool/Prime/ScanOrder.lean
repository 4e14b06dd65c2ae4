import Candypool.Prime.CandidateScan
import Candypool.Prime.SieveMultipliers

/-! Which candidates the scan visits. -/
namespace Candypool.Prime
open Candypool.Lib

section Turns
variable {w : ℕ} (P : SieveParams) (A : SieveArrays w)

/-- The hits from index `i` of array `k` on, the scan arriving there with `lBits` as current word.
The word lasts until the next aligned index. -/
def arrive (k i : ℕ) (lBits : BitVec w) : List ℕ :=
  hitsFrom (fun j => if j/w = i/w ∧ i%w ≠ 0 then lBits.getLsbD (j%w) else candidateBit P A k j)
    i P.nSieveSize

/-- The indexes the scan visits in extension `k - 1`. After the first hit the word is read again. -/
def visitsOf (k : ℕ) : List ℕ :=
  match arrive P A k (P.nSieveSize/2) (lastWord P A (k-1)) with
  | [] => []
  | j :: _ => j :: hitsFrom (candidateBit P A k) (j+1) P.nSieveSize

/-- What the arrays after `k` give. -/
def laterPlaces (k : ℕ) : List (ℕ × ℕ) :=
  (List.range' (k+1) (P.nSieveExtensions-k)).flatMap fun k => (visitsOf P A k).map fun j => (k,j)

/-- What is left to visit after index `i` of array `k`. -/
def remaining (k i : ℕ) : List (ℕ × ℕ) :=
  ((hitsFrom (candidateBit P A k) (i+1) P.nSieveSize).map fun j => (k,j)) ++ laterPlaces P A k

/-- The multiplier the scan gives to a place. -/
def multiplierAt (k i : ℕ) : ℕ := if 0 < k then i*2^k % 2^32 else i

/-- The visit of a place. -/
def visit (place : ℕ × ℕ) : Visit :=
  ((multiplierAt place.1 place.2, typeAt P A place.1 place.2),
    scanAt (multiplierAt place.1 place.2) place.1 place.2)

/-- The end of a call that finds the place. -/
def callResult : Option (ℕ × ℕ) → ScanResult
  | none => (none, .start)
  | some place => (some (visit P A place).1, (visit P A place).2)

/-- A turn of the loop at index `j` of array `k`. -/
def turn (fuel : ℕ) (lBits : BitVec w) (m k j : ℕ) : Option ScanResult :=
  if j%w = 0 ∧ candidateWord P A k (j/w) = 0#w then
    scanLoop P A fuel 0#w (scanAt m k (j+(w-1)))
  else
    let lBits := if j%w = 0 then candidateWord P A k (j/w) else lBits
    if lBits.getLsbD (j%w) then some (callResult P A (some (k,j)))
    else scanLoop P A fuel lBits (scanAt m k j)

end Turns

section Order
variable {w : ℕ} {P : SieveParams} {A : SieveArrays w}

theorem scanLoop_succ (hw : 0 < w) (fuel m k i : ℕ) (lBits : BitVec w) :
    scanLoop P A (fuel+1) lBits (scanAt m k i) =
      if i+1 < P.nSieveSize then turn P A fuel lBits m k (i+1)
      else if k < P.nSieveExtensions then turn P A fuel lBits m (k+1) (P.nSieveSize/2)
      else some (callResult P A none) := by
  have hturn (k j : ℕ) : turn P A fuel lBits m k j =
      let s := scanAt m k j
      let word := activeWord P A.vfCandidates A.vfExtendedCandidates s
      if s.nCandidateIndex % w = 0 ∧ word = 0#w then
        scanLoop P A fuel 0#w { s with nCandidateIndex := s.nCandidateIndex+(w-1) }
      else
        let lBits := if s.nCandidateIndex % w = 0 then word else lBits
        if lBits &&& bitMask w s.nCandidateIndex ≠ 0#w then
          let multiplier := candidateMultiplier s
          some (some (multiplier, candidateType P A s), { s with nCandidateMultiplier := multiplier })
        else scanLoop P A fuel lBits s := by
    dsimp only
    simp only [activeWord_scanAt, candidateType_scanAt hw, candidateMultiplier_scanAt,
      and_bitMask_ne_zero hw]
    rfl
  have hnext : nextArray P ⟨(scanAt m k i).nCandidateMultiplier, (scanAt m k i).nCandidateIndex+1,
      (scanAt m k i).fCandidateIsExtended, (scanAt m k i).nCandidateActiveExtension⟩ =
      if k < P.nSieveExtensions then some (scanAt m (k+1) (P.nSieveSize/2)) else none :=
    nextArray_scanAt m k (i+1)
  have hge : (scanAt m k i).nCandidateIndex+1 ≥ P.nSieveSize ↔ ¬ (i+1 < P.nSieveSize) := by
    rw [scanAt, ge_iff_le, ← not_lt]
  rw [scanLoop]
  dsimp only
  by_cases hlt : i+1 < P.nSieveSize
  · rw [if_pos hlt, hturn, if_neg (fun h => hge.mp h hlt)]
    rfl
  · rw [if_neg hlt, if_pos (hge.mpr hlt), hnext]
    by_cases hk : k < P.nSieveExtensions
    · rw [if_pos hk, if_pos hk, hturn]
    · rw [if_neg hk, if_neg hk]
      rfl

theorem arrive_of_le {k i : ℕ} (hle : P.nSieveSize ≤ i) (lBits : BitVec w) :
    arrive P A k i lBits = [] := hitsFrom_of_le hle

theorem arrive_aligned {k i : ℕ} (hi : i%w = 0) (lBits : BitVec w) :
    arrive P A k i lBits = hitsFrom (candidateBit P A k) i P.nSieveSize := by
  apply hitsFrom_congr
  intro j _ _
  rw [if_neg]
  intro h
  exact h.2 hi

/-- With the word of its own place the scan sees the candidates. -/
theorem arrive_word (k i : ℕ) :
    arrive P A k i (candidateWord P A k (i/w)) =
      hitsFrom (candidateBit P A k) i P.nSieveSize := by
  apply hitsFrom_congr
  intro j _ _
  by_cases hj : j/w = i/w ∧ i%w ≠ 0
  · rw [if_pos hj, ← hj.1]
    rfl
  · rw [if_neg hj]

/-- The word after index `i` was looked at. -/
theorem arrive_step (hw : w = 32 ∨ w = 64) {k i : ℕ} (hi : i < P.nSieveSize) (lBits : BitVec w) :
    arrive P A k i lBits =
      let lBits := if i%w = 0 then candidateWord P A k (i/w) else lBits
      if lBits.getLsbD (i%w) then i :: arrive P A k (i+1) lBits else arrive P A k (i+1) lBits := by
  dsimp only
  by_cases hmod : i%w = 0
  · have hnext : (i+1)/w = i/w := by
      rcases hw with rfl | rfl <;> omega
    rw [if_pos hmod, arrive_aligned hmod, hitsFrom_step hi, ← hnext, arrive_word, hnext]
    rfl
  · have htail : hitsFrom (fun j => if j/w = i/w ∧ i%w ≠ 0 then lBits.getLsbD (j%w)
        else candidateBit P A k j) (i+1) P.nSieveSize = arrive P A k (i+1) lBits := by
      apply hitsFrom_congr
      intro j hj _
      by_cases hmod' : (i+1)%w = 0
      · -- the word ends here
        have hne : ¬ (j/w = i/w ∧ i%w ≠ 0) := by
          rcases hw with rfl | rfl <;> omega
        rw [if_neg hne, if_neg (fun h => h.2 hmod')]
      · have hsame : (i+1)/w = i/w := by
          rcases hw with rfl | rfl <;> omega
        rw [hsame]
        simp only [hmod, hmod', ne_eq, not_false_eq_true, and_true]
    have hself : (if i/w = i/w ∧ i%w ≠ 0 then lBits.getLsbD (i%w) else candidateBit P A k i) =
        lBits.getLsbD (i%w) := if_pos ⟨rfl,hmod⟩
    rw [if_neg hmod, arrive, hitsFrom_step hi, htail, hself]

/-- An empty word is skipped. -/
theorem arrive_skip (hw : w = 32 ∨ w = 64) {k i : ℕ} (hmod : i%w = 0)
    (hword : candidateWord P A k (i/w) = 0#w) (lBits : BitVec w) :
    arrive P A k i lBits = arrive P A k (i+(w-1)+1) 0#w := by
  have hmod' : (i+(w-1)+1)%w = 0 := by
    rcases hw with rfl | rfl <;> omega
  rw [arrive_aligned hmod, arrive_aligned hmod']
  apply hitsFrom_skip (by omega)
  intro j hlo hhi
  have hsame : j/w = i/w := by
    rcases hw with rfl | rfl <;> omega
  change (candidateWord P A k (j/w)).getLsbD (j%w) = false
  rw [hsame, hword, BitVec.getLsbD_zero]

/-- One turn, if the loop does what it should after it. -/
theorem turn_spec (hw : w = 32 ∨ w = 64) {fuel m k j : ℕ} {lBits : BitVec w}
    (hj : j < P.nSieveSize)
    (hlast : j%w ≠ 0 → (P.nSieveSize-1)/w ≤ j/w → lBits = lastWord P A k)
    (hrec : ∀ i lBits, j ≤ i → ((P.nSieveSize-1)/w ≤ i/w → lBits = lastWord P A k) →
      scanLoop P A fuel lBits (scanAt m k i) = some (callResult P A
        (((arrive P A k (i+1) lBits).map fun j => (k,j)) ++ laterPlaces P A k).head?)) :
    turn P A fuel lBits m k j = some (callResult P A
      (((arrive P A k j lBits).map fun j => (k,j)) ++ laterPlaces P A k).head?) := by
  have hend : (P.nSieveSize-1)/w ≤ j/w → candidateWord P A k (j/w) = lastWord P A k := by
    intro h
    have heq : j/w = (P.nSieveSize-1)/w := by
      rcases hw with rfl | rfl <;> omega
    rw [heq]
    rfl
  rw [turn]
  by_cases hskip : j%w = 0 ∧ candidateWord P A k (j/w) = 0#w
  · have hsame : (j+(w-1))/w = j/w := by
      rcases hw with rfl | rfl <;> omega
    rw [if_pos hskip, arrive_skip hw hskip.1 hskip.2]
    apply hrec _ _ (by omega)
    intro h
    rw [hsame] at h
    rw [← hend h, hskip.2]
  · rw [if_neg hskip, arrive_step hw hj]
    dsimp only
    by_cases hbit : (if j%w = 0 then candidateWord P A k (j/w) else lBits).getLsbD (j%w) = true
    · rw [if_pos hbit, if_pos hbit]
      rfl
    · rw [if_neg hbit, if_neg hbit]
      apply hrec _ _ (Nat.le_refl j)
      intro h
      by_cases hmod : j%w = 0
      · rw [if_pos hmod, hend h]
      · rw [if_neg hmod, hlast hmod h]

theorem visitsOf_head? (k : ℕ) : (visitsOf P A k).head? =
    (arrive P A k (P.nSieveSize/2) (lastWord P A (k-1))).head? := by
  rw [visitsOf]
  cases arrive P A k (P.nSieveSize/2) (lastWord P A (k-1)) with
  | nil => rfl
  | cons j l => rfl

theorem laterPlaces_of_le {k : ℕ} (hk : P.nSieveExtensions ≤ k) : laterPlaces P A k = [] := by
  rw [laterPlaces, Nat.sub_eq_zero_of_le hk]
  rfl

theorem laterPlaces_step {k : ℕ} (hk : k < P.nSieveExtensions) :
    laterPlaces P A k = ((visitsOf P A (k+1)).map fun j => (k+1,j)) ++ laterPlaces P A (k+1) := by
  have hsucc : P.nSieveExtensions-k = (P.nSieveExtensions-(k+1))+1 := by omega
  rw [laterPlaces, hsucc, List.range'_succ, List.flatMap_cons]
  rfl

/-- The first place of the later arrays, as the loop finds it when it changes to the next one. -/
theorem laterPlaces_head? {k : ℕ} (hk : k < P.nSieveExtensions) :
    (laterPlaces P A k).head? =
      (((arrive P A (k+1) (P.nSieveSize/2) (lastWord P A k)).map fun j => (k+1,j)) ++
        laterPlaces P A (k+1)).head? := by
  have hhead := visitsOf_head? (P := P) (A := A) (k+1)
  rw [Nat.add_sub_cancel] at hhead
  rw [laterPlaces_step hk, List.head?_append, List.head?_append, List.head?_map, List.head?_map,
    hhead]

/-- The loop finds the next place, or ends the scan. -/
theorem scanLoop_spec (hw : w = 32 ∨ w = 64) (hsize : 100000 ≤ P.nSieveSize) {fuel m k i : ℕ}
    {lBits : BitVec w} (hfuel : (P.nSieveExtensions-k)*P.nSieveSize+(P.nSieveSize-i) < fuel)
    (hk : k ≤ P.nSieveExtensions)
    (hlast : (P.nSieveSize-1)/w ≤ i/w → lBits = lastWord P A k) :
    scanLoop P A fuel lBits (scanAt m k i) = some (callResult P A
      (((arrive P A k (i+1) lBits).map fun j => (k,j)) ++ laterPlaces P A k).head?) := by
  have hpos : 0 < w := by omega
  -- by induction on the fuel: a turn moves the index on, or changes to the next array
  induction fuel generalizing k i lBits with
  | zero => omega
  | succ fuel ih =>
    rw [scanLoop_succ hpos]
    by_cases hi : i+1 < P.nSieveSize
    · rw [if_pos hi]
      apply turn_spec hw hi
      · intro hmod h
        have hsame : (i+1)/w = i/w := by
          rcases hw with rfl | rfl <;> omega
        rw [hsame] at h
        exact hlast h
      · intro i' lBits' hle hlast'
        exact ih (by omega) hk hlast'
    · have hend : (P.nSieveSize-1)/w ≤ i/w := Nat.div_le_div_right (by omega)
      rw [if_neg hi, arrive_of_le (Nat.le_of_not_lt hi), List.map_nil, List.nil_append]
      by_cases hmore : k < P.nSieveExtensions
      · have hleft : (P.nSieveExtensions-k)*P.nSieveSize =
            (P.nSieveExtensions-(k+1))*P.nSieveSize+P.nSieveSize := by
          rw [← Nat.succ_mul]
          congr 1
          omega
        rw [if_pos hmore, hlast hend, laterPlaces_head? hmore]
        apply turn_spec hw (by omega)
        · intro _ h
          -- the middle is not in the last word
          rcases hw with rfl | rfl <;> omega
        · intro i' lBits' hle hlast'
          exact ih (by omega) hmore hlast'
      · rw [if_neg hmore, laterPlaces_of_le (Nat.le_of_not_lt hmore)]
        rfl

/-- A call from a place of the scan. -/
theorem getNextCandidateMultiplier_spec (hw : w = 32 ∨ w = 64) (hsize : 100000 ≤ P.nSieveSize)
    {m k i : ℕ} (hk : k ≤ P.nSieveExtensions) (hi : i < P.nSieveSize) :
    getNextCandidateMultiplier P A (scanFuel P) (scanAt m k i) =
      some (callResult P A (remaining P A k i).head?) := by
  have hfuel : (P.nSieveExtensions-k)*P.nSieveSize+(P.nSieveSize-i) < scanFuel P := by
    have hmul : (P.nSieveExtensions-k)*P.nSieveSize ≤ P.nSieveExtensions*P.nSieveSize :=
      Nat.mul_le_mul_right _ (Nat.sub_le _ _)
    rw [scanFuel, Nat.succ_mul]
    omega
  have hword : arrive P A k (i+1) (candidateWord P A k (i/w)) =
      hitsFrom (candidateBit P A k) (i+1) P.nSieveSize := by
    by_cases hmod : (i+1)%w = 0
    · exact arrive_aligned hmod _
    · have hsame : (i+1)/w = i/w := by
        rcases hw with rfl | rfl <;> omega
      rw [← hsame, arrive_word]
  rw [getNextCandidateMultiplier, activeWord_scanAt, remaining, ← hword]
  apply scanLoop_spec hw hsize hfuel hk
  intro h
  have heq : i/w = (P.nSieveSize-1)/w := by
    rcases hw with rfl | rfl <;> omega
  rw [heq]
  rfl

/-- What is left after the first place of the later arrays. -/
theorem laterPlaces_cons {k k' j : ℕ} {rest : List (ℕ × ℕ)}
    (h : laterPlaces P A k = (k',j) :: rest) :
    k < k' ∧ k' ≤ P.nSieveExtensions ∧ P.nSieveSize/2 ≤ j ∧ j < P.nSieveSize ∧
      rest = remaining P A k' j := by
  induction hn : P.nSieveExtensions-k generalizing k with
  | zero =>
    rw [laterPlaces_of_le (by omega)] at h
    cases h
  | succ n ih =>
    rw [laterPlaces_step (by omega)] at h
    cases hvisits : visitsOf P A (k+1) with
    | nil =>
      rw [hvisits] at h
      have hrest := ih h (by omega)
      exact ⟨by omega, hrest.2⟩
    | cons j' l =>
      rw [hvisits] at h
      rw [visitsOf] at hvisits
      cases harrive : arrive P A (k+1) (P.nSieveSize/2) (lastWord P A (k+1-1)) with
      | nil =>
        rw [harrive] at hvisits
        cases hvisits
      | cons j'' l' =>
        have hfirst := hitsFrom_tail harrive
        rw [harrive] at hvisits
        cases hvisits
        cases h
        exact ⟨Nat.lt_succ_self k, by omega, hfirst.2.1, hfirst.2.2.1, rfl⟩

/-- The place that comes first, and what is left after it. -/
theorem remaining_cons {k k' i j : ℕ} {rest : List (ℕ × ℕ)} (hk : k ≤ P.nSieveExtensions)
    (h : remaining P A k i = (k',j) :: rest) :
    (k = k' ∧ i < j ∨ k < k' ∧ P.nSieveSize/2 ≤ j) ∧ k' ≤ P.nSieveExtensions ∧ j < P.nSieveSize ∧
      rest = remaining P A k' j := by
  rw [remaining] at h
  cases hhits : hitsFrom (candidateBit P A k) (i+1) P.nSieveSize with
  | nil =>
    rw [hhits] at h
    have hlater := laterPlaces_cons h
    exact ⟨Or.inr ⟨hlater.1,hlater.2.2.1⟩, hlater.2.1, hlater.2.2.2⟩
  | cons j' l =>
    have htail := hitsFrom_tail hhits
    rw [hhits] at h
    cases h
    refine ⟨Or.inl ⟨rfl,by omega⟩, hk, htail.2.2.1, ?_⟩
    rw [remaining, ← htail.1]
    rfl

/-- All the calls from a place on. -/
theorem scanAll_spec (hw : w = 32 ∨ w = 64) (hsize : 100000 ≤ P.nSieveSize) {n m k i : ℕ}
    (hk : k ≤ P.nSieveExtensions) (hi : i < P.nSieveSize)
    (hn : (P.nSieveExtensions-k)*P.nSieveSize+(P.nSieveSize-i) < n) :
    scanAll P A (scanFuel P) n (scanAt m k i) =
      some ((remaining P A k i).map (visit P A), .start) := by
  induction n generalizing m k i with
  | zero => omega
  | succ n ih =>
    rw [scanAll, getNextCandidateMultiplier_spec hw hsize hk hi]
    cases hrem : remaining P A k i with
    | nil => rfl
    | cons place rest =>
      obtain ⟨k',j⟩ := place
      have hcons := remaining_cons hk hrem
      have hleft : (P.nSieveExtensions-k')*P.nSieveSize+(P.nSieveSize-j) < n := by
        rcases hcons.1 with ⟨rfl,hij⟩ | ⟨hkk,hj⟩
        · omega
        · have hmul : (P.nSieveExtensions-k'+1)*P.nSieveSize ≤
              (P.nSieveExtensions-k)*P.nSieveSize := Nat.mul_le_mul_right _ (by omega)
          rw [Nat.succ_mul] at hmul
          omega
      have hrest := ih (m := multiplierAt k' j) hcons.2.1 hcons.2.2.1 hleft
      rw [hcons.2.2.2]
      change (scanAll P A (scanFuel P) n (scanAt (multiplierAt k' j) k' j)).map _ = _
      rw [hrest]
      rfl

end Order

section Wanted
variable {w : ℕ} (P : SieveParams) (A : SieveArrays w)

/-- At the middle of an extension the stale word of the array before finds first what the
extension's own word would, up to the next aligned index. -/
def SwitchesClean : Prop :=
  ∀ k, 1 ≤ k → k ≤ P.nSieveExtensions → P.nSieveSize/2%w = 0 ∨
    (hitsFrom (fun j => (lastWord P A (k-1)).getLsbD (j%w)) (P.nSieveSize/2)
      ((P.nSieveSize/2/w+1)*w)).head? =
    (hitsFrom (candidateBit P A k) (P.nSieveSize/2) ((P.nSieveSize/2/w+1)*w)).head?

/-- The multipliers of the candidates fit in an `unsigned int`. -/
def MultipliersFit : Prop :=
  ∀ k, 1 ≤ k → k ≤ P.nSieveExtensions → ∀ i ∈ candidatesOf P A k, i*2^k < 2^32

variable {P A}

theorem candidatesOf_extension {k : ℕ} (hk : 1 ≤ k) :
    candidatesOf P A k = hitsFrom (candidateBit P A k) (P.nSieveSize/2) P.nSieveSize := by
  rw [candidatesOf, if_neg (Nat.ne_of_gt hk)]

/-- An extension is visited rightly if and only if it is entered rightly. -/
theorem visitsOf_eq_iff {k : ℕ} (hk : 1 ≤ k) : visitsOf P A k = candidatesOf P A k ↔
    (arrive P A k (P.nSieveSize/2) (lastWord P A (k-1))).head? = (candidatesOf P A k).head? := by
  constructor
  · intro h
    rw [← visitsOf_head?, h]
  · intro h
    rw [visitsOf]
    cases harrive : arrive P A k (P.nSieveSize/2) (lastWord P A (k-1)) with
    | nil =>
      rw [harrive] at h
      exact (List.head?_eq_none_iff.mp h.symm).symm
    | cons j l =>
      rw [harrive] at h
      cases hcand : candidatesOf P A k with
      | nil =>
        rw [hcand] at h
        cases h
      | cons j' l' =>
        rw [hcand] at h
        cases h
        rw [candidatesOf_extension hk] at hcand
        rw [(hitsFrom_tail hcand).1]

theorem switch_iff (hw : w = 32 ∨ w = 64) {k : ℕ} (hk : 1 ≤ k) :
    visitsOf P A k = candidatesOf P A k ↔ P.nSieveSize/2%w = 0 ∨
      (hitsFrom (fun j => (lastWord P A (k-1)).getLsbD (j%w)) (P.nSieveSize/2)
        ((P.nSieveSize/2/w+1)*w)).head? =
      (hitsFrom (candidateBit P A k) (P.nSieveSize/2) ((P.nSieveSize/2/w+1)*w)).head? := by
  have hsize := P.size_mem.1
  rw [visitsOf_eq_iff hk, candidatesOf_extension hk]
  by_cases hmod : P.nSieveSize/2%w = 0
  · rw [arrive_aligned hmod]
    exact ⟨fun _ => Or.inl hmod, fun _ => rfl⟩
  · -- the stale word lasts to the end of the word of the middle index
    have hlo : P.nSieveSize/2 ≤ (P.nSieveSize/2/w+1)*w := by
      rcases hw with rfl | rfl <;> omega
    have hhi : (P.nSieveSize/2/w+1)*w ≤ P.nSieveSize := by
      rcases hw with rfl | rfl <;> omega
    have hstale : hitsFrom (fun j => if j/w = P.nSieveSize/2/w ∧ P.nSieveSize/2%w ≠ 0 then
        (lastWord P A (k-1)).getLsbD (j%w) else candidateBit P A k j) (P.nSieveSize/2)
          ((P.nSieveSize/2/w+1)*w) =
        hitsFrom (fun j => (lastWord P A (k-1)).getLsbD (j%w)) (P.nSieveSize/2)
          ((P.nSieveSize/2/w+1)*w) := by
      apply hitsFrom_congr
      intro j hjlo hjhi
      have hsame : j/w = P.nSieveSize/2/w := by
        rcases hw with rfl | rfl <;> omega
      rw [if_pos ⟨hsame,hmod⟩]
    have hreal : hitsFrom (fun j => if j/w = P.nSieveSize/2/w ∧ P.nSieveSize/2%w ≠ 0 then
        (lastWord P A (k-1)).getLsbD (j%w) else candidateBit P A k j)
          ((P.nSieveSize/2/w+1)*w) P.nSieveSize =
        hitsFrom (candidateBit P A k) ((P.nSieveSize/2/w+1)*w) P.nSieveSize := by
      apply hitsFrom_congr
      intro j hjlo _
      have hne : ¬ (j/w = P.nSieveSize/2/w ∧ P.nSieveSize/2%w ≠ 0) := by
        rcases hw with rfl | rfl <;> omega
      rw [if_neg hne]
    rw [arrive, hitsFrom_append hlo hhi, hitsFrom_append hlo hhi, hstale, hreal,
      head?_append_iff (b := (P.nSieveSize/2/w+1)*w) (fun x hx => (mem_hitsFrom.mp hx).2.1)
        (fun x hx => (mem_hitsFrom.mp hx).2.1) (fun x hx => (mem_hitsFrom.mp hx).1)]
    exact ⟨Or.inr, fun h => h.resolve_left hmod⟩

theorem scanAt_array (m k i : ℕ) : (scanAt m k i).array = k := by
  cases k with
  | zero => rfl
  | succ k => rfl

theorem multiplierAt_eq_iff {k : ℕ} (hk : 1 ≤ k) (i : ℕ) :
    multiplierAt k i = i*2^k ↔ i*2^k < 2^32 := by
  rw [multiplierAt, if_pos (Nat.lt_of_succ_le hk), Nat.mod_eq_iff_lt (by norm_num)]

def visitIndex (v : Visit) : ℕ := v.2.nCandidateIndex

/-- The visits of the array `k`, and those that are wanted. -/
theorem extension_visits_iff {k : ℕ} (hk : 1 ≤ k) :
    (visitsOf P A k).map (fun i => visit P A (k,i)) = (candidatesOf P A k).map (fun i =>
        (((i*2^k, typeAt P A k i), scanAt (i*2^k) k i) : Visit)) ↔
      visitsOf P A k = candidatesOf P A k ∧ ∀ i ∈ candidatesOf P A k, i*2^k < 2^32 := by
  have hfit (i : ℕ) : visit P A (k,i) = (((i*2^k, typeAt P A k i), scanAt (i*2^k) k i) : Visit) ↔
      i*2^k < 2^32 := by
    rw [← multiplierAt_eq_iff hk]
    constructor
    · intro h
      exact congrArg (fun x : Visit => x.1.1) h
    · intro h
      rw [← h]
      rfl
  have hindex (a : ℕ) : visitIndex (visit P A (k,a)) = a := rfl
  rw [map_eq_map_iff_of_index hindex (fun _ => rfl)]
  simp only [hfit]

/-- The visits are the wanted ones exactly when every extension is entered cleanly and no
multiplier is cut off. -/
theorem visits_eq_wanted_iff (hw : w = 32 ∨ w = 64) :
    (remaining P A 0 0).map (visit P A) = wantedVisits P A ↔
      SwitchesClean P A ∧ MultipliersFit P A := by
  have hwant : wantedVisits P A = ((candidatesOf P A 0).map fun i => visit P A (0,i)) ++
      (List.range' 1 P.nSieveExtensions).flatMap fun k => (candidatesOf P A k).map fun i =>
        (((i*2^k, typeAt P A k i), scanAt (i*2^k) k i) : Visit) := by
    have hbase (i : ℕ) : (((i*2^0, typeAt P A 0 i), scanAt (i*2^0) 0 i) : Visit) =
        visit P A (0,i) := by
      rw [pow_zero, mul_one]
      rfl
    rw [wantedVisits, List.range_eq_range', List.range'_succ, List.flatMap_cons]
    simp only [hbase]
  have hgot : (remaining P A 0 0).map (visit P A) =
      ((candidatesOf P A 0).map fun i => visit P A (0,i)) ++
      (List.range' 1 P.nSieveExtensions).flatMap fun k =>
        (visitsOf P A k).map fun i => visit P A (k,i) := by
    rw [remaining, laterPlaces, List.map_append, List.map_flatMap, List.map_map]
    simp only [List.map_map]
    rfl
  have hgotTag (k : ℕ) : ∀ x ∈ (visitsOf P A k).map fun i => visit P A (k,i), x.2.array = k := by
    intro x hx
    obtain ⟨i,_,rfl⟩ := List.mem_map.mp hx
    exact scanAt_array _ _ _
  have hwantTag (k : ℕ) : ∀ x ∈ (candidatesOf P A k).map (fun i =>
      (((i*2^k, typeAt P A k i), scanAt (i*2^k) k i) : Visit)), x.2.array = k := by
    intro x hx
    obtain ⟨i,_,rfl⟩ := List.mem_map.mp hx
    exact scanAt_array _ _ _
  have hnodup : (List.range' 1 P.nSieveExtensions).Nodup := List.nodup_range' 1 (by norm_num)
  rw [hgot, hwant, List.append_cancel_left_eq, flatMap_eq_iff_of_tag hnodup hgotTag hwantTag]
  constructor
  · intro h
    have hall (k : ℕ) (hk : 1 ≤ k) (hkE : k ≤ P.nSieveExtensions) :=
      (extension_visits_iff hk).mp (h k (List.mem_range'_1.mpr ⟨hk, by omega⟩))
    constructor
    · intro k hk hkE
      exact (switch_iff hw hk).mp (hall k hk hkE).1
    · intro k hk hkE
      exact (hall k hk hkE).2
  · intro h k hmem
    have hk := List.mem_range'_1.mp hmem
    have hkE : k ≤ P.nSieveExtensions := by omega
    apply (extension_visits_iff hk.1).mpr
    exact ⟨(switch_iff hw hk.1).mpr (h.1 k hk.1 hkE), h.2 k hk.1 hkE⟩

theorem scan_eq (hw : w = 32 ∨ w = 64) :
    scan P A = some ((remaining P A 0 0).map (visit P A), .start) := by
  have hsize := P.size_mem.1
  have hfuel : (P.nSieveExtensions-0)*P.nSieveSize+(P.nSieveSize-0) < scanFuel P := by
    rw [scanFuel, Nat.succ_mul, Nat.sub_zero, Nat.sub_zero]
    omega
  exact scanAll_spec (m := 0) (k := 0) (i := 0) hw hsize (Nat.zero_le _) (by omega) hfuel

/-- The scan from its reset state ends in its reset state again. It visits every candidate once, in
order and with its true multiplier and type, exactly when no stale word is taken for an extension's
and no multiplier is cut off. -/
theorem scan_visits_every_candidate_iff (hw : w = 32 ∨ w = 64) (P : SieveParams) (A : SieveArrays w) :
    ∃ visits, scan P A = some (visits, .start) ∧
      (visits = wantedVisits P A ↔ SwitchesClean P A ∧ MultipliersFit P A) :=
  ⟨_, scan_eq hw, visits_eq_wanted_iff hw⟩

theorem percentage_ten : nMinSievePercentage ≤ 10 ∧ 10 ≤ nMaxSievePercentage := by
  decide

/-- The smallest sieve, with one extension. -/
def smallSieve : SieveParams where
  settings := ⟨1, 10, 100000, by decide, percentage_ten, by decide⟩
  nBits := 0x07000000#32
  mpzHash := 2^255
  mpzFixedMultiplier := 1
  vPrimes := generatePrimeTable 100000
  vPrimes_eq := rfl

/-- One candidate, in the last word of the base array. -/
def lastCandidate : SieveArrays 64 where
  vfCandidates := (Array.replicate 1563 0#64).setIfInBounds 1562 0x100000#64
  vfComposite := Composites.zero 64 1563
  vfExtendedCandidates := Array.replicate 1563 0#64
  vfExtendedComposite := Composites.zero 64 1563

theorem scan_visits_every_candidate_iff_sample :
    ∃ visits, scan smallSieve lastCandidate = some (visits, .start) ∧
      (visits = wantedVisits smallSieve lastCandidate ↔
        SwitchesClean smallSieve lastCandidate ∧ MultipliersFit smallSieve lastCandidate) :=
  scan_visits_every_candidate_iff (Or.inr rfl) smallSieve lastCandidate

/-- The scan also visits index 50004 of the extension, where the base array's last word has a bit
and the extension has none. -/
theorem scan_visits_stale_candidate : ¬ ∃ visits,
    scan smallSieve lastCandidate = some (visits, .start) ∧
      visits = wantedVisits smallSieve lastCandidate := by
  have hzero (n : ℕ) : candidateWord smallSieve lastCandidate 1 n = 0#64 := by
    rw [candidateWord, wordOf, if_pos Nat.one_pos]
    change (Array.replicate 1563 0#64).getD _ 0#64 = 0#64
    rw [Array.getD_eq_getD_getElem?, Array.getElem?_replicate]
    split_ifs
    · rfl
    · rfl
  have hlast : lastWord smallSieve lastCandidate 0 = 0x100000#64 := by
    have hword : (smallSieve.nSieveSize-1)/64 = 1562 := rfl
    rw [lastWord, candidateWord, wordOf, if_neg (Nat.lt_irrefl 0), hword, lastCandidate]
    dsimp only
    rw [Array.getD_eq_getD_getElem?,
      Array.getElem?_setIfInBounds_self_of_lt (by rw [Array.size_replicate]; norm_num)]
    rfl
  have hmiddle : smallSieve.nSieveSize/2 = 50000 := rfl
  rintro ⟨visits,hscan,hwant⟩
  rw [scan_eq (Or.inr rfl), Option.some.injEq, Prod.mk.injEq] at hscan
  rw [← hscan.1] at hwant
  have hclean := ((visits_eq_wanted_iff (Or.inr rfl)).mp hwant).1 1 (Nat.le_refl 1) (Nat.le_refl 1)
  rw [hmiddle, Nat.sub_self, hlast] at hclean
  have hreal : hitsFrom (candidateBit smallSieve lastCandidate 1) 50000 ((50000/64+1)*64) = [] := by
    rw [List.eq_nil_iff_forall_not_mem]
    intro j hj
    have hbit := (mem_hitsFrom.mp hj).2.2
    change (candidateWord smallSieve lastCandidate 1 (j/64)).getLsbD (j%64) = true at hbit
    rw [hzero, BitVec.getLsbD_zero] at hbit
    cases hbit
  have hstale : 50004 ∈ hitsFrom (fun j => (0x100000#64).getLsbD (j%64)) 50000 ((50000/64+1)*64) := by
    rw [mem_hitsFrom]
    exact ⟨by norm_num, by norm_num, by decide⟩
  rw [hreal, List.head?_nil, List.head?_eq_none_iff] at hclean
  rcases hclean with hmod | hnone
  · norm_num at hmod
  · rw [hnone] at hstale
    cases hstale

end Wanted

end Candypool.Prime
