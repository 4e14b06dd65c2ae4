import Candypool.Chain.State

/-! The retargeting step: `TargetGetNext` moves an 8.24 target through a reciprocal difficulty and
rolls over to the next or to the previous chain length at two thresholds. -/
namespace Candypool.Chain
open Candypool.Prime

def nFractionalDifficultyThreshold : ℕ := 2^(8+32)

def nTargetTimespan : ℤ := 7*24*60*60
def nTargetSpacing : ℤ := 60

def targetGetLimit (params : TargetParams) : BitVec 32 := params.nTargetMinLength <<< nFractionalBits

def targetGetInitial (params : TargetParams) : BitVec 32 :=
  params.nTargetInitialLength <<< nFractionalBits

def targetDecrementLength (params : TargetParams) (nBits : BitVec 32) : BitVec 32 :=
  if targetGetLength nBits > params.nTargetMinLength then nBits-(1 <<< nFractionalBits) else nBits

/-- The result and the target it leaves; an error leaves the target alone. -/
def targetSetFractionalDifficulty (nFractionalDifficulty : ℕ) (nBits : BitVec 32) :
    Bool × BitVec 32 :=
  if nFractionalDifficulty < nFractionalDifficultyMin then (false, nBits)
  else
    let nFractional := nFractionalDifficultyMax/nFractionalDifficulty
    if nFractional > 2^nFractionalBits then (false, nBits)
    else (true, (nBits &&& targetLengthMask) ||| BitVec.ofNat 32 (2^nFractionalBits-nFractional))

/-- The number the difficulty is divided by. -/
def targetDivisor (nInterval nTargetSpacing nActualSpacing : ℤ) : ℤ :=
  (nInterval-1)*nTargetSpacing+nActualSpacing+nActualSpacing

/-- The scaled difficulty, clamped to its range. -/
def targetScaleDifficulty (nFractionalDifficulty : ℕ) (nInterval nTargetSpacing divisor : ℤ) : ℕ :=
  let bnFractionalDifficulty : CBigNum :=
    bnDiv (nFractionalDifficulty*((nInterval+1)*nTargetSpacing)) divisor
  let bnFractionalDifficulty := if bnFractionalDifficulty > nFractionalDifficultyMax then
    (nFractionalDifficultyMax : CBigNum) else bnFractionalDifficulty
  let bnFractionalDifficulty := if bnFractionalDifficulty < nFractionalDifficultyMin then
    (nFractionalDifficultyMin : CBigNum) else bnFractionalDifficulty
  (getuint256 bnFractionalDifficulty).toNat % 2^64

/-- `none` is the exception that a division by zero throws. -/
def targetGetNext (params : TargetParams) (nBits : BitVec 32)
    (nInterval nTargetSpacing nActualSpacing : ℤ) : Option (Bool × BitVec 32) :=
  let divisor := targetDivisor nInterval nTargetSpacing nActualSpacing
  if divisor = 0 then none
  else
    let nFractionalDifficultyNew := targetScaleDifficulty (targetGetFractionalDifficulty nBits)
      nInterval nTargetSpacing divisor
    -- step up length if fractional past threshold
    if nFractionalDifficultyNew > nFractionalDifficultyThreshold then
      some (targetSetFractionalDifficulty nFractionalDifficultyMin (targetIncrementLength nBits))
    -- step down length if fractional at minimum
    else if nFractionalDifficultyNew = nFractionalDifficultyMin ∧
        targetGetLength nBits > params.nTargetMinLength then
      some (targetSetFractionalDifficulty nFractionalDifficultyThreshold
        (targetDecrementLength params nBits))
    else some (targetSetFractionalDifficulty nFractionalDifficultyNew nBits)

section Step

/-- The fractional part of a difficulty. -/
def fractionOf (difficulty : ℕ) : ℕ := 2^24-2^56/difficulty

/-- The target for a length and a scaled difficulty, as a number. -/
def rollOver (minLength length difficulty : ℕ) : ℕ :=
  if difficulty > 2^40 then (length+1)*2^24
  else if difficulty = 2^32 ∧ length > minLength then (length-1)*2^24+(2^24-2^16)
  else length*2^24+fractionOf difficulty

/-- The scaled difficulty of a target. -/
def scaled (bits factor divisor : ℕ) : ℕ :=
  max (2^32) (min (2^56) (2^56/(2^24-bits % 2^24)*factor/divisor))

/-- The targets that retargeting moves between. -/
structure TargetOk (minLength bits : ℕ) : Prop where
  length : minLength ≤ bits/2^24
  short : bits/2^24 ≤ 99
  fraction : bits % 2^24 ≤ 2^24-2^16

theorem div_difficulty {e : ℕ} (hlow : 2^32 ≤ e) (hhigh : e ≤ 2^40) :
    2^16 ≤ 2^56/e ∧ 2^56/e ≤ 2^24 := by
  constructor
  · rw [Nat.le_div_iff_mul_le (by omega)]
    calc 2^16*e ≤ 2^16*2^40 := Nat.mul_le_mul_left _ hhigh
      _ = 2^56 := by norm_num
  · calc 2^56/e ≤ 2^56/2^32 := Nat.div_le_div_left hlow (by norm_num)
      _ = 2^24 := by norm_num

theorem fractionOf_le {e : ℕ} (hlow : 2^32 ≤ e) (hhigh : e ≤ 2^40) :
    fractionOf e ≤ 2^24-2^16 := by
  have := div_difficulty hlow hhigh
  rw [fractionOf]
  omega

theorem fractionOf_mono {e e' : ℕ} (hpos : 0 < e) (hle : e ≤ e') : fractionOf e ≤ fractionOf e' :=
  Nat.sub_le_sub_left (Nat.div_le_div_left hle hpos) _

/-- A higher difficulty never gives a lower target. -/
theorem rollOver_mono (minLength length : ℕ) {e e' : ℕ} (hlow : 2^32 ≤ e) (hle : e ≤ e') :
    rollOver minLength length e ≤ rollOver minLength length e' := by
  rw [rollOver, rollOver]
  by_cases hup : e > 2^40
  · rw [if_pos hup, if_pos (by omega)]
  rw [if_neg hup]
  have hfrac := fractionOf_le hlow (not_lt.mp hup)
  by_cases hdown : e = 2^32 ∧ length > minLength
  · rw [if_pos hdown]
    split_ifs <;> omega
  rw [if_neg hdown]
  by_cases hup' : e' > 2^40
  · rw [if_pos hup']
    omega
  · have hmono := fractionOf_mono (by omega) hle
    rw [if_neg hup', if_neg (by omega)]
    omega

/-- The length moves by one at most, and a target below the last length is the highest of its
own. -/
theorem rollOver_bounds (minLength : ℕ) {length e : ℕ} (hlow : 2^32 ≤ e) (hlen : 0 < length) :
    (length-1)*2^24+(2^24-2^16) ≤ rollOver minLength length e ∧
      rollOver minLength length e ≤ (length+1)*2^24 ∧
      (e ≤ 2^40 → rollOver minLength length e ≤ length*2^24+(2^24-2^16)) ∧
      (2^32 < e ∨ length ≤ minLength → length*2^24 ≤ rollOver minLength length e) := by
  rw [rollOver]
  split_ifs with hup hdown
  · omega
  · omega
  · have hfrac := fractionOf_le hlow (not_lt.mp hup)
    omega

theorem scaled_low (bits factor divisor : ℕ) : 2^32 ≤ scaled bits factor divisor :=
  le_max_left _ _

theorem scaled_antitone (bits factor : ℕ) {divisor divisor' : ℕ} (hpos : 0 < divisor)
    (hle : divisor ≤ divisor') : scaled bits factor divisor' ≤ scaled bits factor divisor := by
  rw [scaled, scaled]
  have hdiv := Nat.div_le_div_left (a := 2^56/(2^24-bits % 2^24)*factor) hle hpos
  omega

theorem scaled_mono {bits bits' : ℕ} (factor divisor : ℕ)
    (hle : bits % 2^24 ≤ bits' % 2^24) : scaled bits factor divisor ≤ scaled bits' factor divisor := by
  have hlt : bits' % 2^24 < 2^24 := Nat.mod_lt _ (by norm_num)
  have hdiff : 2^56/(2^24-bits % 2^24) ≤ 2^56/(2^24-bits' % 2^24) :=
    Nat.div_le_div_left (by omega) (by omega)
  have hdiv : 2^56/(2^24-bits % 2^24)*factor/divisor ≤ 2^56/(2^24-bits' % 2^24)*factor/divisor :=
    Nat.div_le_div_right (Nat.mul_le_mul_right _ hdiff)
  rw [scaled, scaled]
  omega

/-- A step that rolls over to the next length speeds up every target. -/
theorem scaled_above_min {bits bits' factor divisor : ℕ} (hbits : bits % 2^24 ≤ 2^24-2^16)
    (hfactor : 0 < factor) (hsmall : factor ≤ 2^32) (hdivisor : 0 < divisor)
    (hup : scaled bits factor divisor > 2^40) : scaled bits' factor divisor > 2^32 := by
  have hold : 2^56/(2^24-bits % 2^24) ≤ 2^40 := by
    calc 2^56/(2^24-bits % 2^24) ≤ 2^56/2^16 := Nat.div_le_div_left (by omega) (by norm_num)
      _ = 2^40 := by norm_num
  -- the divisor is smaller than the factor
  have hless : divisor < factor := by
    by_contra hge
    have hle : 2^56/(2^24-bits % 2^24)*factor/divisor ≤ 2^40 := by
      apply Nat.div_le_of_le_mul
      calc 2^56/(2^24-bits % 2^24)*factor ≤ 2^40*divisor := Nat.mul_le_mul hold (not_lt.mp hge)
        _ = divisor*2^40 := Nat.mul_comm _ _
    rw [scaled] at hup
    omega
  have hnew : 2^32 ≤ 2^56/(2^24-bits' % 2^24) := by
    calc 2^32 = 2^56/2^24 := by norm_num
      _ ≤ 2^56/(2^24-bits' % 2^24) := Nat.div_le_div_left (by omega) (by
        have := Nat.mod_lt bits' (show 0 < 2^24 by norm_num)
        omega)
  have hgrow : 2^32+1 ≤ 2^56/(2^24-bits' % 2^24)*factor/divisor := by
    rw [Nat.le_div_iff_mul_le hdivisor]
    calc (2^32+1)*divisor ≤ (2^32+1)*(factor-1) := Nat.mul_le_mul_left _ (by omega)
      _ ≤ 2^32*factor := by
        have : (2^32+1)*(factor-1)+(2^32+1) = (2^32+1)*factor := by
          rw [← Nat.mul_succ, Nat.succ_eq_add_one, Nat.sub_add_cancel hfactor]
        omega
      _ ≤ 2^56/(2^24-bits' % 2^24)*factor := Nat.mul_le_mul_right _ hnew
  rw [scaled]
  omega

/-- One step of retargeting, as a number. -/
def nextTarget (minLength bits factor divisor : ℕ) : ℕ :=
  rollOver minLength (bits/2^24) (scaled bits factor divisor)

/-- What one step keeps. -/
theorem nextTarget_ok {minLength bits : ℕ} (factor divisor : ℕ) (hmin : 0 < minLength)
    (h : TargetOk minLength bits) :
    minLength ≤ nextTarget minLength bits factor divisor/2^24 ∧
      nextTarget minLength bits factor divisor % 2^24 ≤ 2^24-2^16 ∧
      bits/2^24 ≤ nextTarget minLength bits factor divisor/2^24+1 ∧
      nextTarget minLength bits factor divisor/2^24 ≤ bits/2^24+1 := by
  have hlen := h.length
  have hlow := scaled_low bits factor divisor
  rw [nextTarget, rollOver]
  split_ifs with hup hdown
  · omega
  · omega
  · have hfrac := fractionOf_le hlow (not_lt.mp hup)
    omega

theorem nextTarget_antitone (minLength bits factor : ℕ) {divisor divisor' : ℕ} (hpos : 0 < divisor)
    (hle : divisor ≤ divisor') :
    nextTarget minLength bits factor divisor' ≤ nextTarget minLength bits factor divisor :=
  rollOver_mono minLength _ (scaled_low bits factor divisor')
    (scaled_antitone bits factor hpos hle)

theorem nextTarget_mono {minLength bits bits' factor divisor : ℕ} (hmin : 0 < minLength)
    (hfactor : 0 < factor) (hsmall : factor ≤ 2^32) (hpos : 0 < divisor)
    (h : TargetOk minLength bits) (hle : bits ≤ bits') :
    nextTarget minLength bits factor divisor ≤ nextTarget minLength bits' factor divisor := by
  have hlen := h.length
  rcases Nat.lt_or_eq_of_le (Nat.div_le_div_right (c := 2^24) hle) with hlt | heq
  · obtain ⟨-,hmax,hstay,-⟩ := rollOver_bounds minLength (scaled_low bits factor divisor)
      (show 0 < bits/2^24 by omega)
    obtain ⟨hlow',-,-,hkeep'⟩ := rollOver_bounds minLength (scaled_low bits' factor divisor)
      (show 0 < bits'/2^24 by omega)
    by_cases hup : scaled bits factor divisor > 2^40
    · -- the longer target does not roll back, since it speeds up as well
      have habove : scaled bits' factor divisor > 2^32 :=
        scaled_above_min h.fraction hfactor hsmall hpos hup
      have := hkeep' (Or.inl habove)
      rw [nextTarget, nextTarget]
      omega
    · have := hstay (not_lt.mp hup)
      rw [nextTarget, nextTarget]
      omega
  · rw [nextTarget, nextTarget, heq]
    exact rollOver_mono minLength _ (scaled_low bits factor divisor)
      (scaled_mono factor divisor (by omega))

end Step

section Code

theorem and_targetFractionalMask_toNat (nBits : BitVec 32) :
    (nBits &&& targetFractionalMask).toNat = nBits.toNat % 2^24 := by
  have hmask : targetFractionalMask.toNat = 2^24-1 := by decide
  rw [BitVec.toNat_and, hmask, Nat.and_two_pow_sub_one_eq_mod]

theorem targetGetFractionalDifficulty_eq (nBits : BitVec 32) :
    targetGetFractionalDifficulty nBits = 2^56/(2^24-nBits.toNat % 2^24) := by
  rw [targetGetFractionalDifficulty, and_targetFractionalMask_toNat]
  rfl

theorem targetSetFractionalDifficulty_eq {difficulty : ℕ} (hlow : 2^32 ≤ difficulty)
    (hhigh : difficulty ≤ 2^40) (nBits : BitVec 32) :
    ∃ next, targetSetFractionalDifficulty difficulty nBits = (true,next) ∧
      next.toNat = nBits.toNat/2^24*2^24+fractionOf difficulty := by
  obtain ⟨hdiv,hdiv'⟩ := div_difficulty hlow hhigh
  have hmin : nFractionalDifficultyMin = 2^32 := rfl
  have hmax : nFractionalDifficultyMax = 2^56 := rfl
  refine ⟨setFractionalLength nBits (BitVec.ofNat 32 (fractionOf difficulty)), ?_, ?_⟩
  · rw [targetSetFractionalDifficulty, hmin, hmax, nFractionalBits, if_neg (by omega)]
    dsimp only
    rw [if_neg (by omega)]
    rfl
  · have hsmall : fractionOf difficulty < 2^24 := by
      rw [fractionOf]
      omega
    have hnat : (BitVec.ofNat 32 (fractionOf difficulty)).toNat = fractionOf difficulty := by
      rw [BitVec.toNat_ofNat, Nat.mod_eq_of_lt (by omega)]
    rw [setFractionalLength_toNat _ _ (by omega), hnat]

theorem targetScaleDifficulty_eq (difficulty factor divisor : ℕ) {nInterval nTargetSpacing : ℤ}
    (hfactor : (nInterval+1)*nTargetSpacing = factor) :
    targetScaleDifficulty difficulty nInterval nTargetSpacing divisor =
      max (2^32) (min (2^56) (difficulty*factor/divisor)) := by
  have hdiv : bnDiv ((difficulty : ℤ)*((nInterval+1)*nTargetSpacing)) divisor =
      ((difficulty*factor/divisor : ℕ) : ℤ) := by
    rw [hfactor, bnDiv, ← Nat.cast_mul, Int.tdiv_eq_ediv_of_nonneg (Int.natCast_nonneg _)]
    exact (Int.natCast_ediv _ _).symm
  have hmin : nFractionalDifficultyMin = 2^32 := rfl
  have hmax : nFractionalDifficultyMax = 2^56 := rfl
  have hclamp : (if (if ((difficulty*factor/divisor : ℕ) : ℤ) > ((2^56 : ℕ) : ℤ) then
      ((2^56 : ℕ) : ℤ) else ((difficulty*factor/divisor : ℕ) : ℤ)) < ((2^32 : ℕ) : ℤ) then
      ((2^32 : ℕ) : ℤ) else if ((difficulty*factor/divisor : ℕ) : ℤ) > ((2^56 : ℕ) : ℤ) then
      ((2^56 : ℕ) : ℤ) else ((difficulty*factor/divisor : ℕ) : ℤ)) =
      ((max (2^32) (min (2^56) (difficulty*factor/divisor)) : ℕ) : ℤ) := by
    split_ifs <;> omega
  rw [targetScaleDifficulty, hdiv, hmin, hmax, hclamp, getuint256, Int.natAbs_natCast, BitVec.toNat_ofNat]
  omega

/-- `TargetGetNext` returns true on every target that retargeting moves between, and its result is
the step above. -/
theorem targetGetNext_eq {params : TargetParams} {nBits : BitVec 32} (factor : ℕ) {divisor : ℕ}
    {nInterval nTargetSpacing nActualSpacing : ℤ}
    (hok : TargetOk params.nTargetMinLength.toNat nBits.toNat)
    (hfactor : (nInterval+1)*nTargetSpacing = factor)
    (hdivisor : targetDivisor nInterval nTargetSpacing nActualSpacing = divisor)
    (hpos : 0 < divisor) :
    ∃ next, targetGetNext params nBits nInterval nTargetSpacing nActualSpacing = some (true,next) ∧
      next.toNat = nextTarget params.nTargetMinLength.toNat nBits.toNat factor divisor := by
  have hshort := hok.short
  have hscaled : targetScaleDifficulty (targetGetFractionalDifficulty nBits) nInterval
      nTargetSpacing divisor = scaled nBits.toNat factor divisor := by
    rw [targetScaleDifficulty_eq _ factor divisor hfactor, targetGetFractionalDifficulty_eq]
    rfl
  have hlow := scaled_low nBits.toNat factor divisor
  have hthreshold : nFractionalDifficultyThreshold = 2^40 := rfl
  have hmin : nFractionalDifficultyMin = 2^32 := rfl
  have hlength : targetGetLength nBits > params.nTargetMinLength ↔
      nBits.toNat/2^24 > params.nTargetMinLength.toNat := by
    rw [gt_iff_lt, BitVec.lt_def, targetGetLength_toNat]
  rw [targetGetNext, hdivisor, if_neg (by omega), nextTarget, rollOver]
  dsimp only
  rw [hscaled, hthreshold, hmin]
  -- above the threshold the length goes up and the fraction starts again
  by_cases hup : scaled nBits.toNat factor divisor > 2^40
  · obtain ⟨next,hnext,hnat⟩ := targetSetFractionalDifficulty_eq (le_refl (2^32)) (by norm_num)
      (targetIncrementLength nBits)
    rw [if_pos hup, if_pos hup, hnext]
    refine ⟨next, rfl, ?_⟩
    rw [hnat, targetIncrementLength_toNat]
    have hzero : fractionOf (2^32) = 0 := by decide
    omega
  rw [if_neg hup, if_neg hup]
  -- at the least fraction the length goes down, unless it is the least as well
  by_cases hdown : scaled nBits.toNat factor divisor = 2^32 ∧
      nBits.toNat/2^24 > params.nTargetMinLength.toNat
  · obtain ⟨next,hnext,hnat⟩ := targetSetFractionalDifficulty_eq (show 2^32 ≤ 2^40 by norm_num)
      (le_refl _) (targetDecrementLength params nBits)
    rw [if_pos ⟨hdown.1, hlength.mpr hdown.2⟩, if_pos hdown, hnext]
    refine ⟨next, rfl, ?_⟩
    have hone : (1 <<< nFractionalBits : BitVec 32).toNat = 2^24 := by decide
    have hbits := nBits.isLt
    rw [hnat, targetDecrementLength, if_pos (hlength.mpr hdown.2), BitVec.toNat_sub, hone]
    have hfrac : fractionOf (2^40) = 2^24-2^16 := by decide
    omega
  · obtain ⟨next,hnext,hnat⟩ := targetSetFractionalDifficulty_eq hlow (not_lt.mp hup) nBits
    rw [if_neg fun hboth => hdown ⟨hboth.1, hlength.mp hboth.2⟩, if_neg hdown, hnext]
    exact ⟨next, rfl, hnat⟩

end Code

section Run

def targetGetFractional (nBits : BitVec 32) : BitVec 32 := nBits &&& targetFractionalMask

/-- The targets that come from the first one, one step for each spacing, as long as the chain
length stays at most 99. The result of a step is taken whether or not it was an error. -/
inductive Retargets (params : TargetParams) : BitVec 32 → Prop
  | initial : Retargets params (targetGetInitial params)
  | step {nBits next : BitVec 32} {ok : Bool} (nActualSpacing : ℤ) (rest : Retargets params nBits)
      (short : targetGetLength nBits ≤ 99) (pos : 0 < targetDivisor 10080 60 nActualSpacing)
      (result : targetGetNext params nBits 10080 60 nActualSpacing = some (ok,next)) :
      Retargets params next

/-- The bounds a target keeps. -/
structure InRange (params : TargetParams) (nBits : BitVec 32) : Prop where
  length : params.nTargetMinLength ≤ targetGetLength nBits
  fraction : (targetGetFractional nBits).toNat ≤ 2^24-2^16

theorem InRange.ok {params : TargetParams} {nBits : BitVec 32} (h : InRange params nBits)
    (hshort : targetGetLength nBits ≤ 99) :
    TargetOk params.nTargetMinLength.toNat nBits.toNat := by
  have hlength := BitVec.le_def.mp h.length
  have hshort' := BitVec.le_def.mp hshort
  have hfraction := h.fraction
  rw [targetGetLength_toNat] at hlength hshort'
  rw [targetGetFractional, and_targetFractionalMask_toNat] at hfraction
  exact ⟨hlength, hshort', hfraction⟩

/-- One step of the code from a target in range. -/
theorem targetGetNext_inRange {params : TargetParams} (hmin : 0 < params.nTargetMinLength.toNat)
    {nBits : BitVec 32} (h : InRange params nBits) (hshort : targetGetLength nBits ≤ 99)
    {nActualSpacing : ℤ} (hpos : 0 < targetDivisor 10080 60 nActualSpacing) :
    ∃ next, targetGetNext params nBits 10080 60 nActualSpacing = some (true,next) ∧
      InRange params next ∧
      (targetGetLength nBits).toNat ≤ (targetGetLength next).toNat+1 ∧
      (targetGetLength next).toNat ≤ (targetGetLength nBits).toNat+1 := by
  have hok := h.ok hshort
  obtain ⟨divisor,hdivisor⟩ := Int.eq_ofNat_of_zero_le hpos.le
  obtain ⟨next,hnext,hnat⟩ := targetGetNext_eq 604860 hok (by norm_num) hdivisor
    (by omega)
  obtain ⟨hlength,hfraction,hdown,hup⟩ := nextTarget_ok 604860 divisor hmin hok
  rw [← hnat] at hlength hfraction hdown hup
  refine ⟨next, hnext, ⟨?_, ?_⟩, ?_, ?_⟩
  · rw [BitVec.le_def, targetGetLength_toNat]
    exact hlength
  · rw [targetGetFractional, and_targetFractionalMask_toNat]
    exact hfraction
  · rw [targetGetLength_toNat, targetGetLength_toNat]
    exact hdown
  · rw [targetGetLength_toNat, targetGetLength_toNat]
    exact hup

theorem Retargets.inRange {params : TargetParams} (hmin : 0 < params.nTargetMinLength.toNat)
    (hinitial : InRange params (targetGetInitial params)) {nBits : BitVec 32}
    (h : Retargets params nBits) : InRange params nBits := by
  induction h with
  | initial => exact hinitial
  | step nActualSpacing _ short pos result ih =>
    obtain ⟨next,hnext,hrange,-⟩ := targetGetNext_inRange hmin ih short pos
    rw [hnext] at result
    obtain ⟨-,rfl⟩ := Prod.mk.inj (Option.some.inj result)
    exact hrange

/-- On both networks retargeting stays in range, never fails and moves the length by one at most;
a longer spacing never gives a higher target, and a higher target never a lower one. -/
theorem retargeting_in_range (params : TargetParams)
    (hparams : params = mainNetParams ∨ params = testNetParams) :
    (∀ nBits, Retargets params nBits → InRange params nBits) ∧
    (∀ nBits, Retargets params nBits → targetGetLength nBits ≤ 99 → ∀ nActualSpacing,
      0 < targetDivisor 10080 60 nActualSpacing →
      ∃ next, targetGetNext params nBits 10080 60 nActualSpacing = some (true,next) ∧
        InRange params next ∧
        (targetGetLength nBits).toNat ≤ (targetGetLength next).toNat+1 ∧
        (targetGetLength next).toNat ≤ (targetGetLength nBits).toNat+1) ∧
    (∀ nBits, InRange params nBits → targetGetLength nBits ≤ 99 →
      ∀ nActualSpacing nActualSpacing' next next',
      0 < targetDivisor 10080 60 nActualSpacing → nActualSpacing ≤ nActualSpacing' →
      targetGetNext params nBits 10080 60 nActualSpacing = some (true,next) →
      targetGetNext params nBits 10080 60 nActualSpacing' = some (true,next') → next' ≤ next) ∧
    (∀ nBits nBits', InRange params nBits → targetGetLength nBits ≤ 99 → InRange params nBits' →
      targetGetLength nBits' ≤ 99 → nBits ≤ nBits' → ∀ nActualSpacing next next',
      0 < targetDivisor 10080 60 nActualSpacing →
      targetGetNext params nBits 10080 60 nActualSpacing = some (true,next) →
      targetGetNext params nBits' 10080 60 nActualSpacing = some (true,next') → next ≤ next') := by
  have hmin : 0 < params.nTargetMinLength.toNat := by
    rcases hparams with rfl | rfl <;> decide
  have hinitial : InRange params (targetGetInitial params) := by
    rcases hparams with rfl | rfl <;> exact ⟨by decide, by decide⟩
  have hstep : ∀ nBits, InRange params nBits → targetGetLength nBits ≤ 99 →
      ∀ nActualSpacing next (divisor : ℕ), targetDivisor 10080 60 nActualSpacing = divisor →
      0 < divisor → targetGetNext params nBits 10080 60 nActualSpacing = some (true,next) →
      next.toNat = nextTarget params.nTargetMinLength.toNat nBits.toNat 604860 divisor := by
    intro nBits hrange hshort nActualSpacing next divisor hdivisor hpos hnext
    obtain ⟨next',hnext',hnat⟩ := targetGetNext_eq 604860 (hrange.ok hshort)
      (by norm_num) hdivisor hpos
    rw [hnext] at hnext'
    obtain ⟨-,rfl⟩ := Prod.mk.inj (Option.some.inj hnext')
    exact hnat
  refine ⟨fun nBits h => h.inRange hmin hinitial, ?_, ?_, ?_⟩
  · intro nBits h hshort nActualSpacing hpos
    exact targetGetNext_inRange hmin (h.inRange hmin hinitial) hshort hpos
  · intro nBits hrange hshort nActualSpacing nActualSpacing' next next' hpos hle hnext hnext'
    -- a longer time makes a greater divisor
    have hgrow : targetDivisor 10080 60 nActualSpacing ≤ targetDivisor 10080 60 nActualSpacing' := by
      rw [targetDivisor, targetDivisor]
      omega
    obtain ⟨divisor,hdivisor⟩ := Int.eq_ofNat_of_zero_le hpos.le
    obtain ⟨divisor',hdivisor'⟩ := Int.eq_ofNat_of_zero_le (hpos.le.trans hgrow)
    rw [BitVec.le_def, hstep nBits hrange hshort _ next divisor hdivisor (by omega) hnext,
      hstep nBits hrange hshort _ next' divisor' hdivisor' (by omega) hnext']
    exact nextTarget_antitone _ _ _ (by omega) (by omega)
  · intro nBits nBits' hrange hshort hrange' hshort' hle nActualSpacing next next' hpos hnext hnext'
    obtain ⟨divisor,hdivisor⟩ := Int.eq_ofNat_of_zero_le hpos.le
    rw [BitVec.le_def, hstep nBits hrange hshort _ next divisor hdivisor (by omega) hnext,
      hstep nBits' hrange' hshort' _ next' divisor hdivisor (by omega) hnext']
    exact nextTarget_mono hmin (by norm_num) (by norm_num) (by omega) (hrange.ok hshort)
      (BitVec.le_def.mp hle)

/-- The step after the first block of the main network took two minutes. -/
theorem retargeting_in_range_mainNet :
    ∃ next, targetGetNext mainNetParams 0x07000000 10080 60 120 = some (true,next) ∧
      InRange mainNetParams next := by
  obtain ⟨-,hstep,-,-⟩ := retargeting_in_range mainNetParams (Or.inl rfl)
  obtain ⟨next,hnext,hrange,-⟩ := hstep 0x07000000 Retargets.initial (by decide) 120 (by decide)
  exact ⟨next, hnext, hrange⟩

end Run

end Candypool.Chain
