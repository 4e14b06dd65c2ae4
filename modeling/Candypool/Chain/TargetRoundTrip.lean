import Candypool.Chain.Retarget

/-! A target goes through its difficulty and back unchanged, and blocks on schedule keep it. -/
namespace Candypool.Chain
open Candypool.Prime

/-- The reciprocal taken twice: the rounding error is below one unit. -/
theorem reciprocal_twice {g : ℕ} (hpos : 0 < g) (hle : g ≤ 2^24) : 2^56/(2^56/g) = g := by
  have hlow : 2^32 ≤ 2^56/g := by
    calc 2^32 = 2^56/2^24 := by norm_num
      _ ≤ 2^56/g := Nat.div_le_div_left hle hpos
  have hdown : 2^56/g*g ≤ 2^56 := Nat.div_mul_le_self _ _
  have hup : 2^56 < 2^56/g*g+g := Nat.lt_div_mul_add hpos
  generalize 2^56/g = d at hlow hdown hup ⊢
  apply Nat.div_eq_of_lt_le
  · rw [mul_comm]
    exact hdown
  · -- the next multiple of the difficulty is beyond the range
    have hnext : (g+1)*d = d*g+d := by ring
    omega

section Difficulty
variable (nBits : BitVec 32)

theorem targetGetFractional_toNat : (targetGetFractional nBits).toNat = nBits.toNat % 2^24 :=
  and_targetFractionalMask_toNat nBits

/-- The difficulty stays in its range. -/
theorem targetGetFractionalDifficulty_bounds :
    2^32 ≤ targetGetFractionalDifficulty nBits ∧ targetGetFractionalDifficulty nBits ≤ 2^56 := by
  have hlt : nBits.toNat % 2^24 < 2^24 := Nat.mod_lt _ (by norm_num)
  rw [targetGetFractionalDifficulty_eq]
  constructor
  · calc 2^32 = 2^56/2^24 := by norm_num
      _ ≤ 2^56/(2^24-nBits.toNat % 2^24) := Nat.div_le_div_left (by omega) (by omega)
  · exact Nat.div_le_self _ _

theorem targetSetFractionalDifficulty_get :
    targetSetFractionalDifficulty (targetGetFractionalDifficulty nBits) nBits = (true,nBits) := by
  have hlt : nBits.toNat % 2^24 < 2^24 := Nat.mod_lt _ (by norm_num)
  have hlow := (targetGetFractionalDifficulty_bounds nBits).1
  have hmin : nFractionalDifficultyMin = 2^32 := rfl
  have hmax : nFractionalDifficultyMax = 2^56 := rfl
  have hback : 2^56/targetGetFractionalDifficulty nBits = 2^24-nBits.toNat % 2^24 := by
    rw [targetGetFractionalDifficulty_eq]
    exact reciprocal_twice (by omega) (by omega)
  have hfraction : 2^24-(2^24-nBits.toNat % 2^24) = nBits.toNat % 2^24 := by omega
  have hnat : (BitVec.ofNat 32 (nBits.toNat % 2^24)).toNat = nBits.toNat % 2^24 := by
    rw [BitVec.toNat_ofNat]
    omega
  have hsame : setFractionalLength nBits (BitVec.ofNat 32 (nBits.toNat % 2^24)) = nBits := by
    apply BitVec.eq_of_toNat_eq
    rw [setFractionalLength_toNat _ _ (by omega), hnat]
    omega
  rw [targetSetFractionalDifficulty, hmin, hmax, nFractionalBits, if_neg (by omega)]
  dsimp only
  rw [hback, if_neg (by omega), hfraction]
  exact congrArg (Prod.mk true) hsame

/-- Only the fraction 0 has the least difficulty. -/
theorem targetGetFractionalDifficulty_min :
    targetGetFractionalDifficulty nBits = 2^32 ↔ targetGetFractional nBits = 0 := by
  have hlt : nBits.toNat % 2^24 < 2^24 := Nat.mod_lt _ (by norm_num)
  rw [← BitVec.toNat_inj, targetGetFractional_toNat, targetGetFractionalDifficulty_eq]
  constructor
  · intro h
    have hback : 2^56/(2^56/(2^24-nBits.toNat % 2^24)) = 2^24-nBits.toNat % 2^24 :=
      reciprocal_twice (by omega) (by omega)
    rw [h] at hback
    change nBits.toNat % 2^24 = 0
    omega
  · intro h
    change nBits.toNat % 2^24 = 0 at h
    rw [h]
    norm_num

end Difficulty

/-- The previous length with the largest fraction that retargeting leaves. -/
def stepDown (nBits : BitVec 32) : BitVec 32 :=
  targetFromInt (targetGetLength nBits-1)+BitVec.ofNat 32 (2^24-2^16)

/-- Rolling back from the fraction 0. -/
theorem targetSetFractionalDifficulty_stepDown {params : TargetParams} {nBits : BitVec 32}
    (hfraction : targetGetFractional nBits = 0)
    (hlength : targetGetLength nBits > params.nTargetMinLength) :
    targetSetFractionalDifficulty nFractionalDifficultyThreshold
      (targetDecrementLength params nBits) = (true, stepDown nBits) := by
  have hzero : nBits.toNat % 2^24 = 0 := by
    rw [← targetGetFractional_toNat, hfraction]
    rfl
  have hlt := BitVec.lt_def.mp hlength
  rw [targetGetLength_toNat] at hlt
  have hone : ((1 <<< nFractionalBits : ℕ) : BitVec 32).toNat = 2^24 := by decide
  have hdown : (targetDecrementLength params nBits).toNat = nBits.toNat-2^24 := by
    rw [targetDecrementLength, if_pos hlength, BitVec.toNat_sub_of_le, hone]
    rw [BitVec.le_def, hone]
    omega
  obtain ⟨next,hset,hnext⟩ := targetSetFractionalDifficulty_eq (show 2^32 ≤ 2^40 by norm_num)
    le_rfl (targetDecrementLength params nBits)
  have hthreshold : nFractionalDifficultyThreshold = 2^40 := rfl
  rw [hdown] at hnext
  have hfrac : fractionOf (2^40) = 2^24-2^16 := by
    rw [fractionOf]
    norm_num
  -- the length goes down by one, and the fraction from the least to the greatest
  have hstep : (stepDown nBits).toNat = nBits.toNat-2^16 := by
    have hpred : (targetGetLength nBits-1).toNat = nBits.toNat/2^24-1 := by
      rw [BitVec.toNat_sub_of_le, targetGetLength_toNat]
      · rfl
      · rw [BitVec.le_def, targetGetLength_toNat]
        change 1 ≤ _
        omega
    rw [stepDown, targetFromInt, BitVec.toNat_add, BitVec.toNat_shiftLeft, hpred, nFractionalBits,
      Nat.shiftLeft_eq, BitVec.toNat_ofNat]
    have hbound := nBits.isLt
    omega
  have hsame : next = stepDown nBits := by
    apply BitVec.eq_of_toNat_eq
    rw [hnext, hfrac, hstep]
    omega
  rw [hthreshold, hset, hsame]

/-- Every target survives its difficulty, and blocks exactly on schedule keep every target that
retargeting may leave, but for the fraction 0 above the minimum length. -/
theorem target_survives_difficulty (params : TargetParams) (nBits : BitVec 32) :
    targetSetFractionalDifficulty (targetGetFractionalDifficulty nBits) nBits = (true,nBits) ∧
    ∀ nInterval nTargetSpacing : ℤ, 1 ≤ nInterval → nInterval < 2^31 → 0 < nTargetSpacing →
      nTargetSpacing < 2^31 → (targetGetFractional nBits).toNat ≤ 2^24-2^16 →
      targetGetNext params nBits nInterval nTargetSpacing nTargetSpacing = some (true,
        if targetGetFractional nBits = 0 ∧ targetGetLength nBits > params.nTargetMinLength then
          stepDown nBits
        else nBits) := by
  have hback := targetSetFractionalDifficulty_get nBits
  refine ⟨hback, ?_⟩
  intro nInterval nTargetSpacing hinterval _ hspacing _ hfraction
  obtain ⟨hlow,hhigh⟩ := targetGetFractionalDifficulty_bounds nBits
  have hmin := targetGetFractionalDifficulty_min nBits
  have hpos : 0 < (nInterval+1)*nTargetSpacing := by positivity
  obtain ⟨factor,hfactor⟩ := Int.eq_ofNat_of_zero_le hpos.le
  have hdivisor : targetDivisor nInterval nTargetSpacing nTargetSpacing = factor := by
    rw [← hfactor, targetDivisor]
    ring
  have hfactorPos : 0 < factor := by omega
  -- on schedule the factor and the divisor cancel
  have hscale : targetScaleDifficulty (targetGetFractionalDifficulty nBits) nInterval nTargetSpacing
      factor = targetGetFractionalDifficulty nBits := by
    rw [targetScaleDifficulty_eq _ factor factor hfactor, Nat.mul_div_cancel _ hfactorPos]
    omega
  have hbelow : targetGetFractionalDifficulty nBits ≤ 2^40 := by
    rw [targetGetFractional_toNat] at hfraction
    rw [targetGetFractionalDifficulty_eq]
    calc 2^56/(2^24-nBits.toNat % 2^24) ≤ 2^56/2^16 := Nat.div_le_div_left (by omega) (by norm_num)
      _ = 2^40 := by norm_num
  have hthreshold : nFractionalDifficultyThreshold = 2^40 := rfl
  have hmin' : nFractionalDifficultyMin = 2^32 := rfl
  rw [targetGetNext, hdivisor]
  dsimp only
  rw [if_neg (by omega), hscale, hthreshold, if_neg (by omega), hmin']
  by_cases hdown : targetGetFractional nBits = 0 ∧ targetGetLength nBits > params.nTargetMinLength
  · rw [if_pos hdown, if_pos ⟨hmin.mpr hdown.1, hdown.2⟩, ← hthreshold,
      targetSetFractionalDifficulty_stepDown hdown.1 hdown.2]
  · have hkeep : ¬(targetGetFractionalDifficulty nBits = 2^32 ∧
        targetGetLength nBits > params.nTargetMinLength) := fun h => hdown ⟨hmin.mp h.1, h.2⟩
    rw [if_neg hdown, if_neg hkeep, hback]

/-- The theorem at the target 7.5 of the main network. -/
theorem target_survives_difficulty_sample :
    targetGetNext mainNetParams 0x07800000 10080 60 60 = some (true, 0x07800000) :=
  (target_survives_difficulty mainNetParams 0x07800000).2 10080 60 (by decide) (by decide)
    (by decide) (by decide) (by decide)

end Candypool.Chain
