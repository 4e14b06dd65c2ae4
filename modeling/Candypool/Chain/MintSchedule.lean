import Candypool.Chain.TemplateCheck

/-! The subsidy schedule: two truncating divisions by the target and a rounding to cents. -/
namespace Candypool.Chain
open Candypool.Prime Candypool.Core

/-- The rounded quotient, in floor divisions. -/
def scheduledMint (nBits : BitVec 32) : ℤ :=
  999*coin*2^24/nBits.toNat*2^24/nBits.toNat/cent*cent

/-- The same with the numbers spelled out. -/
def mintCents (n : ℕ) : ℕ := 2^24*(2^24*99900000000/n)/n/1000000

section Number
variable {n n' : ℕ}

theorem mintCents_antitone (hpos : 0 < n) (hle : n ≤ n') : mintCents n' ≤ mintCents n := by
  have hfirst : 2^24*99900000000/n' ≤ 2^24*99900000000/n := Nat.div_le_div_left hle hpos
  have hsecond : 2^24*(2^24*99900000000/n')/n' ≤ 2^24*(2^24*99900000000/n)/n :=
    Nat.div_le_div (Nat.mul_le_mul_left _ hfirst) hle hpos.ne'
  exact Nat.div_le_div_right hsecond

/-- Each division takes off a factor of at least the minimum length. -/
theorem quotient_le {m a b : ℕ} (hm : 0 < m) (hn : 2^24*m ≤ n) (hab : a ≤ b) :
    2^24*a/n ≤ b/m := by
  calc 2^24*a/n ≤ 2^24*b/(2^24*m) := Nat.div_le_div (Nat.mul_le_mul_left _ hab) hn (by positivity)
    _ = b/m := Nat.mul_div_mul_left _ _ (by norm_num)

theorem mintCents_le {m : ℕ} (hm : 0 < m) (hn : 2^24*m ≤ n) :
    1000000*mintCents n ≤ 99900000000/(m*m) := by
  have hfirst := quotient_le hm hn (le_refl 99900000000)
  calc 1000000*mintCents n ≤ 2^24*(2^24*99900000000/n)/n := Nat.mul_div_le _ _
    _ ≤ 99900000000/m/m := quotient_le hm hn hfirst
    _ = 99900000000/(m*m) := Nat.div_div_eq_div_mul _ _ _

end Number

section Code
variable {params : TargetParams} {nBits : BitVec 32}

theorem scheduledMint_eq (nBits : BitVec 32) :
    scheduledMint nBits = ((1000000*mintCents nBits.toNat : ℕ) : ℤ) := by
  rw [scheduledMint, mintCents, coin, cent]
  push_cast
  rw [mul_comm _ (16777216 : ℤ), mul_comm _ (1000000 : ℤ)]

/-- `TargetGetMint` in numbers. -/
theorem targetGetMint_number (hmin : 0 < params.nTargetMinLength.toNat)
    (h : params.nTargetMinLength ≤ targetGetLength nBits) :
    targetGetMint params nBits = (true, ((1000000*mintCents nBits.toNat : ℕ) : ℤ)) := by
  have hlength := BitVec.le_def.mp h
  rw [targetGetLength_toNat] at hlength
  have hlow : 2^24 ≤ nBits.toNat := by omega
  obtain ⟨limit,hvalue,hlimit⟩ : ∃ limit : ℕ, limit = 99900000000 ∧ nMintLimit = limit :=
    ⟨99900000000, rfl, by norm_num [nMintLimit, coin]⟩
  obtain ⟨ha,ha'⟩ := mint_quotient_bounds hlow nBits.isLt limit
  obtain ⟨hb,hb'⟩ := mint_quotient_bounds hlow nBits.isLt (2^24*limit/nBits.toNat)
  have hword := @mint_word (2^24*(2^24*limit/nBits.toNat)/nBits.toNat) (by omega)
  rw [← mint_quotient, ← mint_quotient] at hword
  rw [targetGetMint_eq (BitVec.not_lt.mpr h) hlimit hword, mintCents, ← hvalue]
  generalize 2^24*limit/nBits.toNat = a at ha ha' hb hb' ⊢
  generalize 2^24*a/nBits.toNat = b at hb hb' ⊢
  exact if_neg (by omega)

/-- A longer target is a larger number. -/
theorem targetGetLength_mono {nBits' : BitVec 32} (hle : nBits ≤ nBits') :
    targetGetLength nBits ≤ targetGetLength nBits' := by
  rw [BitVec.le_def, targetGetLength_toNat, targetGetLength_toNat]
  exact Nat.div_le_div_right (BitVec.le_def.mp hle)

/-- For every target of at least the minimum length of its network, the mint is the rounded quotient,
a whole number of cents between the smallest output and the mint of that length, and a harder target
never mints more. -/
theorem mint_schedule (hparams : params = mainNetParams ∨ params = testNetParams)
    (h : params.nTargetMinLength ≤ targetGetLength nBits) :
    targetGetMint params nBits = (true, scheduledMint nBits) ∧
      cent ∣ scheduledMint nBits ∧ minTxOutAmount ≤ scheduledMint nBits ∧
      scheduledMint nBits ≤ 999*coin/(params.nTargetMinLength.toNat^2 : ℕ) ∧
      ∀ nBits', nBits ≤ nBits' → targetGetMint params nBits' = (true, scheduledMint nBits') ∧
        scheduledMint nBits' ≤ scheduledMint nBits := by
  have hmin : 0 < params.nTargetMinLength.toNat := by
    rcases hparams with hparams | hparams <;> rw [hparams] <;> decide
  have hnumber (nBits' : BitVec 32) (hle : nBits ≤ nBits') :
      targetGetMint params nBits' = (true, scheduledMint nBits') := by
    rw [scheduledMint_eq]
    exact targetGetMint_number hmin (BitVec.le_trans h (targetGetLength_mono hle))
  have hmint := hnumber nBits (BitVec.le_refl _)
  have hlength := BitVec.le_def.mp h
  rw [targetGetLength_toNat] at hlength
  have hlow : 2^24*params.nTargetMinLength.toNat ≤ nBits.toNat := by omega
  refine ⟨hmint, Dvd.intro_left _ rfl, ?_, ?_, ?_⟩
  · have hcent := cent_le_mint hmin h
    rw [hmint] at hcent
    exact hcent
  · rw [scheduledMint_eq]
    have hle := mintCents_le hmin hlow
    rw [← sq] at hle
    calc ((1000000*mintCents nBits.toNat : ℕ) : ℤ)
        ≤ ((99900000000/params.nTargetMinLength.toNat^2 : ℕ) : ℤ) := by exact_mod_cast hle
      _ = 999*coin/(params.nTargetMinLength.toNat^2 : ℕ) := by
          rw [Int.natCast_div, coin]
          norm_num
  · intro nBits' hle
    refine ⟨hnumber nBits' hle, ?_⟩
    rw [scheduledMint_eq, scheduledMint_eq]
    have hanti := mintCents_antitone (by omega) (BitVec.le_def.mp hle)
    exact_mod_cast Nat.mul_le_mul_left 1000000 hanti

end Code

/-- The theorem at the first target of the main network. -/
theorem mint_schedule_sample :
    targetGetMint mainNetParams 0x07000000 = (true, scheduledMint 0x07000000) :=
  (mint_schedule (Or.inl rfl) (by decide)).1

end Candypool.Chain
