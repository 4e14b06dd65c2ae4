import Candypool.Prime.SieveMultipliers

/-! `int_invert` as the machine runs it: `int` variables throughout, where every result has to fit 32
bits. -/
namespace Candypool.Prime
open Candypool.Lib

section Machine

/-- The value of an `int` operation; one that does not fit is undefined. -/
def int32? (x : ℤ) : Option ℤ := if -2^31 ≤ x ∧ x < 2^31 then some x else none

/-- `-quotient * aux1 + aux0` -/
def nextAux? (quotient aux1 aux0 : ℤ) : Option ℤ := do
  let quotient ← int32? quotient
  let negated ← int32? (-quotient)
  let product ← int32? (negated*aux1)
  int32? (product+aux0)

/-- The loop of `int_invert` with the truncating division of `int`. -/
def intInvertLoop? (rem0 rem1 aux0 aux1 : ℤ) : Option ℤ :=
  if rem1 ≤ 1 then some aux1
  else do
    let rem2 := rem0.tmod rem1
    let aux2 ← nextAux? (rem0.tdiv rem1) aux1 aux0
    if rem2 ≤ 1 then some aux2
    else do
      let rem0' := rem1.tmod rem2
      let aux0' ← nextAux? (rem1.tdiv rem2) aux2 aux1
      if rem0' ≤ 1 then some aux0'
      else do
        let aux1' ← nextAux? (rem2.tdiv rem0') aux0' aux2
        intInvertLoop? rem0' (rem2.tmod rem0') aux0' aux1'
termination_by rem1.natAbs
decreasing_by
  have h2 : rem2.natAbs < rem1.natAbs := by
    rw [Int.natAbs_tmod]
    exact Nat.mod_lt _ (by omega)
  have h0 : rem0'.natAbs < rem2.natAbs := by
    rw [Int.natAbs_tmod]
    exact Nat.mod_lt _ (by omega)
  have h1 : (rem2.tmod rem0').natAbs < rem0'.natAbs := by
    rw [Int.natAbs_tmod]
    exact Nat.mod_lt _ (by omega)
  exact h1.trans (h0.trans h2)

/-- `int_invert`; the last sum is an `unsigned int`, where a negative inverse wraps. -/
def intInvert? (a nPrime : ℕ) : Option ℕ := do
  let rem0 ← int32? nPrime
  let rem1 ← int32? (a%nPrime : ℕ)
  let inverse ← intInvertLoop? rem0 rem1 0 1
  return ((inverse+nPrime)%2^32).toNat%nPrime

end Machine

section Fits
variable {a p r0 r1 : ℕ} {x0 x1 : ℤ}

theorem int32?_eq {x : ℤ} (hlow : -2^31 ≤ x) (hhigh : x < 2^31) : int32? x = some x :=
  if_pos ⟨hlow, hhigh⟩

/-- With both cofactors within `p` a step stays within it: the quotient, the product and the new
cofactor. -/
theorem nextAux?_eq (h : Euclid a p r0 r1 x0 x1) (hr : 1 < r1) (h0 : r0 ≤ p) (h31 : p < 2^31) :
    nextAux? (r0/r1 : ℕ) x1 x0 = some (-(r0/r1 : ℕ)*x1+x0) := by
  have hquotient : ((r0/r1 : ℕ) : ℤ) ≤ r0 := by exact_mod_cast Nat.div_le_self r0 r1
  have hnonneg : (0 : ℤ) ≤ (r0/r1 : ℕ) := Int.natCast_nonneg _
  -- the quotient is at most `r0`, and `r0*|x1|` is a part of the bounded sum
  have hproduct : |-(r0/r1 : ℕ)*x1| ≤ p := by
    calc |-(r0/r1 : ℕ)*x1| = (r0/r1 : ℕ)*|x1| := by rw [abs_mul, abs_neg, Nat.abs_cast]
      _ ≤ r0*|x1| := by gcongr
      _ ≤ r0*|x1|+r1*|x0| := le_add_of_nonneg_right (by positivity)
      _ ≤ p := h.bound
  -- the new cofactor stands in the sum of the next step
  have hnext : |-(r0/r1 : ℕ)*x1+x0| ≤ p := by
    have hstep := h.next hr
    have hone : (1 : ℤ) ≤ r1 := by exact_mod_cast h.pos
    calc |-(r0/r1 : ℕ)*x1+x0| = 1*|-(r0/r1 : ℕ)*x1+x0| := (one_mul _).symm
      _ ≤ r1*|-(r0/r1 : ℕ)*x1+x0| := by gcongr
      _ ≤ r1*|-(r0/r1 : ℕ)*x1+x0|+(r0%r1 : ℕ)*|x1| := le_add_of_nonneg_right (by positivity)
      _ ≤ p := hstep.bound
  obtain ⟨hlow,hhigh⟩ := abs_le.mp hproduct
  obtain ⟨hlow',hhigh'⟩ := abs_le.mp hnext
  generalize ((r0/r1 : ℕ) : ℤ) = quotient at *
  rw [nextAux?, int32?_eq (by omega) (by omega), Option.bind_eq_bind, Option.bind_some,
    int32?_eq (by omega) (by omega), Option.bind_some, int32?_eq (by omega) (by omega), Option.bind_some]
  exact int32?_eq (by omega) (by omega)

theorem tdiv_natCast (m n : ℕ) : (m : ℤ).tdiv n = (m/n : ℕ) := rfl

theorem tmod_natCast (m n : ℕ) : (m : ℤ).tmod n = (m%n : ℕ) := rfl

/-- No turn of the loop leaves 32 bits, at whichever of the three exits it ends. -/
theorem intInvertLoop?_eq (h : Euclid a p r0 r1 x0 x1) (h0 : r0 ≤ p) (h31 : p < 2^31) :
    intInvertLoop? r0 r1 x0 x1 = some (intInvertLoop r0 r1 x0 x1) := by
  have hcast (n : ℕ) : (n : ℤ) ≤ 1 ↔ n ≤ 1 := by omega
  induction r0, r1, x0, x1 using intInvertLoop.induct with
  | case1 r0 r1 x0 x1 hle => rw [intInvertLoop, intInvertLoop?, if_pos hle, if_pos ((hcast r1).mpr hle)]
  | case2 r0 r1 x0 x1 h1 rem2 hle =>
    have haux2 := nextAux?_eq h (not_le.mp h1) h0 h31
    rw [intInvertLoop, intInvertLoop?, if_neg h1, if_neg (h1 ∘ (hcast r1).mp)]
    dsimp only
    rw [tdiv_natCast, haux2, Option.bind_eq_bind, Option.bind_some, tmod_natCast, if_pos hle,
      if_pos ((hcast _).mpr hle)]
  | case3 r0 r1 x0 x1 h1 rem2 h2 rem0 hle =>
    have hnext := h.next (not_le.mp h1)
    have hr1 : r1 ≤ p := h.lt.le.trans h0
    have haux2 := nextAux?_eq h (not_le.mp h1) h0 h31
    have haux0 := nextAux?_eq hnext (not_le.mp h2) hr1 h31
    rw [intInvertLoop, intInvertLoop?, if_neg h1, if_neg (h1 ∘ (hcast r1).mp)]
    dsimp only
    rw [tdiv_natCast, haux2, Option.bind_eq_bind, Option.bind_some, tmod_natCast, if_neg h2,
      if_neg (h2 ∘ (hcast _).mp), tdiv_natCast, haux0, Option.bind_some,
      tmod_natCast, if_pos hle, if_pos ((hcast _).mpr hle)]
  | case4 r0 r1 x0 x1 h1 rem2 aux2 h2 rem0 aux0 h3 ih =>
    have hnext := h.next (not_le.mp h1)
    have hnext' := hnext.next (not_le.mp h2)
    have hr1 : r1 ≤ p := h.lt.le.trans h0
    have hr2 : rem2 ≤ p := hnext.lt.le.trans hr1
    have haux2 := nextAux?_eq h (not_le.mp h1) h0 h31
    have haux0 := nextAux?_eq hnext (not_le.mp h2) hr1 h31
    have haux1 := nextAux?_eq hnext' (not_le.mp h3) hr2 h31
    rw [intInvertLoop, intInvertLoop?, if_neg h1, if_neg (h1 ∘ (hcast r1).mp)]
    dsimp only
    rw [tdiv_natCast, haux2, Option.bind_eq_bind, Option.bind_some, tmod_natCast, if_neg h2,
      if_neg (h2 ∘ (hcast _).mp), tdiv_natCast, haux0, Option.bind_some,
      tmod_natCast, if_neg h3, if_neg (h3 ∘ (hcast _).mp), tdiv_natCast, haux1,
      Option.bind_some, tmod_natCast]
    exact ih (hnext'.next (not_le.mp h3)) (hnext'.lt.le.trans hr2)

theorem intInvert?_eq (hp : p.Prime) (h31 : p < 2^31) (hpos : 0 < a%p) :
    intInvert? a p = some (intInvert a p) := by
  have hlt := Nat.mod_lt a hp.pos
  have hcop : Nat.Coprime p (a%p) := (Nat.Prime.coprime_iff_not_dvd hp).mpr fun hdvd =>
    absurd (Nat.le_of_dvd hpos hdvd) (by omega)
  rw [intInvert?, int32?_eq (by omega) (by omega), Option.bind_eq_bind, Option.bind_some,
    int32?_eq (by omega) (by omega), Option.bind_some,
    intInvertLoop?_eq (Euclid.start hpos hlt hcop) le_rfl h31]
  rfl

/-- For every prime of an `int` and every number that it does not divide, `int_invert` returns the
inverse, and nothing overflows on the way. -/
theorem int_invert_inverse (hp : p.Prime) (h31 : p < 2^31) (ha : ¬p ∣ a) :
    ∃ r, intInvert? a p = some r ∧ 0 < r ∧ r < p ∧ r*a ≡ 1 [MOD p] := by
  have hpos : 0 < a%p := Nat.pos_of_ne_zero fun hzero => ha (Nat.dvd_of_mod_eq_zero hzero)
  -- the loop starts from the residue
  have hmod : intInvert a p = intInvert (a%p) p := by
    rw [intInvert, intInvert, Nat.mod_mod]
  obtain ⟨hlt,hcong⟩ := intInvert_spec hp h31 hpos (Nat.mod_lt a hp.pos)
  rw [← hmod] at hlt hcong
  have hinverse : intInvert a p*a ≡ 1 [MOD p] := by
    rw [mul_comm]
    exact ((Nat.mod_modEq a p).symm.mul_right _).trans hcong
  refine ⟨_, intInvert?_eq hp h31 hpos, Nat.pos_of_ne_zero fun hzero => ?_, hlt, hinverse⟩
  -- zero would be no inverse
  rw [hzero, Nat.zero_mul] at hinverse
  exact absurd (Nat.dvd_one.mp ((Nat.modEq_zero_iff_dvd).mp hinverse.symm)) hp.one_lt.ne'

theorem int_invert_inverse_seven :
    ∃ r, intInvert? 10 7 = some r ∧ 0 < r ∧ r < 7 ∧ r*10 ≡ 1 [MOD 7] :=
  int_invert_inverse (by decide) (by norm_num) (by decide)

end Fits

end Candypool.Prime
