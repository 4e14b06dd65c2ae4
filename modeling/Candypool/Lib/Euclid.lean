import Mathlib.Data.Int.ModEq
import Mathlib.Data.Nat.GCD.Basic
import Mathlib.Algebra.Order.Ring.Abs
import Mathlib.Tactic.Linarith
import Mathlib.Tactic.Ring

/-! The extended Euclidean algorithm with a cofactor for one argument only: two successive
remainders of `p` and `a`, and what `a` has to be multiplied by to give them modulo `p`. -/
namespace Candypool.Lib

/-- Successive remainders `r0 > r1` with their cofactors. The bound keeps the cofactors within
`p`. -/
structure Euclid (a p r0 r1 : ℕ) (x0 x1 : ℤ) : Prop where
  coprime : Nat.Coprime r0 r1
  pos : 0 < r1
  lt : r1 < r0
  cong0 : x0*a ≡ r0 [ZMOD p]
  cong1 : x1*a ≡ r1 [ZMOD p]
  bound : r0*|x1|+r1*|x0| ≤ (p : ℤ)

variable {a p r0 r1 : ℕ} {x0 x1 : ℤ}

theorem Euclid.start (hpos : 0 < a) (hlt : a < p) (hcop : Nat.Coprime p a) : Euclid a p p a 0 1 where
  coprime := hcop
  pos := hpos
  lt := hlt
  cong0 := by simpa using (Int.modEq_zero_iff_dvd.mpr (dvd_refl (p : ℤ))).symm
  cong1 := by rw [one_mul]
  bound := by simp

theorem Euclid.next (h : Euclid a p r0 r1 x0 x1) (hr : 1 < r1) :
    Euclid a p r1 (r0%r1) x1 (-(r0/r1 : ℕ)*x1+x0) where
  coprime := by
    have hcop : Nat.gcd (r0%r1) r1 = 1 := by
      rw [← Nat.gcd_rec, Nat.gcd_comm]
      exact h.coprime
    exact Nat.Coprime.symm hcop
  pos := by
    apply Nat.pos_of_ne_zero
    intro hzero
    have hgcd := Nat.gcd_eq_right (Nat.dvd_of_mod_eq_zero hzero)
    rw [h.coprime] at hgcd
    omega
  lt := Nat.mod_lt _ h.pos
  cong0 := h.cong1
  cong1 := by
    have hdm : (r0 : ℤ) = r1*(r0/r1 : ℕ)+(r0%r1 : ℕ) := by exact_mod_cast (Nat.div_add_mod r0 r1).symm
    calc (-(r0/r1 : ℕ)*x1+x0)*a = -(r0/r1 : ℕ)*(x1*a)+x0*a := by ring
      _ ≡ -(r0/r1 : ℕ)*r1+r0 [ZMOD p] := (h.cong1.mul_left _).add h.cong0
      _ = (r0%r1 : ℕ) := by rw [hdm]; ring
  bound := by
    have hdm : (r0 : ℤ) = r1*(r0/r1 : ℕ)+(r0%r1 : ℕ) := by exact_mod_cast (Nat.div_add_mod r0 r1).symm
    have habs : |-(r0/r1 : ℕ)*x1+x0| ≤ (r0/r1 : ℕ)*|x1|+|x0| := by
      refine (abs_add_le _ _).trans (le_of_eq ?_)
      rw [abs_mul, abs_neg, Nat.abs_cast]
    calc (r1 : ℤ)*|-(r0/r1 : ℕ)*x1+x0|+(r0%r1 : ℕ)*|x1|
        ≤ r1*((r0/r1 : ℕ)*|x1|+|x0|)+(r0%r1 : ℕ)*|x1| := by gcongr
      _ = (r1*(r0/r1 : ℕ)+(r0%r1 : ℕ))*|x1|+r1*|x0| := by ring
      _ ≤ p := by rw [← hdm]; exact h.bound

/-- Once the remainder is one, its cofactor is the inverse of `a`. -/
theorem Euclid.inverse (h : Euclid a p r0 r1 x0 x1) (hr : r1 ≤ 1) :
    x1*a ≡ 1 [ZMOD p] ∧ |x1| ≤ p := by
  have hone : r1 = 1 := by have := h.pos; omega
  refine ⟨by simpa [hone] using h.cong1,?_⟩
  have hr0 : (1 : ℤ) ≤ r0 := by exact_mod_cast h.pos.trans h.lt
  calc |x1| = 1*|x1| := (one_mul _).symm
    _ ≤ r0*|x1| := by gcongr
    _ ≤ r0*|x1|+r1*|x0| := le_add_of_nonneg_right (by positivity)
    _ ≤ p := h.bound

end Candypool.Lib
