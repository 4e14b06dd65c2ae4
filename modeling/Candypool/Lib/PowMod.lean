import Mathlib.Data.Nat.ModEq
import Mathlib.Data.Nat.Log
import Mathlib.Algebra.Order.Ring.Nat

/-! Modular exponentiation by repeated squaring. The loop is structural on the
number of exponent bits, so that a concrete power is evaluated by the kernel. -/
namespace Candypool.Lib

/-- One squaring per exponent bit, least significant bit first; `acc` collects
the factors whose bit is set. -/
def powModLoop (m : ℕ) : ℕ → ℕ → ℕ → ℕ → ℕ
  | 0, _, _, acc => acc
  | bits+1, a, e, acc =>
    powModLoop m bits (a*a % m) (e/2) (if e % 2 = 1 then acc*a % m else acc)

def powMod (a e m : ℕ) : ℕ := powModLoop m (e.log2+1) (a % m) e (1 % m)

theorem powModLoop_modEq (m bits a e acc : ℕ) (he : e < 2^bits) :
    powModLoop m bits a e acc ≡ acc*a^e [MOD m] := by
  induction bits generalizing a e acc with
  | zero =>
    have h0 : e = 0 := by omega
    subst h0
    simpa only [powModLoop, pow_zero, mul_one] using Nat.ModEq.refl acc
  | succ bits ih =>
    have hhalf : e/2 < 2^bits := by omega
    have hsq : (a*a % m)^(e/2) ≡ (a^2)^(e/2) [MOD m] := by
      rw [pow_two]
      exact (Nat.mod_modEq _ _).pow _
    refine (ih _ _ _ hhalf).trans ?_
    rcases Nat.mod_two_eq_zero_or_one e with h | h
    · have hexp : a^e = (a^2)^(e/2) := by rw [← pow_mul]; congr 1; omega
      rw [if_neg (by omega), hexp]
      exact hsq.mul_left acc
    · have hexp : acc*a^e = acc*a*(a^2)^(e/2) := by
        rw [← pow_mul, mul_assoc, ← pow_succ']; congr 2; omega
      rw [if_pos h, hexp]
      exact (Nat.mod_modEq _ _).mul hsq

theorem powModLoop_lt (m bits a e acc : ℕ) (hm : 0 < m) (hacc : acc < m) :
    powModLoop m bits a e acc < m := by
  induction bits generalizing a e acc with
  | zero => exact hacc
  | succ bits ih =>
    apply ih
    split_ifs
    · exact Nat.mod_lt _ hm
    · exact hacc

/-- The loop computes the residue of the power. -/
theorem powMod_eq (a e m : ℕ) (hm : 0 < m) : powMod a e m = a^e % m := by
  have hlt : powMod a e m < m := powModLoop_lt _ _ _ _ _ hm (Nat.mod_lt _ hm)
  have hmod : powMod a e m ≡ a^e [MOD m] := by
    refine (powModLoop_modEq m (e.log2+1) (a % m) e (1 % m) Nat.lt_log2_self).trans ?_
    have h := (Nat.mod_modEq 1 m).mul ((Nat.mod_modEq a m).pow e)
    simpa only [one_mul] using h
  exact (Nat.mod_eq_of_lt hlt).symm.trans hmod

end Candypool.Lib
