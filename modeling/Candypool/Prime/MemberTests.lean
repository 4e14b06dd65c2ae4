import Candypool.Lib.RootSquare
import Candypool.Prime.Target
import Mathlib.NumberTheory.LegendreSymbol.QuadraticReciprocity

/-! The two tests a chain member has to pass: the base-2 Fermat test and the
Euler-Lagrange-Lifchitz test for `2p+1` and `2p-1`. -/
namespace Candypool.Prime
open Candypool.Lib

/-- The error branches of the two tests, which return false without a length. -/
inductive MemberError
  | fractionalAssert
  | invalidMod8
  deriving DecidableEq, Repr

/-- The returned flag, the value left in `nLength`, and the error that was reported. -/
structure MemberTest where
  passed : Bool
  nLength : BitVec 32
  error : Option MemberError
  deriving DecidableEq, Repr

def fractionalLength (n r : CBigNum) : BitVec 32 :=
  getuint (bnDiv (bnShiftLeft (n-r) nFractionalBits) n)

/-- What both tests do with the Fermat remainder `r` of a member that failed. -/
def failedMember (n r : CBigNum) (nLength : BitVec 32) : MemberTest :=
  let nFractionalLength := fractionalLength n r
  if nFractionalLength ≥ 1 <<< nFractionalBits then
    ⟨false, nLength, some .fractionalAssert⟩
  else
    ⟨false, setFractionalLength nLength nFractionalLength, none⟩

def fermatProbablePrimalityTest (n : CBigNum) (nLength : BitVec 32) : MemberTest :=
  let r := bnModExp 2 (n-1) n
  if r = 1 then ⟨true, nLength, none⟩ else failedMember n r nLength

def eulerLagrangeLifchitzPrimalityTest (n : CBigNum) (fSophieGermain : Bool)
    (nLength : BitVec 32) : MemberTest :=
  let e := bnShiftRight (n-1) 1
  let r := bnModExp 2 e n
  let nMod8 := bnMod n 8
  let fPassedTest : Option Bool :=
    if fSophieGermain && nMod8 == 7 then some (r == 1) -- Euler & Lagrange
    else if fSophieGermain && nMod8 == 3 then some (r+1 == n) -- Lifchitz
    else if !fSophieGermain && nMod8 == 5 then some (r+1 == n) -- Lifchitz
    else if !fSophieGermain && nMod8 == 1 then some (r == 1) -- Lifchitz
    else none
  match fPassedTest with
  | none => ⟨false, nLength, some .invalidMod8⟩
  | some true => ⟨true, nLength, none⟩
  | some false => failedMember n (bnMod (r*r) n) nLength -- derive Fermat test remainder

/-- `n` is a probable prime to base 2. -/
def FermatProbablePrime (n : ℤ) : Prop := 2^(n-1).toNat % n = 1

theorem fermatProbablePrime_natCast (n : ℕ) (hn : 0 < n) :
    FermatProbablePrime n ↔ 2^(n-1) % n = 1 := by
  have hsub : ((n : ℤ)-1).toNat = n-1 := by omega
  rw [FermatProbablePrime, hsub, ← Nat.cast_ofNat, ← Nat.cast_pow, ← Int.natCast_mod]
  exact Nat.cast_eq_one

theorem fractionalLength_toNat (n r : ℕ) (hr : r ≤ n) :
    (fractionalLength n r).toNat = (n-r)*2^24/n := by
  have hcast : bnDiv (bnShiftLeft ((n : ℤ)-r) nFractionalBits) n = ((n-r)*2^24/n : ℕ) := by
    have hnum : bnShiftLeft ((n : ℤ)-r) nFractionalBits = ((n-r)*2^24 : ℕ) := by
      simp only [bnShiftLeft, nFractionalBits]
      push_cast [Nat.cast_sub hr]
      ring
    rw [hnum, bnDiv, Int.tdiv_eq_ediv_of_nonneg (by positivity), Int.natCast_ediv]
  have hle : (n-r)*2^24/n ≤ 2^24 := by
    apply Nat.div_le_of_le_mul
    exact Nat.mul_le_mul_right _ (by omega)
  rw [fractionalLength, hcast, getuint, Int.natAbs_natCast,
    if_pos (hle.trans_lt (by norm_num)), BitVec.toNat_ofNat]
  exact Nat.mod_eq_of_lt (hle.trans_lt (by norm_num))

/-- A remainder that is not zero leaves a fraction below one. -/
theorem fractionalLength_lt (n r : ℕ) (hr0 : 0 < r) (hr : r ≤ n) :
    (fractionalLength n r).toNat < 2^24 := by
  rw [fractionalLength_toNat n r hr, Nat.div_lt_iff_lt_mul (by omega), mul_comm]
  exact Nat.mul_lt_mul_of_pos_left (by omega) (by norm_num)

theorem failedMember_passed (n r : CBigNum) (nLength : BitVec 32) :
    (failedMember n r nLength).passed = false := by
  simp only [failedMember]
  split_ifs <;> rfl

theorem failedMember_length (n r : CBigNum) (nLength : BitVec 32) :
    (failedMember n r nLength).nLength.toNat/2^24 = nLength.toNat/2^24 := by
  simp only [failedMember]
  split_ifs with h
  · rfl
  · have hf : (fractionalLength n r).toNat < 2^24 := by
      have h1 : (1 <<< nFractionalBits : BitVec 32).toNat = 2^24 := by decide
      rw [ge_iff_le, BitVec.le_def, h1] at h
      omega
    change (setFractionalLength nLength (fractionalLength n r)).toNat/2^24 = _
    rw [setFractionalLength_toNat _ _ hf]
    omega

theorem failedMember_error (n r : ℕ) (hr0 : 0 < r) (hr : r ≤ n) (nLength : BitVec 32) :
    (failedMember n r nLength).error = none := by
  have h1 : (1 <<< nFractionalBits : BitVec 32).toNat = 2^24 := by decide
  have hf := fractionalLength_lt n r hr0 hr
  have hlt : ¬ fractionalLength n r ≥ 1 <<< nFractionalBits := by
    rw [ge_iff_le, BitVec.le_def, h1]
    omega
  simp only [failedMember, if_neg hlt]

theorem fermat_eq (n : ℕ) (hn : 0 < n) (nLength : BitVec 32) :
    fermatProbablePrimalityTest n nLength =
      if 2^(n-1) % n = 1 then ⟨true, nLength, none⟩
      else failedMember n ((2^(n-1) % n : ℕ) : ℤ) nLength := by
  have he : (n : ℤ)-1 = ((n-1 : ℕ) : ℤ) := by omega
  simp only [fermatProbablePrimalityTest, he, bnModExp_two _ _ hn, Nat.cast_eq_one]

theorem fermat_passed_iff (n : ℕ) (hn : 0 < n) (nLength : BitVec 32) :
    (fermatProbablePrimalityTest n nLength).passed = true ↔ 2^(n-1) % n = 1 := by
  rw [fermat_eq n hn]
  split_ifs with h
  · exact ⟨fun _ => h, fun _ => rfl⟩
  · simp only [failedMember_passed, Bool.false_eq_true, h]

/-- An even member fails the Fermat test. -/
theorem fermat_even_fails (n : ℕ) (hn : 2 ≤ n) (heven : n % 2 = 0) (nLength : BitVec 32) :
    (fermatProbablePrimalityTest n nLength).passed = false := by
  rw [← Bool.not_eq_true, fermat_passed_iff n (by omega)]
  intro h
  have hpow : 2^(n-1) % 2 = 0 := by
    obtain ⟨k,hk⟩ := Nat.exists_eq_add_of_le' (show 1 ≤ n-1 by omega)
    rw [hk, pow_succ]
    omega
  have hmod : 2^(n-1) % n % 2 = 0 := by
    rw [Nat.mod_mod_of_dvd _ (Nat.dvd_of_mod_eq_zero heven)]
    exact hpow
  omega

/-- The residue the Euler-Lagrange-Lifchitz test expects, by the class of `n` modulo 8. -/
def ellExpected (n : ℕ) : Prop :=
  if n % 8 = 7 ∨ n % 8 = 1 then 2^((n-1)/2) % n = 1 else 2^((n-1)/2) % n+1 = n

instance (n : ℕ) : Decidable (ellExpected n) :=
  inferInstanceAs (Decidable
    (if n % 8 = 7 ∨ n % 8 = 1 then 2^((n-1)/2) % n = 1 else 2^((n-1)/2) % n+1 = n))

section ELL
variable {n : ℕ} (hodd : n % 2 = 1) (hn : 3 ≤ n)
include hodd hn

/-- The square of the Euler remainder is the Fermat remainder. -/
theorem half_power_sq : (2^((n-1)/2) % n)*(2^((n-1)/2) % n) % n = 2^(n-1) % n := by
  rw [← Nat.mul_mod, ← pow_add]
  congr 2
  omega

theorem fermat_remainder_pos : 0 < 2^(n-1) % n := by
  apply Nat.pos_of_ne_zero
  intro h0
  have hd : n ∣ 2^(n-1) := Nat.dvd_of_mod_eq_zero h0
  have hc : Nat.Coprime 2 n := Nat.coprime_two_left.mpr (Nat.odd_iff.mpr hodd)
  have h1 := Nat.Coprime.eq_one_of_dvd (hc.pow_left _).symm hd
  omega

theorem half_power_one_fermat (h : 2^((n-1)/2) % n = 1) : 2^(n-1) % n = 1 := by
  rw [← half_power_sq hodd hn, h, one_mul, Nat.mod_eq_of_lt (by omega)]

theorem half_power_neg_one_fermat (h : 2^((n-1)/2) % n+1 = n) : 2^(n-1) % n = 1 := by
  have hr : 2^((n-1)/2) % n = n-1 := by omega
  have hsq : (n-1)*(n-1) = (n-2)*n+1 := by
    obtain ⟨k,rfl⟩ := Nat.exists_eq_add_of_le hn
    simp only [show 3+k-1 = k+2 by omega, show 3+k-2 = k+1 by omega]
    ring
  rw [← half_power_sq hodd hn, hr, hsq, Nat.mul_add_mod_self_right, Nat.mod_eq_of_lt (by omega)]

/-- On the residue classes of chain members after the first, the test is a comparison
of the Euler remainder and its error branches are not taken. -/
theorem ell_eq (fSophieGermain : Bool)
    (hcls : if fSophieGermain then n % 4 = 3 else n % 4 = 1) (nLength : BitVec 32) :
    eulerLagrangeLifchitzPrimalityTest n fSophieGermain nLength =
      if ellExpected n then ⟨true, nLength, none⟩
      else failedMember n ((2^(n-1) % n : ℕ) : ℤ) nLength := by
  have he : bnShiftRight ((n : ℤ)-1) 1 = (((n-1)/2 : ℕ) : ℤ) := by
    have hgt : ¬ (2 : ℤ)^1 > (n : ℤ)-1 := by omega
    have hnn : 0 ≤ (n : ℤ)-1 := by omega
    rw [bnShiftRight, if_neg hgt, Int.tdiv_eq_ediv_of_nonneg hnn, pow_one]
    change ((n : ℤ)-1)/2 = _
    omega
  have hmod : bnMod (n : ℤ) 8 = ((n % 8 : ℕ) : ℤ) := by
    rw [bnMod, Int.tmod_eq_emod_of_nonneg (by omega)]
    rfl
  have hrem : bnMod (((2^((n-1)/2) % n : ℕ) : ℤ)*((2^((n-1)/2) % n : ℕ) : ℤ)) n =
      ((2^(n-1) % n : ℕ) : ℤ) := by
    rw [bnMod, Int.tmod_eq_emod_of_nonneg (by positivity), ← half_power_sq hodd hn]
    push_cast
    rfl
  have hsucc (r : ℕ) : ((r : ℤ)+1 == (n : ℤ)) = decide (r+1 = n) := by
    rw [Bool.eq_iff_iff, beq_iff_eq, decide_eq_true_eq]
    omega
  have hone (r : ℕ) : ((r : ℤ) == 1) = decide (r = 1) := by
    rw [Bool.eq_iff_iff, beq_iff_eq, decide_eq_true_eq]
    omega
  have h8 : n % 8 = 1 ∨ n % 8 = 3 ∨ n % 8 = 5 ∨ n % 8 = 7 := by omega
  simp only [eulerLagrangeLifchitzPrimalityTest, he, bnModExp_two _ _ (show 0 < n by omega), hmod,
    hrem, hsucc, hone, ellExpected]
  cases fSophieGermain <;> rcases h8 with h | h | h | h <;>
    simp only [h, Bool.false_eq_true, if_false, if_true] at hcls ⊢ <;>
    first
    | (exfalso; omega)
    | (norm_num; split_ifs with hp <;> simp [hp])

theorem ellExpected_fermat (h : ellExpected n) : 2^(n-1) % n = 1 := by
  rw [ellExpected] at h
  split_ifs at h
  · exact half_power_one_fermat hodd hn h
  · exact half_power_neg_one_fermat hodd hn h

/-- Fermat's little theorem for the base 2. -/
theorem prime_fermat (hp : n.Prime) : 2^(n-1) % n = 1 := by
  have : Fact n.Prime := ⟨hp⟩
  have h2 : ((2 : ℕ) : ZMod n) ≠ 0 := by
    rw [Ne, ZMod.natCast_eq_zero_iff]
    intro hd
    have := Nat.le_of_dvd (by omega) hd
    omega
  exact (zmod_pow_eq_one_iff (by omega) 2 (n-1)).mp (ZMod.pow_card_sub_one_eq_one h2)

/-- Euler's criterion with the supplementary law for 2: a prime gives the expected residue. -/
theorem prime_ellExpected (hp : n.Prime) : ellExpected n := by
  have : Fact n.Prime := ⟨hp⟩
  have hhalf : (n-1)/2 = n/2 := by omega
  have h2 : (2 : ZMod n) ≠ 0 := by
    have h : ((2 : ℕ) : ZMod n) ≠ 0 := by
      rw [Ne, ZMod.natCast_eq_zero_iff]
      intro hd
      have := Nat.le_of_dvd (by omega) hd
      omega
    exact_mod_cast h
  have hsq := ZMod.euler_criterion n h2
  rw [ZMod.exists_sq_eq_two_iff (show n ≠ 2 by omega)] at hsq
  have hcast : (2 : ZMod n)^(n/2) = ((2^(n/2) : ℕ) : ZMod n) := by push_cast; rfl
  rw [ellExpected, hhalf]
  split_ifs with h8
  · exact (zmod_pow_eq_one_iff (by omega) 2 (n/2)).mp (hsq.mp h8.symm)
  · have hne : (2 : ZMod n)^(n/2) ≠ 1 := fun h => h8 (hsq.mpr h).symm
    have hneg := (ZMod.pow_div_two_eq_neg_one_or_one n h2).resolve_left hne
    rw [hcast, eq_neg_iff_add_eq_zero, ← Nat.cast_one, ← Nat.cast_add,
      ZMod.natCast_eq_zero_iff] at hneg
    have hlt : 2^(n/2) % n < n := Nat.mod_lt _ (by omega)
    have hd : n ∣ 2^(n/2) % n+1 := by
      rw [Nat.dvd_iff_mod_eq_zero, Nat.add_mod, Nat.mod_mod, ← Nat.add_mod,
        ← Nat.dvd_iff_mod_eq_zero]
      exact hneg
    exact le_antisymm (by omega) (Nat.le_of_dvd (by omega) hd)

end ELL

end Candypool.Prime
