import Candypool.Core.Script

/-! The numbers of the script interpreter: `CBigNum` as a byte vector with a sign bit, and what a
stack element is as a number and as a truth value. -/
namespace Candypool.Script
open Candypool.Prime Candypool.Core

abbrev Valtype := List UInt8

/-- `getvch` of a number of either sign: the magnitude, the lowest byte first, and the sign in the
top bit of the last byte, for which a byte is added when the magnitude fills that bit. -/
def bnGetvch (bn : CBigNum) : Valtype :=
  let vch := lowBytes (bn.natAbs.log2+1) bn.natAbs
  if vch.getLastD 0 ≥ 0x80 then vch ++ [if bn < 0 then 0x80 else 0]
  else if bn < 0 then vch.dropLast ++ [vch.getLastD 0 ||| 0x80]
  else vch

/-- `getint` holds a number that does not fit in an `int` at the nearest end. -/
def bnGetint (bn : CBigNum) : ℤ :=
  if 0 ≤ bn then if bn > 2^31-1 then 2^31-1 else bn
  else if bn < -(2^31-1) then -2^31 else bn

/-- `CastToBool`: some byte is not zero, the sign byte of a negative zero apart. -/
def castToBool : Valtype → Bool
  | [] => false
  | [b] => b != 0 && b != 0x80
  | b :: vch => b != 0 || castToBool vch

section LittleEndian

theorem littleEndian_append (xs ys : List UInt8) :
    littleEndian (xs ++ ys) = littleEndian xs+256^xs.length*littleEndian ys := by
  induction xs with
  | nil => simp [littleEndian]
  | cons b xs ih =>
    simp only [List.cons_append, littleEndian, ih, List.length_cons, pow_succ]
    ring

theorem littleEndian_lt (xs : List UInt8) : littleEndian xs < 256^xs.length := by
  induction xs with
  | nil => simp [littleEndian]
  | cons b xs ih =>
    have hb := b.toNat_lt
    simp only [littleEndian, List.length_cons, pow_succ]
    omega

/-- The last byte weighs the most. -/
theorem littleEndian_dropLast {xs : List UInt8} (h : xs ≠ []) :
    littleEndian xs = littleEndian xs.dropLast+256^(xs.length-1)*(xs.getLastD 0).toNat := by
  have hsplit : xs = xs.dropLast ++ [xs.getLastD 0] := by
    rw [List.getLastD_eq_getLast?, List.getLast?_eq_some_getLast h, Option.getD_some,
      List.dropLast_append_getLast h]
  calc littleEndian xs = littleEndian (xs.dropLast ++ [xs.getLastD 0]) := by rw [← hsplit]
    _ = littleEndian xs.dropLast+256^(xs.length-1)*(xs.getLastD 0).toNat := by
        rw [littleEndian_append, List.length_dropLast]
        simp [littleEndian]

theorem lowBytes_length_le {fuel n k : ℕ} (h : n < 256^k) : (lowBytes fuel n).length ≤ k := by
  induction fuel generalizing n k with
  | zero => simp [lowBytes]
  | succ fuel ih =>
    rw [lowBytes]
    split_ifs with hzero
    · simp
    · cases k with
      | zero =>
        rw [pow_zero] at h
        omega
      | succ k =>
        rw [pow_succ] at h
        have := ih (n := n/256) (k := k) (by omega)
        simpa using this

theorem lowBytes_ne_nil {n : ℕ} (h : n ≠ 0) (fuel : ℕ) : lowBytes (fuel+1) n ≠ [] := by
  rw [lowBytes, if_neg h]
  exact List.cons_ne_nil _ _

end LittleEndian

section Getvch

theorem bnGetvch_natCast (n : ℕ) : bnGetvch n = getvch n := by
  have hneg : ¬(n : ℤ) < 0 := by omega
  simp only [bnGetvch, getvch, Int.natAbs_natCast, if_neg hneg]

/-- Setting the sign bit of a byte that has it clear. -/
theorem toNat_or_signBit {b : UInt8} (h : b < 0x80) : (b ||| 0x80).toNat = b.toNat+128 := by
  have hlt : b.toNat < 2^7 := h
  have := Nat.two_pow_add_eq_or_of_lt hlt 1
  rw [UInt8.toNat_or, Nat.or_comm]
  rw [mul_one] at this
  exact this.symm.trans (Nat.add_comm _ _)

/-- A number reads back from its bytes, whatever its sign. -/
theorem setvch_bnGetvch (bn : ℤ) : setvch (bnGetvch bn) = bn := by
  have hlow : littleEndian (lowBytes (bn.natAbs.log2+1) bn.natAbs) = bn.natAbs :=
    littleEndian_lowBytes Nat.lt_log2_self
  simp only [bnGetvch]
  generalize hvch : lowBytes (bn.natAbs.log2+1) bn.natAbs = vch at hlow ⊢
  have hpow : ∀ k : ℕ, 2^(8*(k+1)-1) = 256^k*128 := by
    intro k
    rw [show 8*(k+1)-1 = 8*k+7 by omega, pow_add, pow_mul]
    norm_num
  split_ifs with htop hneg hneg
  · -- a byte is added for the sign of a negative number
    have hset : littleEndian (vch ++ [0x80])-2^(8*(vch ++ [(0x80 : UInt8)]).length-1) =
        bn.natAbs := by
      rw [littleEndian_append, hlow, List.length_append, List.length_singleton, hpow]
      simp [littleEndian]
    rw [setvch, if_pos (by simp), hset, Int.ofNat_natAbs_of_nonpos (le_of_lt hneg), neg_neg]
  · rw [setvch, if_neg (by simp), littleEndian_append_zero, hlow]
    exact Int.natAbs_of_nonneg (not_lt.mp hneg)
  · -- the sign goes into the last byte
    have hne : vch ≠ [] := by
      rw [← hvch]
      exact lowBytes_ne_nil (Int.natAbs_ne_zero.mpr (ne_of_lt hneg)) _
    have hlast : vch.getLastD 0 < 0x80 := UInt8.not_le.mp htop
    have hlen : vch.length = vch.length-1+1 := by
      have := List.length_pos_of_ne_nil hne
      omega
    have hset : littleEndian (vch.dropLast ++ [vch.getLastD 0 ||| 0x80])-
        2^(8*(vch.dropLast ++ [vch.getLastD 0 ||| 0x80]).length-1) = bn.natAbs := by
      rw [List.length_append, List.length_singleton, List.length_dropLast, hpow,
        littleEndian_append, List.length_dropLast]
      simp only [littleEndian, toNat_or_signBit hlast]
      rw [← hlow, littleEndian_dropLast hne, mul_zero, add_zero, mul_add]
      omega
    have hsign : (vch.dropLast ++ [vch.getLastD 0 ||| 0x80]).getLastD 0 ≥ 0x80 := by
      have := toNat_or_signBit hlast
      simp only [List.getLastD_concat, ge_iff_le, UInt8.le_iff_toNat_le, this]
      exact Nat.le_add_left _ _
    rw [setvch, if_pos hsign, hset, Int.ofNat_natAbs_of_nonpos (le_of_lt hneg), neg_neg]
  · rw [setvch, if_neg htop, hlow]
    exact Int.natAbs_of_nonneg (not_lt.mp hneg)

/-- How many bytes a number takes: one bit of the last byte is the sign. -/
theorem bnGetvch_length_le {bn : ℤ} {k : ℕ} (h : bn.natAbs < 2^(8*k+7)) :
    (bnGetvch bn).length ≤ k+1 := by
  have hpow : 2^(8*k+7) = 256^k*128 := by
    rw [pow_add, pow_mul]
    norm_num
  have hlow : littleEndian (lowBytes (bn.natAbs.log2+1) bn.natAbs) = bn.natAbs :=
    littleEndian_lowBytes Nat.lt_log2_self
  have hlen : (lowBytes (bn.natAbs.log2+1) bn.natAbs).length ≤ k+1 := by
    apply lowBytes_length_le
    rw [pow_succ]
    omega
  simp only [bnGetvch]
  generalize lowBytes (bn.natAbs.log2+1) bn.natAbs = vch at hlow hlen ⊢
  -- a magnitude of `k+1` bytes leaves the sign bit of the last one clear
  have hfull : vch.length = k+1 → vch.getLastD 0 < 0x80 := by
    intro hk
    have hne : vch ≠ [] := List.ne_nil_of_length_eq_add_one hk
    have hlast := littleEndian_dropLast hne
    rw [hlow, hk, Nat.add_sub_cancel] at hlast
    have hlt : (vch.getLastD 0).toNat < 128 := by
      apply Nat.lt_of_mul_lt_mul_left (a := 256^k)
      omega
    exact hlt
  split_ifs with htop hneg hneg
  · have hshort : vch.length ≠ k+1 := fun hk => absurd (hfull hk) (UInt8.not_lt.mpr htop)
    rw [List.length_append, List.length_singleton]
    omega
  · have hshort : vch.length ≠ k+1 := fun hk => absurd (hfull hk) (UInt8.not_lt.mpr htop)
    rw [List.length_append, List.length_singleton]
    omega
  · have hne : vch ≠ [] := by
      intro hnil
      rw [hnil, littleEndian] at hlow
      exact Int.natAbs_ne_zero.mpr (ne_of_lt hneg) hlow.symm
    have := List.length_pos_of_ne_nil hne
    rw [List.length_append, List.length_dropLast, List.length_singleton]
    omega
  · exact hlen

end Getvch

end Candypool.Script
