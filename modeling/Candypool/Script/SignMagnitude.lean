import Candypool.Script.ScriptNum

/-! The byte vectors that denote one integer: a sign bit over a magnitude, and the shortest of them. -/
namespace Candypool.Script
open Candypool.Prime Candypool.Core

variable {v u : Valtype}

/-- No shorter vector denotes the same integer. -/
def Shortest (v : Valtype) : Prop := ∀ u : Valtype, setvch u = setvch v → v.length ≤ u.length

/-- A sign over the magnitude zero. -/
def NegativeZero (v : Valtype) : Prop := setvch v = 0 ∧ v.getLastD 0 ≥ 0x80

section Magnitude

theorem littleEndian_injective (hlen : v.length = u.length) (h : littleEndian v = littleEndian u) :
    v = u := by
  induction v generalizing u with
  | nil => exact (List.length_eq_zero_iff.mp hlen.symm).symm
  | cons b v ih =>
    cases u with
    | nil => exact absurd hlen (Nat.succ_ne_zero _)
    | cons c u =>
      have hb := b.toNat_lt
      have hc := c.toNat_lt
      rw [littleEndian, littleEndian] at h
      have hhead : b = c := UInt8.toNat_inj.mp (by omega)
      rw [hhead, ih (Nat.succ_inj.mp hlen) (by omega)]

/-- The sign bit is the upper half of the range of the magnitude. -/
theorem top_iff (hne : v ≠ []) : v.getLastD 0 ≥ 0x80 ↔ 128*256^(v.length-1) ≤ littleEndian v := by
  have hsplit := littleEndian_dropLast hne
  have hlow := littleEndian_lt v.dropLast
  rw [List.length_dropLast] at hlow
  have htop : v.getLastD 0 ≥ 0x80 ↔ 128 ≤ (v.getLastD 0).toNat := UInt8.le_iff_toNat_le
  rw [htop, hsplit]
  constructor
  · intro h
    have := Nat.mul_le_mul_left (256^(v.length-1)) h
    omega
  · intro h
    by_contra hlt
    -- a last byte of at most 127 leaves the magnitude below the sign bit
    have := Nat.mul_le_mul_left (256^(v.length-1)) (show (v.getLastD 0).toNat ≤ 127 by omega)
    omega

theorem setvch_eq (hne : v ≠ []) : setvch v = if 128*256^(v.length-1) ≤ littleEndian v then
    -((littleEndian v-128*256^(v.length-1) : ℕ) : ℤ) else littleEndian v := by
  have hlen := List.length_pos_of_ne_nil hne
  -- the weight of the sign bit
  have hpow : 2^(8*v.length-1) = 128*256^(v.length-1) := by
    rw [show 8*v.length-1 = 7+8*(v.length-1) by omega, pow_add, pow_mul]
    rfl
  rw [setvch, hpow]
  exact if_congr (top_iff hne) rfl rfl

theorem littleEndian_lt_two (hne : v ≠ []) : littleEndian v < 2*(128*256^(v.length-1)) := by
  have hlen := List.length_pos_of_ne_nil hne
  calc littleEndian v < 256^v.length := littleEndian_lt v
    _ = 256^(v.length-1+1) := by rw [Nat.sub_add_cancel hlen]
    _ = 2*(128*256^(v.length-1)) := by ring

theorem natAbs_setvch_lt (hne : v ≠ []) : (setvch v).natAbs < 128*256^(v.length-1) := by
  have hlt := littleEndian_lt_two hne
  rw [setvch_eq hne]
  split_ifs <;> omega

/-- One length and one integer other than zero make one vector. -/
theorem setvch_injective (hlen : v.length = u.length) (hz : setvch v ≠ 0) (h : setvch v = setvch u) :
    v = u := by
  by_cases hne : v = []
  · rw [hne] at hlen ⊢
    exact (List.length_eq_zero_iff.mp hlen.symm).symm
  have hne' : u ≠ [] := by
    rintro rfl
    exact hne (List.length_eq_zero_iff.mp hlen)
  apply littleEndian_injective hlen
  have hv : @Eq ℤ (setvch v) _ := setvch_eq hne
  have hu : @Eq ℤ (setvch u) _ := setvch_eq hne'
  have hvu : @Eq ℤ (setvch v) (setvch u) := h
  have hv0 : ¬ @Eq ℤ (setvch v) 0 := hz
  rw [← hlen] at hu
  -- The signs agree, since the integer is not zero, and then the magnitudes.
  split_ifs at hv hu <;> omega

end Magnitude

section Form

theorem bnGetvch_zero : bnGetvch 0 = [] := rfl

theorem bnGetvch_shortest (z : CBigNum) : Shortest (bnGetvch z) := by
  intro u hu
  rw [setvch_bnGetvch] at hu
  by_cases hne : u = []
  -- only zero is denoted by no bytes
  · have hz : z = 0 := by rw [← hu, hne]; rfl
    rw [hz, bnGetvch_zero]
    exact Nat.zero_le _
  · have hlen := List.length_pos_of_ne_nil hne
    have hlt := natAbs_setvch_lt hne
    -- one byte less would not hold the number and its sign
    have hbound : (bnGetvch z).length ≤ u.length-1+1 := by
      apply bnGetvch_length_le
      rw [← hu, pow_add, pow_mul, mul_comm]
      exact hlt
    omega

theorem Shortest.eq_bnGetvch (h : Shortest v) : v = bnGetvch (setvch v) := by
  -- both are shortest, so that they have one length
  have hback : setvch (bnGetvch (setvch v)) = setvch v := setvch_bnGetvch _
  have hlen : v.length = (bnGetvch (setvch v)).length :=
    (h _ hback).antisymm (bnGetvch_shortest _ v hback.symm)
  by_cases hz : setvch v = 0
  · rw [hz, bnGetvch_zero] at hlen ⊢
    exact List.length_eq_zero_iff.mp hlen
  · exact setvch_injective hlen hz hback.symm

/-- A last byte that is not zero and has the sign bit clear is needed. -/
theorem shortest_of_last (hzero : v.getLastD 0 ≠ 0) (htop : v.getLastD 0 < 0x80) : Shortest v := by
  intro u hu
  have hne : v ≠ [] := by
    rintro rfl
    exact hzero rfl
  have hlen := List.length_pos_of_ne_nil hne
  have hvalue : setvch v = littleEndian v := if_neg (UInt8.not_le.mpr htop)
  -- the last byte counts, as it is not zero
  have hlow : 256^(v.length-1) ≤ littleEndian v := by
    have hpos : 1 ≤ (v.getLastD 0).toNat := Nat.one_le_iff_ne_zero.mpr fun h => hzero (UInt8.toNat_inj.mp h)
    rw [littleEndian_dropLast hne]
    exact Nat.le_add_left_of_le (Nat.le_mul_of_pos_right _ hpos)
  by_contra hshort
  have hpow : 256^u.length ≤ 256^(v.length-1) := Nat.pow_le_pow_right (by decide) (by omega)
  have hvpos := Nat.pow_pos (n := u.length) (show 0 < 256 by decide)
  by_cases hu0 : u = []
  · have habs : (setvch u).natAbs = 0 := by rw [hu0]; rfl
    rw [hu, hvalue, Int.natAbs_natCast] at habs
    omega
  · have hlt := natAbs_setvch_lt hu0
    have hulen := List.length_pos_of_ne_nil hu0
    have hsucc : 256^u.length = 256*256^(u.length-1) := by
      rw [← pow_succ', Nat.sub_add_cancel hulen]
    rw [hu, hvalue, Int.natAbs_natCast] at hlt
    omega

/-- A vector comes back exactly when it is in the shortest form, which a negative zero is not. -/
theorem bnGetvch_setvch_iff (v : Valtype) :
    bnGetvch (setvch v) = v ↔ Shortest v ∧ ¬NegativeZero v := by
  constructor
  · intro h
    refine ⟨?_,?_⟩
    · rw [← h]
      exact bnGetvch_shortest _
    · rintro ⟨hz,htop⟩
      rw [hz, bnGetvch_zero] at h
      rw [← h] at htop
      exact absurd htop (by decide)
  · exact fun h => h.1.eq_bnGetvch.symm

end Form

end Candypool.Script
