import Candypool.Core.VarInt
import Mathlib.Algebra.BigOperators.Intervals
import Mathlib.Algebra.BigOperators.Ring.Finset
import Mathlib.Data.List.GetD
import Mathlib.Tactic.Ring

/-! The code of `WriteVarInt` is one-to-one: its byte sequences are the ones whose bytes have the high
bit set up to the last, and the formula of the source counts them without gaps. -/
namespace Candypool.Core

/-- `(a[len-1] & 0x7F) + sum(i=1..len-1, 128^i*((a[len-i-1] & 0x7F)+1))` -/
def varIntValue (a : List UInt8) : ℕ :=
  (a.getD (a.length-1) 0).toNat % 128+
    ∑ i ∈ Finset.Ico 1 a.length, 128^i*((a.getD (a.length-i-1) 0).toNat % 128+1)

/-- All but the last byte have the high bit set. -/
def VarIntForm (a : List UInt8) : Prop :=
  ∃ digits last, a = digits ++ [last] ∧ (∀ chData ∈ digits, 128 ≤ chData.toNat) ∧ last.toNat < 128

section Value
variable {digits : List UInt8} {chData last : UInt8}

theorem varIntValue_singleton (last : UInt8) : varIntValue [last] = last.toNat % 128 := by
  rw [varIntValue, List.length_singleton, Finset.Ico_self, Finset.sum_empty, Nat.add_zero]
  rfl

/-- A digit behind others: their number is one too small, and shifted. -/
theorem varIntValue_append (last : UInt8) (hne : digits ≠ []) :
    varIntValue (digits ++ [last]) = (varIntValue digits+1)*128+last.toNat % 128 := by
  obtain ⟨len,hlen⟩ : ∃ len, digits.length = len+1 :=
    ⟨digits.length-1, by have := List.length_pos_iff.mpr hne; omega⟩
  have hlast : (digits ++ [last]).getD (len+1) 0 = last := by
    rw [List.getD_append_right _ _ _ _ hlen.le, hlen, Nat.sub_self]
    rfl
  have hdigit (i : ℕ) : (digits ++ [last]).getD (len-i) 0 = digits.getD (len-i) 0 :=
    List.getD_append _ _ _ _ (by omega)
  have hsum : ∑ i ∈ Finset.Ico 1 (len+2), 128^i*(((digits ++ [last]).getD (len+2-i-1) 0).toNat % 128+1) =
      ∑ i ∈ Finset.range (len+1), 128^i*((digits.getD (len-i) 0).toNat % 128+1)*128 := by
    rw [Finset.sum_Ico_eq_sum_range]
    apply Finset.sum_congr rfl
    intro i _
    rw [show len+2-(1+i)-1 = len-i by omega, hdigit, pow_add, pow_one]
    ring
  have hfirst : ∑ i ∈ Finset.Ico 1 (len+1), 128^i*((digits.getD (len+1-i-1) 0).toNat % 128+1) =
      ∑ i ∈ Finset.range len, 128^(i+1)*((digits.getD (len-(i+1)) 0).toNat % 128+1) := by
    rw [Finset.sum_Ico_eq_sum_range]
    apply Finset.sum_congr rfl
    intro i _
    rw [show len+1-(1+i)-1 = len-(i+1) by omega, Nat.add_comm 1 i]
  rw [varIntValue, varIntValue, List.length_append, List.length_singleton, hlen, hsum,
    ← Finset.sum_mul, Finset.sum_range_succ', hfirst]
  simp only [Nat.add_sub_cancel, hlast, Nat.sub_zero, pow_zero, Nat.one_mul]
  ring

/-- The writer takes the digits off again, the last first. -/
theorem varIntLoop_digits (fuel : ℕ) (hne : digits ≠ [])
    (hhigh : ∀ chData ∈ digits, 128 ≤ chData.toNat) (hfuel : digits.length ≤ fuel) :
    varIntLoop fuel (varIntValue digits) true = digits.reverse := by
  induction digits using List.reverseRecOn generalizing fuel with
  | nil => exact absurd rfl hne
  | append_singleton init chData ih =>
    rw [List.length_append, List.length_singleton] at hfuel
    obtain ⟨fuel,rfl⟩ := Nat.exists_eq_add_of_lt (Nat.zero_lt_of_lt hfuel)
    have hbyte : UInt8.ofNat (chData.toNat % 128+128) = chData := by
      have hge := hhigh chData (List.mem_append_right _ List.mem_cons_self)
      have hlt := chData.toNat_lt
      rw [show chData.toNat % 128+128 = chData.toNat by omega, UInt8.ofNat_toNat]
    have hmod : chData.toNat % 128 < 128 := Nat.mod_lt _ (by decide)
    rw [Nat.zero_add, varIntLoop, if_pos rfl, List.reverse_append]
    by_cases hinit : init = []
    · rw [hinit, List.nil_append, varIntValue_singleton, Nat.mod_mod, hbyte, if_pos (by omega)]
      rfl
    · have hrest : ((varIntValue init+1)*128+chData.toNat % 128)/128-1 = varIntValue init := by
        omega
      have hlow : ((varIntValue init+1)*128+chData.toNat % 128) % 128 = chData.toNat % 128 := by
        omega
      rw [varIntValue_append chData hinit, hlow, hbyte, if_neg (by omega), hrest,
        ih fuel hinit (fun b hb => hhigh b (List.mem_append_left _ hb)) (by omega)]
      rfl

end Value

section Digits

/-- The digits before the last one, as the reader sees them. -/
theorem varIntLoop_more {fuel n : ℕ} (hfuel : n < 128^(fuel+1)) :
    varIntLoop (fuel+1) n true ≠ [] ∧
    (∀ chData ∈ varIntLoop (fuel+1) n true, 128 ≤ chData.toNat) ∧
    varIntValue (varIntLoop (fuel+1) n true).reverse = n := by
  have hdigit : n % 128 < 128 := Nat.mod_lt _ (by decide)
  have hbyte : (UInt8.ofNat (n % 128+128)).toNat = n % 128+128 := by
    rw [UInt8.toNat_ofNat']
    omega
  induction fuel generalizing n with
  | zero =>
    rw [zero_add, pow_one] at hfuel
    rw [varIntLoop, if_pos rfl, if_pos (by omega)]
    refine ⟨List.cons_ne_nil _ _, ?_, ?_⟩
    · intro chData hmem
      rw [List.mem_singleton.mp hmem, hbyte]
      omega
    · rw [List.reverse_singleton, varIntValue_singleton, hbyte]
      omega
  | succ fuel ih =>
    rw [varIntLoop, if_pos rfl]
    refine ⟨List.cons_ne_nil _ _, ?_⟩
    split_ifs with hsmall
    · constructor
      · intro chData hmem
        rw [List.mem_singleton.mp hmem, hbyte]
        omega
      · rw [List.reverse_singleton, varIntValue_singleton, hbyte]
        omega
    · rw [pow_succ] at hfuel
      -- the digits above the lowest are those of (n/128)-1
      have hmod : (n/128-1) % 128 < 128 := Nat.mod_lt _ (by decide)
      obtain ⟨hne,hhigh,hvalue⟩ := ih (n := n/128-1) (by omega) hmod (by
        rw [UInt8.toNat_ofNat']
        omega)
      constructor
      · intro chData hmem
        rcases List.mem_cons.mp hmem with rfl | hmem
        · rw [hbyte]
          omega
        · exact hhigh chData hmem
      · rw [List.reverse_cons, varIntValue_append _ (by simpa using hne), hvalue, hbyte]
        omega

/-- A loop that has room for the digits of a number does not see how much there is. -/
theorem varIntLoop_room {len fuel n : ℕ} (hlen : n < 128^(len+1)) (hfuel : len+1 ≤ fuel)
    (fMore : Bool) : varIntLoop fuel n fMore = varIntLoop (len+1) n fMore := by
  induction len generalizing fuel n fMore with
  | zero =>
    obtain ⟨fuel,rfl⟩ := Nat.exists_eq_add_of_le' hfuel
    have hsmall : n ≤ 0x7f := by omega
    rw [varIntLoop, varIntLoop, if_pos hsmall, if_pos hsmall]
  | succ len ih =>
    obtain ⟨fuel,rfl⟩ : ∃ room, fuel = room+1 := ⟨fuel-1, by omega⟩
    rw [pow_succ] at hlen
    rw [varIntLoop, varIntLoop]
    split_ifs
    · rfl
    · rw [ih (by omega) (by omega)]
    · rfl
    · rw [ih (by omega) (by omega)]

theorem varIntLoop_length_le (fuel n : ℕ) (fMore : Bool) :
    (varIntLoop fuel n fMore).length ≤ fuel := by
  induction fuel generalizing n fMore with
  | zero => exact Nat.zero_le _
  | succ fuel ih =>
    rw [varIntLoop, List.length_cons]
    apply Nat.succ_le_succ
    split_ifs
    · exact Nat.zero_le _
    · exact ih _ _

/-- `tmp` has a place for every digit of a number of its type. -/
theorem lt_pow_tmp {size n : ℕ} (hfit : n < 256^size) : n < 128^((size*8+6)/7) := by
  calc n < 256^size := hfit
    _ = 2^(8*size) := by rw [pow_mul]; norm_num
    _ ≤ 2^(7*((size*8+6)/7)) := Nat.pow_le_pow_right (by decide) (by omega)
    _ = 128^((size*8+6)/7) := by rw [pow_mul]; norm_num

end Digits

section Code
variable {size n : ℕ}

theorem writeVarInt_tmp (hsize : 0 < size) (hfit : n < 256^size) {fuel : ℕ}
    (hfuel : (size*8+6)/7 ≤ fuel) : (varIntLoop fuel n false).reverse = writeVarInt size n := by
  obtain ⟨len,hlen⟩ : ∃ len, (size*8+6)/7 = len+1 := ⟨(size*8+6)/7-1, by omega⟩
  have hroom := lt_pow_tmp hfit
  rw [hlen] at hroom hfuel
  rw [writeVarInt, hlen, varIntLoop_room hroom hfuel]

/-- What is written has the form, and the value by the formula. -/
theorem writeVarInt_form (hsize : 0 < size) (hfit : n < 256^size) :
    VarIntForm (writeVarInt size n) ∧ varIntValue (writeVarInt size n) = n := by
  obtain ⟨len,hlen⟩ : ∃ len, (size*8+6)/7 = len+1+1 := ⟨(size*8+6)/7-2, by omega⟩
  have hroom := lt_pow_tmp hfit
  have hdigit : n % 128 < 128 := Nat.mod_lt _ (by decide)
  have hbyte : (UInt8.ofNat (n % 128)).toNat = n % 128 := by
    rw [UInt8.toNat_ofNat']
    omega
  rw [hlen, pow_succ] at hroom
  rw [writeVarInt, hlen, varIntLoop, if_neg Bool.false_ne_true]
  split_ifs with hsmall
  · refine ⟨⟨[],_,rfl,?_,?_⟩,?_⟩
    · exact List.forall_mem_nil _
    · rw [hbyte]
      exact hdigit
    · rw [List.reverse_singleton, varIntValue_singleton, hbyte]
      omega
  · obtain ⟨hne,hhigh,hvalue⟩ := @varIntLoop_more len (n/128-1) (by omega)
    rw [List.reverse_cons]
    refine ⟨⟨_,_,rfl,?_,?_⟩,?_⟩
    · intro chData hmem
      exact hhigh chData (List.mem_reverse.mp hmem)
    · rw [hbyte]
      exact hdigit
    · rw [varIntValue_append _ (by simpa using hne), hvalue, hbyte]
      omega

/-- Every sequence of the form is what is written for its value. -/
theorem writeVarInt_value (hsize : 0 < size) {a : List UInt8} (hform : VarIntForm a)
    (hfit : varIntValue a < 256^size) : writeVarInt size (varIntValue a) = a := by
  obtain ⟨digits,last,rfl,hhigh,hlast⟩ := hform
  have hbyte : UInt8.ofNat (last.toNat % 128) = last := by
    rw [Nat.mod_eq_of_lt hlast, UInt8.ofNat_toNat]
  have hmod : last.toNat % 128 < 128 := Nat.mod_lt _ (by decide)
  rw [← writeVarInt_tmp hsize hfit (Nat.le_add_right _ (digits.length+1)), ← Nat.add_assoc,
    varIntLoop, if_neg Bool.false_ne_true]
  by_cases hdigits : digits = []
  · rw [hdigits, List.nil_append, varIntValue_singleton, Nat.mod_mod, hbyte, if_pos (by omega)]
    rfl
  · have hrest : ((varIntValue digits+1)*128+last.toNat % 128)/128-1 = varIntValue digits := by
      omega
    have hlow : ((varIntValue digits+1)*128+last.toNat % 128) % 128 = last.toNat % 128 := by omega
    rw [varIntValue_append last hdigits, hlow, hbyte, if_neg (by omega), hrest,
      varIntLoop_digits _ hdigits hhigh (Nat.le_add_left _ _), List.reverse_cons,
      List.reverse_reverse]

/-- Numbers of a type and byte sequences of the form are in bijection, as long as the value of the
sequence is one of the type; and the writer stays within `tmp`. -/
theorem varInt_bijection (size : ℕ) (hsize : size = 4 ∨ size = 8) :
    (∀ n < 256^size,
      (∀ fuel ≥ (size*8+6)/7, (varIntLoop fuel n false).reverse = writeVarInt size n ∧
        varIntSizeLoop fuel n = getSizeOfVarInt size n) ∧
      (writeVarInt size n).length = getSizeOfVarInt size n ∧
      (writeVarInt size n).length ≤ (size*8+6)/7 ∧
      ∀ rest, readVarInt size (writeVarInt size n ++ rest) = some (n,rest)) ∧
    (∀ a, VarIntForm a → varIntValue a < 256^size → writeVarInt size (varIntValue a) = a) ∧
    ∀ n < 256^size, ∃! a, VarIntForm a ∧ varIntValue a = n := by
  have hpos : 0 < size := by omega
  refine ⟨?_,?_,?_⟩
  · intro n hfit
    refine ⟨?_,writeVarInt_length size n,?_,?_⟩
    · intro fuel hfuel
      have htmp := writeVarInt_tmp hpos hfit hfuel
      refine ⟨htmp,?_⟩
      rw [← varIntLoop_length fuel n false, ← writeVarInt_length, ← htmp, List.length_reverse]
    · rw [writeVarInt, List.length_reverse]
      exact varIntLoop_length_le _ _ _
    · exact readVarInt_write hpos hfit
  · intro a hform hfit
    exact writeVarInt_value hpos hform hfit
  · intro n hfit
    refine ⟨writeVarInt size n,writeVarInt_form hpos hfit,?_⟩
    rintro a ⟨hform,rfl⟩
    exact (writeVarInt_value hpos hform hfit).symm

/-- Eight bytes, at the greatest number. -/
theorem varInt_bijection_max : (8 = 4 ∨ 8 = 8) ∧
    readVarInt 8 (writeVarInt 8 (2^64-1)) = some (2^64-1,[]) := by
  have hread := ((varInt_bijection 8 (Or.inr rfl)).1 (2^64-1) (by norm_num)).2.2.2 []
  rw [List.append_nil] at hread
  exact ⟨Or.inr rfl,hread⟩

end Code

end Candypool.Core
