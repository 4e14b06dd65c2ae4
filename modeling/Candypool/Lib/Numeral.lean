import Mathlib.Data.List.TakeWhile
import Mathlib.Data.Nat.Digits.Lemmas

/-! Numerals, the highest digit first. The leading zeros and the value determine the numeral. -/
namespace Candypool.Lib

def leadingZeros (s : List ℕ) : ℕ := (s.takeWhile (· = 0)).length

/-- The value of a numeral to the base `b`. -/
def numeralValue (b : ℕ) (s : List ℕ) : ℕ := Nat.ofDigits b s.reverse

/-- The numeral of a value, after so many zeros. -/
def numeral (b zeros value : ℕ) : List ℕ := List.replicate zeros 0 ++ (Nat.digits b value).reverse

variable {b : ℕ}

theorem numeralValue_zeros (k : ℕ) (s : List ℕ) :
    numeralValue b (List.replicate k 0 ++ s) = numeralValue b s := by
  rw [numeralValue, List.reverse_append, List.reverse_replicate, Nat.ofDigits_append,
    Nat.ofDigits_replicate_zero, mul_zero, add_zero, numeralValue]

theorem numeralValue_append (b : ℕ) (s t : List ℕ) :
    numeralValue b (s ++ t) = numeralValue b s*b^t.length+numeralValue b t := by
  rw [numeralValue, List.reverse_append, Nat.ofDigits_append, List.length_reverse, add_comm, mul_comm,
    numeralValue, numeralValue]

theorem numeralValue_concat (b : ℕ) (s : List ℕ) (d : ℕ) :
    numeralValue b (s ++ [d]) = numeralValue b s*b+d := by
  rw [numeralValue_append, List.length_singleton, pow_one]
  simp [numeralValue]

theorem numeralValue_lt {s : List ℕ} (hb : 1 < b) (hs : ∀ d ∈ s, d < b) :
    numeralValue b s < b^s.length := by
  rw [numeralValue, ← List.length_reverse]
  exact Nat.ofDigits_lt_base_pow_length hb fun d hd => hs d (List.mem_reverse.mp hd)

theorem numeralValue_injective (hb : 1 < b) {s t : List ℕ} (hs : ∀ d ∈ s, d < b)
    (ht : ∀ d ∈ t, d < b) (hlen : s.length = t.length) (heq : numeralValue b s = numeralValue b t) :
    s = t := by
  have hrev : s.reverse = t.reverse := by
    apply Nat.ofDigits_inj_of_len_eq hb
    · rw [List.length_reverse, List.length_reverse, hlen]
    · exact fun d hd => hs d (List.mem_reverse.mp hd)
    · exact fun d hd => ht d (List.mem_reverse.mp hd)
    · exact heq
  exact List.reverse_injective hrev

/-- A numeral is its leading zeros, and a rest that does not begin with a zero. -/
theorem split_leadingZeros (s : List ℕ) :
    ∃ rest, s = List.replicate (leadingZeros s) 0 ++ rest ∧ ∀ d ∈ rest.head?, d ≠ 0 := by
  refine ⟨s.dropWhile (· = 0), ?_, ?_⟩
  · have hzeros : s.takeWhile (· = 0) = List.replicate (leadingZeros s) 0 := by
      rw [List.eq_replicate_iff]
      exact ⟨rfl, fun d hd => of_decide_eq_true (p := d = 0) (List.mem_takeWhile_imp (p := fun d : ℕ => decide (d = 0)) hd)⟩
    rw [← hzeros, List.takeWhile_append_dropWhile]
  · intro d hd
    have hhead := List.head?_dropWhile_not (fun d : ℕ => decide (d = 0)) s
    rw [Option.mem_def.mp hd] at hhead
    simpa using hhead

/-- A numeral comes back from its leading zeros and its value. -/
theorem numeral_value (hb : 1 < b) {s : List ℕ} (hs : ∀ d ∈ s, d < b) :
    numeral b (leadingZeros s) (numeralValue b s) = s := by
  obtain ⟨rest,hsplit,hhead⟩ := split_leadingZeros s
  have hvalue : numeralValue b s = Nat.ofDigits b rest.reverse := by
    rw [hsplit]
    exact numeralValue_zeros _ rest
  have hdigits : Nat.digits b (numeralValue b s) = rest.reverse := by
    rw [hvalue]
    apply Nat.digits_ofDigits b hb
    · intro d hd
      rw [hsplit] at hs
      exact hs d (List.mem_append_right _ (List.mem_reverse.mp hd))
    · intro hne
      rw [List.getLast_reverse]
      exact hhead _ (List.head?_eq_some_head _)
  rw [numeral, hdigits, List.reverse_reverse]
  exact hsplit.symm

theorem numeralValue_numeral (zeros value : ℕ) : numeralValue b (numeral b zeros value) = value := by
  rw [numeral, numeralValue_zeros, numeralValue, List.reverse_reverse, Nat.ofDigits_digits]

theorem leadingZeros_numeral (zeros value : ℕ) : leadingZeros (numeral b zeros value) = zeros := by
  have hrest : ((Nat.digits b value).reverse).takeWhile (· = 0) = [] := by
    cases h : (Nat.digits b value).reverse with
    | nil => rfl
    | cons d rest =>
      have hne : Nat.digits b value ≠ [] := by
        intro hnil
        rw [hnil] at h
        cases h
      have hlast : (Nat.digits b value).getLast hne = d := by
        rw [List.getLast_eq_iff_getLast?_eq_some, ← List.head?_reverse, h]
        rfl
      have hpos : d ≠ 0 := by
        rw [← hlast]
        apply Nat.getLast_digit_ne_zero
        exact fun hzero => hne (by rw [hzero, Nat.digits_zero])
      rw [List.takeWhile_cons, decide_eq_false hpos]
      rfl
  rw [leadingZeros, numeral, List.takeWhile_append_of_pos, hrest, List.append_nil,
    List.length_replicate]
  exact fun d hd => decide_eq_true (List.eq_of_mem_replicate hd)

theorem mem_numeral_lt (hb : 1 < b) {zeros value d : ℕ} (hd : d ∈ numeral b zeros value) : d < b := by
  rcases List.mem_append.mp hd with hd | hd
  · rw [List.eq_of_mem_replicate hd]
    omega
  · exact Nat.digits_lt_base hb (List.mem_reverse.mp hd)

end Candypool.Lib
