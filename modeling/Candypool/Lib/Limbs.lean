import Candypool.Lib.WordArray
import Mathlib.Tactic.Ring

/-! Numbers in arrays of `w`-bit words, the lowest word first. A loop that changes word after word is
followed on the number that the first words make up. -/
namespace Candypool.Lib

variable {w : ℕ}

/-- The number in the first `n` words. -/
def limbs (a : Array (BitVec w)) : ℕ → ℕ
  | 0 => 0
  | n+1 => limbs a n+2^(w*n)*(a.getD n 0#w).toNat

section Value
variable {a b : Array (BitVec w)} {i n : ℕ}

theorem limbs_lt (a : Array (BitVec w)) (n : ℕ) : limbs a n < 2^(w*n) := by
  induction n with
  | zero => exact Nat.one_pos
  | succ n ih =>
    have hword := (a.getD n 0#w).isLt
    calc limbs a (n+1) = limbs a n+2^(w*n)*(a.getD n 0#w).toNat := rfl
      _ < 2^(w*n)+2^(w*n)*(a.getD n 0#w).toNat := Nat.add_lt_add_right ih _
      _ = 2^(w*n)*((a.getD n 0#w).toNat+1) := by ring
      _ ≤ 2^(w*n)*2^w := Nat.mul_le_mul_left _ hword
      _ = 2^(w*(n+1)) := by rw [← pow_add, Nat.mul_succ]

theorem limbs_congr (h : ∀ i < n, a.getD i 0#w = b.getD i 0#w) : limbs a n = limbs b n := by
  induction n with
  | zero => rfl
  | succ n ih => rw [limbs, limbs, ih fun i hi => h i (by omega), h n (Nat.lt_succ_self n)]

theorem limbs_zeros {k : ℕ} (hk : k ≤ n) (h : ∀ i, k ≤ i → i < n → a.getD i 0#w = 0#w) :
    limbs a n = limbs a k := by
  induction n with
  | zero => rw [Nat.le_zero.mp hk]
  | succ n ih =>
    rcases Nat.lt_or_eq_of_le hk with hlt | rfl
    · rw [limbs, ih (by omega) fun i hki hi => h i hki (by omega), h n (by omega) (by omega),
        BitVec.toNat_zero, mul_zero, add_zero]
    · rfl

/-- A word is a digit of the number. -/
theorem limbs_div_mod (hi : i < n) : limbs a n/2^(w*i)%2^w = (a.getD i 0#w).toNat := by
  induction n with
  | zero => exact absurd hi (Nat.not_lt_zero i)
  | succ n ih =>
    have hpos := Nat.two_pow_pos (w*i)
    rcases Nat.lt_succ_iff_lt_or_eq.mp hi with hlt | rfl
    · -- the word added last is a multiple of a higher power
      have hpow : 2^(w*n)*(a.getD n 0#w).toNat =
          2^(w*i)*(2^w*(2^(w*(n-i-1))*(a.getD n 0#w).toNat)) := by
        have hexp : w*n = w*i+w+w*(n-i-1) := by
          obtain ⟨k,rfl⟩ := Nat.exists_eq_add_of_lt hlt
          rw [show i+k+1-i-1 = k by omega]
          ring
        rw [hexp, pow_add, pow_add]
        ring
      rw [limbs, hpow, Nat.add_mul_div_left _ _ hpos, Nat.add_mul_mod_self_left]
      exact ih hlt
    · rw [limbs, Nat.add_mul_div_left _ _ hpos, Nat.div_eq_of_lt (limbs_lt a i), zero_add]
      exact Nat.mod_eq_of_lt (BitVec.isLt _)

theorem limbs_injective (h : limbs a n = limbs b n) (hi : i < n) : a.getD i 0#w = b.getD i 0#w := by
  apply BitVec.eq_of_toNat_eq
  rw [← limbs_div_mod hi, ← limbs_div_mod (a := b) hi, h]

theorem testBit_limbs (hw : 0 < w) (a : Array (BitVec w)) (n j : ℕ) :
    (limbs a n).testBit j = (decide (j < w*n) && bitAt a 0 j) := by
  by_cases hj : j < w*n
  -- bit `j` is bit `j%w` of the word that is a digit of the number
  · have hword : j/w < n := Nat.div_lt_of_lt_mul hj
    have hbit := congrArg (Nat.testBit · (j%w)) (limbs_div_mod (a := a) hword)
    rw [Nat.testBit_mod_two_pow, Nat.testBit_div_two_pow, Nat.mod_add_div,
      decide_eq_true (Nat.mod_lt j hw), Bool.true_and] at hbit
    rw [hbit, decide_eq_true hj, Bool.true_and, bitAt, zero_add]
    rfl
  · rw [decide_eq_false hj, Bool.false_and]
    -- the number has no bits from `w*n` on
    apply Nat.testBit_lt_two_pow
    exact (limbs_lt a n).trans_le (Nat.pow_le_pow_right (by decide) (not_lt.mp hj))

end Value

section Change
variable {a : Array (BitVec w)} {i n : ℕ} {x : BitVec w}

theorem limbs_set_of_le (h : n ≤ i) : limbs (a.setIfInBounds i x) n = limbs a n := by
  apply limbs_congr
  intro j hj
  rw [Array.getD_eq_getD_getElem?, Array.getElem?_setIfInBounds_ne (by omega),
    Array.getD_eq_getD_getElem?]

/-- Changing a word changes the number by a multiple of that word's weight. -/
theorem limbs_set (hi : i < n) (hsize : i < a.size) :
    limbs (a.setIfInBounds i x) n+2^(w*i)*(a.getD i 0#w).toNat = limbs a n+2^(w*i)*x.toNat := by
  induction n with
  | zero => exact absurd hi (Nat.not_lt_zero i)
  | succ n ih =>
    rw [limbs, limbs, getD_setIfInBounds hsize]
    rcases Nat.lt_succ_iff_lt_or_eq.mp hi with hlt | rfl
    -- the word added last is another one
    · rw [if_neg (by omega)]
      have := ih hlt
      omega
    · rw [if_pos rfl, limbs_set_of_le le_rfl]
      omega

/-- What is or-ed to a word, bit by bit. -/
theorem bitAt_orWord_word (m : BitVec w) {j k : ℕ} (hj : j/w < a.size) :
    bitAt (orWord a k m) 0 j = (bitAt a 0 j || (decide (j/w = k) && m.getLsbD (j%w))) := by
  rw [bitAt, bitAt, orWord, zero_add, getD_modify a (j/w) k _ hj]
  split_ifs with h
  · rw [decide_eq_true h, Bool.true_and]
    exact BitVec.getLsbD_or
  · rw [decide_eq_false h, Bool.false_and, Bool.or_false]

theorem bitAt_ite_orWord (c : Prop) [Decidable c] (m : BitVec w) {j k : ℕ} (hj : j/w < a.size) :
    bitAt (if c then orWord a k m else a) 0 j =
      (bitAt a 0 j || (decide (c ∧ j/w = k) && m.getLsbD (j%w))) := by
  split_ifs with h
  · rw [bitAt_orWord_word m hj]
    simp only [h, true_and]
  · rw [decide_eq_false fun hc => h hc.1, Bool.false_and, Bool.or_false]

end Change

end Candypool.Lib
