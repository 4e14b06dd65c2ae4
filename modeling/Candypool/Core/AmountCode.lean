import Candypool.Core.Compressor

/-! Amounts and their codes are in bijection: the two functions without the bounds of a 64-bit number
undo each other, and they are the functions of the source where the result has 64 bits. -/
namespace Candypool.Core

/-- `CompressAmount` in unbounded numbers; no result on the way is greater than the code. -/
def compressAmountExact (n : ℕ) : ℕ :=
  if n = 0 then 0
  else
    let (n,e) := trimZeros 10 n 0
    if e < 9 then 1+(n/10*9+n % 10-1)*10+e else 1+(n-1)*10+9

/-- `DecompressAmount` in unbounded numbers; no result on the way is greater than the amount. -/
def decompressAmountExact (x : ℕ) : ℕ :=
  if x = 0 then 0
  else
    let x := x-1
    let e := x % 10
    let x := x/10
    let n := if e < 9 then x/9*10+(x % 9+1) else x+1
    (fun n => n*10)^[e] n

section Exact

theorem iterate_mul_ten_exact (e n : ℕ) : (fun n => n*10)^[e] n = n*10^e := by
  induction e generalizing n with
  | zero => rw [Function.iterate_zero_apply, pow_zero, Nat.mul_one]
  | succ e ih =>
    rw [Function.iterate_succ_apply, ih]
    ring

/-- The loop finds the exponent that a number was given, up to nine. -/
theorem trimZeros_mul_pow {fuel m e k : ℕ} (hk : e+k ≤ 9) (hfuel : 9 < e+fuel)
    (hlast : e+k < 9 → m % 10 ≠ 0) : trimZeros fuel (m*10^k) e = (m,e+k) := by
  induction k generalizing fuel e with
  | zero =>
    obtain ⟨fuel,rfl⟩ : ∃ rest, fuel = rest+1 := ⟨fuel-1, by omega⟩
    rw [pow_zero, Nat.mul_one, trimZeros, if_neg]
    · rfl
    · rintro ⟨hzero,hlt⟩
      exact hlast hlt hzero
  | succ k ih =>
    obtain ⟨fuel,rfl⟩ : ∃ rest, fuel = rest+1 := ⟨fuel-1, by omega⟩
    have hten : m*10^(k+1) = m*10^k*10 := by ring
    rw [trimZeros, hten, if_pos ⟨Nat.mul_mod_left _ _, by omega⟩, Nat.mul_div_cancel _ (by decide),
      ih (by omega) (by omega) (by omega), Nat.add_right_comm, Nat.add_assoc]

/-- The assert of `CompressAmount`. -/
theorem compressAmount_assert {n m e : ℕ} (hn : n ≠ 0) (htrim : trimZeros 10 n 0 = (m,e))
    (he : e < 9) : 1 ≤ m % 10 ∧ m % 10 ≤ 9 := by
  obtain ⟨m',e',htrim',-,-,-,-,hlast⟩ := trimZeros_spec hn (Nat.zero_le 9) (by decide : 9 < 0+10)
  rw [htrim] at htrim'
  obtain ⟨rfl,rfl⟩ := Prod.mk.inj htrim'
  have hdigit := hlast he
  omega

theorem decompressAmountExact_compress (n : ℕ) :
    decompressAmountExact (compressAmountExact n) = n := by
  rw [compressAmountExact]
  split_ifs with hzero
  · rw [hzero]
    rfl
  obtain ⟨m,e,htrim,heq,he,hm,hle,hlast⟩ := trimZeros_spec hzero (Nat.zero_le 9) (by decide : 9 < 0+10)
  rw [pow_zero, Nat.mul_one] at heq
  rw [htrim]
  dsimp only
  split_ifs with hlt
  · have hdigit := hlast hlt
    rw [decompressAmountExact, if_neg (by omega)]
    dsimp only
    have hx : 1+(m/10*9+m % 10-1)*10+e-1 = (m/10*9+(m % 10-1))*10+e := by omega
    have hexp : ((m/10*9+(m % 10-1))*10+e) % 10 = e := by omega
    have hrest : ((m/10*9+(m % 10-1))*10+e)/10 = m/10*9+(m % 10-1) := by omega
    have hm' : (m/10*9+(m % 10-1))/9*10+((m/10*9+(m % 10-1)) % 9+1) = m := by omega
    rw [hx, hexp, hrest, if_pos hlt, hm', iterate_mul_ten_exact, heq]
  · obtain rfl : e = 9 := by omega
    rw [decompressAmountExact, if_neg (by omega)]
    dsimp only
    have hx : 1+(m-1)*10+9-1 = (m-1)*10+9 := by omega
    have hexp : ((m-1)*10+9) % 10 = 9 := by omega
    have hrest : ((m-1)*10+9)/10 = m-1 := by omega
    rw [hx, hexp, hrest, if_neg (by decide), Nat.sub_add_cancel (Nat.pos_of_ne_zero hm),
      iterate_mul_ten_exact, heq]

theorem compressAmountExact_decompress (x : ℕ) :
    compressAmountExact (decompressAmountExact x) = x := by
  rw [decompressAmountExact]
  split_ifs with hzero
  · rw [hzero]
    rfl
  dsimp only
  rw [iterate_mul_ten_exact]
  have he : (x-1) % 10 < 10 := Nat.mod_lt _ (by decide)
  split_ifs with hlt
  · -- the digit that was put back ends the loop
    have hdigit : ((x-1)/10/9*10+((x-1)/10 % 9+1)) % 10 = (x-1)/10 % 9+1 := by omega
    have hquot : ((x-1)/10/9*10+((x-1)/10 % 9+1))/10 = (x-1)/10/9 := by omega
    have hne : (x-1)/10/9*10+((x-1)/10 % 9+1) ≠ 0 := by omega
    rw [compressAmountExact, if_neg (Nat.mul_ne_zero hne (by positivity)),
      trimZeros_mul_pow (by omega) (by decide) (by omega)]
    dsimp only
    rw [Nat.zero_add, if_pos hlt, hdigit, hquot]
    omega
  · have hnine : (x-1) % 10 = 9 := by omega
    rw [compressAmountExact, hnine, if_neg (Nat.mul_ne_zero (Nat.succ_ne_zero _) (by decide)),
      trimZeros_mul_pow (by decide) (by decide) (by omega)]
    dsimp only
    rw [if_neg (by decide)]
    omega

end Exact

section Bounded

theorem compressAmount_exact (n : ℕ) : compressAmount n = compressAmountExact n % 2^64 := by
  rw [compressAmount, compressAmountExact]
  split_ifs
  · rfl
  · dsimp only
    split_ifs <;> rfl

theorem decompressAmount_exact {x : ℕ} (hfit : decompressAmountExact x < 2^64) :
    decompressAmount x = decompressAmountExact x := by
  rw [decompressAmountExact] at hfit ⊢
  rw [decompressAmount]
  split_ifs at hfit ⊢ with hzero
  · rfl
  dsimp only at hfit ⊢
  rw [iterate_mul_ten_exact] at hfit ⊢
  -- the number before the loop is no greater than the amount
  have hpos : 0 < 10^((x-1) % 10) := by positivity
  have hle := Nat.le_mul_of_pos_right
    (if (x-1) % 10 < 9 then (x-1)/10/9*10+((x-1)/10 % 9+1) else (x-1)/10+1) hpos
  split_ifs at hfit hle ⊢ with hlt
  · rw [Nat.mod_eq_of_lt (hle.trans_lt hfit), iterate_mul_ten _ _ hfit]
  · rw [Nat.mod_eq_of_lt (hle.trans_lt hfit), iterate_mul_ten _ _ hfit]

theorem compressAmountExact_lt {n : ℕ} (hn : n ≤ maxMoney.toNat) :
    compressAmountExact n < 2^64 := by
  have hmax : n ≤ 200000000000000000 := hn
  rw [compressAmountExact]
  split_ifs with hzero
  · positivity
  obtain ⟨m,e,htrim,-,he,-,hle,-⟩ := trimZeros_spec hzero (Nat.zero_le 9) (by decide : 9 < 0+10)
  rw [htrim]
  dsimp only
  split_ifs <;> omega

/-- Amounts of money and the codes of such amounts are in bijection, and so are all amounts and
codes of 64 bits whose decompression has 64 bits. -/
theorem amount_bijection :
    (∀ n ≤ maxMoney.toNat, compressAmountExact n < 2^64 ∧
      compressAmount n = compressAmountExact n ∧
      (n ≠ 0 → ∀ m e, trimZeros 10 n 0 = (m,e) → e < 9 → 1 ≤ m % 10 ∧ m % 10 ≤ 9) ∧
      decompressAmount (compressAmount n) = n) ∧
    (∀ x < 2^64, decompressAmountExact x < 2^64 →
      decompressAmount x = decompressAmountExact x ∧ compressAmount (decompressAmount x) = x) ∧
    Set.BijOn compressAmount {n | n ≤ maxMoney.toNat}
      {x | x < 2^64 ∧ decompressAmountExact x ≤ maxMoney.toNat} := by
  have hcompress (n : ℕ) (hn : n ≤ maxMoney.toNat) : compressAmount n = compressAmountExact n := by
    rw [compressAmount_exact, Nat.mod_eq_of_lt (compressAmountExact_lt hn)]
  have hback (x : ℕ) (hx : x < 2^64) (hfit : decompressAmountExact x < 2^64) :
      compressAmount (decompressAmount x) = x := by
    rw [decompressAmount_exact hfit, compressAmount_exact, compressAmountExact_decompress,
      Nat.mod_eq_of_lt hx]
  have hmoney : maxMoney.toNat < 2^64 := by decide
  refine ⟨?_,?_,?_,?_,?_⟩
  · intro n hn
    refine ⟨compressAmountExact_lt hn,hcompress n hn,?_,decompressAmount_compress hn⟩
    intro hzero m e htrim he
    exact compressAmount_assert hzero htrim he
  · intro x hx hfit
    exact ⟨decompressAmount_exact hfit,hback x hx hfit⟩
  · intro n hn
    rw [Set.mem_ofPred_eq, hcompress n hn, decompressAmountExact_compress]
    exact ⟨compressAmountExact_lt hn,hn⟩
  · intro n hn m hm heq
    have hdec := congrArg decompressAmount heq
    rwa [decompressAmount_compress hn, decompressAmount_compress hm] at hdec
  · rintro x ⟨hx,hfit⟩
    refine ⟨decompressAmount x,?_,hback x hx (hfit.trans_lt hmoney)⟩
    rw [Set.mem_ofPred_eq, decompressAmount_exact (hfit.trans_lt hmoney)]
    exact hfit

end Bounded

end Candypool.Core
