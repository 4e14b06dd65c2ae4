import Mathlib.NumberTheory.LucasPrimality
import Mathlib.GroupTheory.OrderOfElement
import Mathlib.FieldTheory.Finite.Basic
import Mathlib.Algebra.BigOperators.Associated

/-! Primes `p` for which a base `g` generates the units modulo `p²`. Every
geometric progression `g^j * m` with `p ∤ m` then meets every unit modulo `p²`,
and a number divisible by `p²` fails the Fermat test to base `g`. -/
namespace Candypool.Lib

/-- `g` is a primitive root modulo `p` and `p` is not a Wieferich prime to base `g`. -/
structure IsRootSq (g p : ℕ) : Prop where
  prime : p.Prime
  two_lt : 2 < p
  order : orderOf (g : ZMod p) = p-1
  not_wieferich : (g : ZMod (p^2))^(p-1) ≠ 1

theorem isRootSq_coprime {g p : ℕ} (h : IsRootSq g p) : g.Coprime (p^2) := by
  have hp := h.prime
  have : Fact p.Prime := ⟨hp⟩
  have hp2 := h.two_lt
  apply Nat.Coprime.pow_right
  apply Nat.Coprime.symm
  rw [hp.coprime_iff_not_dvd]
  intro hd
  have hz : (g : ZMod p) = 0 := (ZMod.natCast_eq_zero_iff g p).mpr hd
  have hone : (g : ZMod p)^(p-1) = 1 := by rw [← h.order]; exact pow_orderOf_eq_one _
  rw [hz, zero_pow (by omega)] at hone
  exact zero_ne_one hone

/-- The order of `g` modulo `p²` is the full `p(p-1)`. -/
theorem isRootSq_orderOf {g p : ℕ} (h : IsRootSq g p) (hc : g.Coprime (p^2)) :
    orderOf (ZMod.unitOfCoprime g hc) = p*(p-1) := by
  have hp := h.prime
  have : Fact p.Prime := ⟨hp⟩
  have : NeZero (p^2) := ⟨pow_ne_zero 2 hp.ne_zero⟩
  set u := ZMod.unitOfCoprime g hc with hu
  have hval : ((u : (ZMod (p^2))ˣ) : ZMod (p^2)) = g := ZMod.coe_unitOfCoprime g hc
  have hcard : orderOf u ∣ (p-1)*p := by
    have hd : orderOf u ∣ Nat.totient (p^2) := orderOf_dvd_of_pow_eq_one (ZMod.pow_totient u)
    rwa [Nat.totient_prime_pow hp (by omega), pow_one, mul_comm] at hd
  have hlow : p-1 ∣ orderOf u := by
    rw [← h.order]
    apply orderOf_dvd_of_pow_eq_one
    have hone : (g : ZMod (p^2))^(orderOf u) = 1 := by
      have := congrArg Units.val (pow_orderOf_eq_one u)
      simpa only [Units.val_pow_eq_pow_val, hval, Units.val_one] using this
    have hcast := congrArg (ZMod.castHom (dvd_pow_self p two_ne_zero) (ZMod p)) hone
    simpa only [map_pow, map_natCast, map_one] using hcast
  obtain ⟨k,hk⟩ := hlow
  have hp1 : 0 < p-1 := by have := hp.two_le; omega
  have hkp : k ∣ p := by
    rw [hk] at hcard
    exact Nat.dvd_of_mul_dvd_mul_left hp1 hcard
  rcases (Nat.dvd_prime hp).mp hkp with hk1 | hkp
  · exfalso
    apply h.not_wieferich
    have := congrArg Units.val (pow_orderOf_eq_one u)
    rw [hk, hk1, mul_one] at this
    simpa only [Units.val_pow_eq_pow_val, hval, Units.val_one] using this
  · rw [hk, hkp, mul_comm]

/-- Every unit modulo `p²` is a power of `g` below the group order. -/
theorem isRootSq_exists_pow {g p : ℕ} (h : IsRootSq g p) (hc : g.Coprime (p^2))
    (v : (ZMod (p^2))ˣ) : ∃ j < p*(p-1), (g : ZMod (p^2))^j = v := by
  have hp := h.prime
  have : NeZero (p^2) := ⟨pow_ne_zero 2 hp.ne_zero⟩
  set u := ZMod.unitOfCoprime g hc with hu
  have hord : orderOf u = p*(p-1) := isRootSq_orderOf h hc
  have htop : Subgroup.zpowers u = ⊤ := by
    apply Subgroup.eq_top_of_card_eq
    rw [Nat.card_zpowers, hord, Nat.card_eq_fintype_card, ZMod.card_units_eq_totient,
      Nat.totient_prime_pow hp (by omega), pow_one]
  have hmem : v ∈ Subgroup.zpowers u := by rw [htop]; exact Subgroup.mem_top v
  rw [mem_zpowers_iff_mem_range_orderOf, Finset.mem_image] at hmem
  obtain ⟨j,hj,hjv⟩ := hmem
  refine ⟨j, by simpa only [Finset.mem_range, hord] using hj, ?_⟩
  have := congrArg Units.val hjv
  simpa only [Units.val_pow_eq_pow_val, hu, ZMod.coe_unitOfCoprime] using this

/-- The progression `g^j * m` meets the unit `s` modulo `p²` when `p ∤ m`. -/
theorem isRootSq_hits {g p : ℕ} (h : IsRootSq g p) (hc : g.Coprime (p^2)) (m : ℕ)
    (hm : ¬ p ∣ m) (s : (ZMod (p^2))ˣ) :
    ∃ j < p*(p-1), ((g^j*m : ℕ) : ZMod (p^2)) = s := by
  have hmc : m.Coprime (p^2) := by
    apply Nat.Coprime.pow_right
    exact ((h.prime.coprime_iff_not_dvd).mpr hm).symm
  obtain ⟨j,hj,hv⟩ := isRootSq_exists_pow h hc (s*(ZMod.unitOfCoprime m hmc)⁻¹)
  refine ⟨j, hj, ?_⟩
  have hmv : (m : ZMod (p^2)) = (ZMod.unitOfCoprime m hmc : (ZMod (p^2))ˣ) :=
    (ZMod.coe_unitOfCoprime m hmc).symm
  rw [Nat.cast_mul, Nat.cast_pow, hv, hmv, Units.val_mul, mul_assoc, ← Units.val_mul,
    inv_mul_cancel, Units.val_one, mul_one]

/-- A multiple of `p²` is not a Fermat pseudoprime to base `g`: an exponent
`n-1` prime to `p` would force the Wieferich congruence. -/
theorem not_fermat_of_sq_dvd {g p n : ℕ} (h : IsRootSq g p) (hc : g.Coprime (p^2))
    (hn : 0 < n) (hd : p^2 ∣ n) : ¬ g^(n-1) ≡ 1 [MOD n] := by
  intro hf
  have hp := h.prime
  set u := ZMod.unitOfCoprime g hc with hu
  have hz : (g : ZMod (p^2))^(n-1) = 1 := by
    have := (ZMod.natCast_eq_natCast_iff _ _ _).mpr (hf.of_dvd hd)
    simpa only [Nat.cast_pow, Nat.cast_one] using this
  have hone : u^(n-1) = 1 := by
    apply Units.ext
    rw [Units.val_pow_eq_pow_val, hu, ZMod.coe_unitOfCoprime, hz, Units.val_one]
  have hord : p*(p-1) ∣ n-1 := by
    rw [← isRootSq_orderOf h hc]
    exact orderOf_dvd_of_pow_eq_one hone
  have hpn1 : p ∣ n-1 := (dvd_mul_right p (p-1)).trans hord
  have hpn : p ∣ n := (dvd_pow_self p two_ne_zero).trans hd
  have hp1 : p ∣ 1 := by
    have := (Nat.dvd_sub hpn hpn1)
    rwa [Nat.sub_sub_self hn] at this
  exact hp.one_lt.ne' (Nat.dvd_one.mp hp1)

/-- Distinct primes cannot all divide a number below their product. -/
theorem exists_not_dvd_of_lt_prod (ps : Finset ℕ) (hps : ∀ p ∈ ps, p.Prime) (m : ℕ)
    (hm : 0 < m) (hlt : m < ∏ p ∈ ps, p) : ∃ p ∈ ps, ¬ p ∣ m := by
  by_contra hall
  push Not at hall
  have hd : ∏ p ∈ ps, p ∣ m :=
    Finset.prod_primes_dvd m (fun p hp => (hps p hp).prime) hall
  exact absurd (Nat.le_of_dvd hm hd) (by omega)

/-- Primality by trial division, for numbers below `b²`. -/
def trialPrime (b q : ℕ) : Bool :=
  decide (2 ≤ q) && decide (q < b*b) &&
    (List.range b).all fun d => decide (d < 2) || decide (q ≤ d) || q % d != 0

theorem prime_of_trialPrime {b q : ℕ} (h : trialPrime b q = true) : q.Prime := by
  simp only [trialPrime, Bool.and_eq_true, Bool.or_eq_true, decide_eq_true_eq, List.all_eq_true,
    List.mem_range, bne_iff_ne, ne_eq] at h
  obtain ⟨⟨hq2,hqb⟩,hall⟩ := h
  by_contra hn
  have hsq : q.minFac*q.minFac ≤ q := by
    have := Nat.minFac_sq_le_self (by omega) hn
    rwa [pow_two] at this
  have hlt : q.minFac < b := by
    by_contra hb
    have : b*b ≤ q.minFac*q.minFac := Nat.mul_le_mul (by omega) (by omega)
    omega
  have hmin2 := (Nat.minFac_prime (show q ≠ 1 by omega)).two_le
  rcases hall q.minFac hlt with (h2 | hle) | hmod
  · omega
  · nlinarith
  · exact hmod (Nat.mod_eq_zero_of_dvd (Nat.minFac_dvd q))

/-- A Pratt-style certificate: `p` with the prime divisors `qs` of `p-1`. -/
def rootCert (g b p : ℕ) (qs : List ℕ) : Bool :=
  decide (2 < p) && g^(p-1) % p == 1 && g^(p-1) % p^2 != 1 &&
    qs.prod^(p.log2+1) % (p-1) == 0 &&
    qs.all fun q => trialPrime b q && g^((p-1)/q) % p != 1

theorem zmod_pow_eq_one_iff {n : ℕ} (hn : 1 < n) (g k : ℕ) :
    (g : ZMod n)^k = 1 ↔ g^k % n = 1 := by
  rw [← Nat.cast_pow, ← Nat.cast_one, ZMod.natCast_eq_natCast_iff', Nat.mod_eq_of_lt hn]

theorem isRootSq_of_rootCert {g b p : ℕ} {qs : List ℕ} (h : rootCert g b p qs = true) :
    IsRootSq g p := by
  simp only [rootCert, Bool.and_eq_true, decide_eq_true_eq, beq_iff_eq, bne_iff_ne, ne_eq,
    List.all_eq_true] at h
  obtain ⟨⟨⟨⟨hp2,hone⟩,hw⟩,hprod⟩,hqs⟩ := h
  have hp1 : 1 < p := by omega
  have hpow : (g : ZMod p)^(p-1) = 1 := (zmod_pow_eq_one_iff hp1 g _).mpr hone
  have hdiv (q : ℕ) (hq : q.Prime) (hd : q ∣ p-1) : (g : ZMod p)^((p-1)/q) ≠ 1 := by
    have hdp : q ∣ qs.prod^(p.log2+1) := hd.trans (Nat.dvd_of_mod_eq_zero hprod)
    obtain ⟨r,hr,hqr⟩ := (hq.prime.dvd_prod_iff).mp (hq.dvd_of_dvd_pow hdp)
    have hrp : r.Prime := prime_of_trialPrime (hqs r hr).1
    rw [(Nat.prime_dvd_prime_iff_eq hq hrp).mp hqr, Ne, zmod_pow_eq_one_iff hp1]
    exact (hqs r hr).2
  refine ⟨lucas_primality p (g : ZMod p) hpow hdiv, hp2, ?_, ?_⟩
  · exact orderOf_eq_of_pow_and_pow_div_prime (by omega) hpow hdiv
  · have hsq : 1 < p^2 := by nlinarith
    rw [Ne, zmod_pow_eq_one_iff hsq]
    exact hw

end Candypool.Lib
