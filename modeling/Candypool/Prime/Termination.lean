import Candypool.Prime.Agreement
import Candypool.Prime.RootPrimes

/-! The chain loops end. Some prime `p` of the table does not divide the origin, `2` generates
the units modulo `p²`, so that a member of the chain is divisible by `p²`, and such a member
fails the Fermat test. -/
namespace Candypool.Prime
open Candypool.Lib

theorem exists_rootPrime_not_dvd (m : ℕ) (hm : 0 < m) (hmax : m < 2^2000) :
    ∃ p, IsRootSq 2 p ∧ ¬ p ∣ m ∧ p*(p-1) < 2^24 := by
  have hcert := List.all_eq_true.mp rootPrimes_certified
  have hprime : ∀ p ∈ (rootPrimes.map Prod.fst).toFinset, p.Prime := by
    intro p hp
    obtain ⟨c,hc,rfl⟩ := List.mem_map.mp (List.mem_toFinset.mp hp)
    exact (isRootSq_of_rootCert (hcert c hc)).prime
  have hprod : m < ∏ p ∈ (rootPrimes.map Prod.fst).toFinset, p := by
    rw [List.prod_toFinset _ rootPrimes_nodup, List.map_id']
    exact hmax.trans rootPrimes_prod
  obtain ⟨p,hp,hd⟩ := exists_not_dvd_of_lt_prod _ hprime m hm hprod
  obtain ⟨c,hc,rfl⟩ := List.mem_map.mp (List.mem_toFinset.mp hp)
  have hbound := List.all_eq_true.mp rootPrimes_bound c hc
  exact ⟨c.1, isRootSq_of_rootCert (hcert c hc), hd, by simpa using hbound⟩

/-- Every chain from an origin up to `bnPrimeMax` has a member that fails the Fermat test. -/
theorem exists_member_failing_fermat (fSophieGermain : Bool) (origin : ℤ) (hmin : 2 ≤ origin)
    (hmax : origin ≤ 2^2000-1) :
    ∃ j < 2^24,
      (fermatProbablePrimalityTest (chainMember fSophieGermain origin j) 0).passed = false := by
  obtain ⟨m,rfl⟩ := Int.eq_ofNat_of_zero_le (show 0 ≤ origin by omega)
  have hm : m < 2^2000 := by
    have hlt : (m : ℤ) < (2 : ℤ)^2000 := Int.lt_of_le_sub_one hmax
    exact_mod_cast hlt
  obtain ⟨p,hroot,hd,hbound⟩ := exists_rootPrime_not_dvd m (by omega) hm
  have hc := isRootSq_coprime hroot
  obtain ⟨j,hj,hs⟩ := isRootSq_hits hroot hc m hd (if fSophieGermain then 1 else -1)
  refine ⟨j, hj.trans hbound, ?_⟩
  have hpos := chainMember_pos hmin fSophieGermain j
  obtain ⟨n,hn⟩ := Int.eq_ofNat_of_zero_le
    (show 0 ≤ chainMember fSophieGermain (m : ℤ) j by omega)
  have hsq : p^2 ∣ n := by
    rw [← ZMod.natCast_eq_zero_iff]
    have hcast := congrArg (Int.cast : ℤ → ZMod (p^2)) hn
    rw [Int.cast_natCast] at hcast
    rw [← hcast, chainMember]
    push_cast at hs ⊢
    rw [hs]
    cases fSophieGermain <;> simp
  rw [hn, ← Bool.not_eq_true, fermat_passed_iff n (by omega)]
  intro hf
  apply not_fermat_of_sq_dvd hroot hc (by omega) hsq
  have hn1 : 1 < n := by
    by_contra hle
    rw [show n = 1 by omega] at hf
    norm_num at hf
  rw [Nat.ModEq, hf, Nat.mod_eq_of_lt hn1]

theorem chainTest_failed_of_fermat_failed {fSophieGermain : Bool} (fFermatTest : Bool)
    {origin : ℤ} (ho : 2 ≤ origin) {j : ℕ}
    (hf : (fermatProbablePrimalityTest (chainMember fSophieGermain origin j) 0).passed = false) :
    (chainTest fSophieGermain fFermatTest origin j 0).passed = false := by
  by_contra hp
  rw [Bool.not_eq_false] at hp
  rw [chainTest_passed_fermat ho hp] at hf
  exact Bool.noConfusion hf

/-- Hence every chain breaks, in both modes. -/
theorem exists_breaksAt (fSophieGermain fFermatTest : Bool) (origin : ℤ) (hmin : 2 ≤ origin)
    (hmax : origin ≤ 2^2000-1) :
    ∃ j < 2^24, BreaksAt fSophieGermain fFermatTest origin j := by
  obtain ⟨j,hj,hf⟩ := exists_member_failing_fermat fSophieGermain origin hmin hmax
  have hfail := chainTest_failed_of_fermat_failed fFermatTest hmin hf
  have hex : ∃ i, (chainTest fSophieGermain fFermatTest origin i 0).passed = false := ⟨j, hfail⟩
  refine ⟨Nat.find hex, ?_, fun i hi => ?_, Nat.find_spec hex⟩
  · exact lt_of_le_of_lt (Nat.find_min' hex hfail) hj
  · exact Bool.not_eq_false _ ▸ Nat.find_min hex hi

theorem probablePrimeChainTest_returns (origin : ℤ) (hmin : 2 ≤ origin) (hmax : origin ≤ 2^2000-1)
    (nBits : BitVec 32) (fFermatTest : Bool) :
    ∃ b lens, probablePrimeChainTest (2^24) origin nBits fFermatTest = some (b,lens) := by
  obtain ⟨j1,hj1,hb1⟩ := exists_breaksAt true fFermatTest origin hmin hmax
  obtain ⟨j2,hj2,hb2⟩ := exists_breaksAt false fFermatTest origin hmin hmax
  let len1 := breakLength true fFermatTest origin j1
  let len2 := breakLength false fFermatTest origin j2
  let lens : ChainLengths := ⟨len1, len2, biTwinLength len1 len2⟩
  refine ⟨lens.meets nBits, lens, ?_⟩
  exact (probablePrimeChainTest_eq_some_iff _ _ _ _ _ _).mpr
    ⟨j1, hj1.le, j2, hj2.le, hb1, hb2, rfl, rfl, rfl, rfl⟩

/-- The chain tests return on every origin the protocol admits, in both modes and for both
kinds, and the member they stop at exists because some member fails the Fermat test, and with
it the Euler-Lagrange-Lifchitz test. -/
theorem cunningham_chain_tests_return (origin : ℤ) (hmin : 2^255 ≤ origin)
    (hmax : origin ≤ 2^2000-1) (fFermatTest : Bool) :
    (∃ r, probableCunninghamChainTest (2^24) (origin-1) true fFermatTest = some r) ∧
    (∃ r, probableCunninghamChainTest (2^24) (origin+1) false fFermatTest = some r) ∧
    ∀ fSophieGermain : Bool, ∃ j < 2^24,
      (fermatProbablePrimalityTest (chainMember fSophieGermain origin j) 0).passed = false ∧
      (0 < j → (eulerLagrangeLifchitzPrimalityTest (chainMember fSophieGermain origin j)
        fSophieGermain 0).passed = false) := by
  have ho : 2 ≤ origin := le_trans (by norm_num) hmin
  have hret (fSophieGermain : Bool) : ∃ r, probableCunninghamChainTest (2^24)
      (chainMember fSophieGermain origin 0) fSophieGermain fFermatTest = some r := by
    obtain ⟨j,hj,hb⟩ := exists_breaksAt fSophieGermain fFermatTest origin ho hmax
    exact ⟨(_,_), (probableCunninghamChainTest_eq_some_iff _ _ _ _ _ _).mpr
      ⟨j, hj.le, hb, rfl, rfl⟩⟩
  refine ⟨?_, ?_, fun fSophieGermain => ?_⟩
  · have h := hret true
    simpa only [chainMember, pow_zero, one_mul, if_true, ← sub_eq_add_neg] using h
  · have h := hret false
    simpa only [chainMember, pow_zero, one_mul, Bool.false_eq_true, if_false] using h
  · obtain ⟨j,hj,hf⟩ := exists_member_failing_fermat fSophieGermain origin ho hmax
    refine ⟨j, hj, hf, fun hj0 => ?_⟩
    have hfail := chainTest_failed_of_fermat_failed false ho hf
    rw [chainTest, if_neg (by omega)] at hfail
    simpa only [memberTest, Bool.false_eq_true, if_false] using hfail

/-- The smallest origin the protocol admits. -/
theorem cunningham_chain_tests_return_min :
    ∃ r, probableCunninghamChainTest (2^24) (2^255-1) true false = some r := by
  have hmax : (2 : ℤ)^255 ≤ 2^2000-1 :=
    Int.le_sub_one_of_lt (pow_lt_pow_right₀ (by norm_num) (by norm_num))
  exact (cunningham_chain_tests_return (2^255) le_rfl hmax false).1

end Candypool.Prime
