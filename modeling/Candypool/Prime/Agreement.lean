import Candypool.Prime.Chain

/-! Along a chain that started at an odd number the Euler-Lagrange-Lifchitz test refines
the Fermat test, and a member that fails Fermat is given the same fraction by both. -/
namespace Candypool.Prime

/-- The residue class of the members after the first of a chain of either kind. -/
def ChainClass (fSophieGermain : Bool) (n : ℤ) : Prop :=
  if fSophieGermain then n % 4 = 3 else n % 4 = 1

/-- Outside its residue class the Euler-Lagrange-Lifchitz test does not accept. -/
theorem ell_passed_class {n : ℤ} (hn : 0 ≤ n) {fSophieGermain : Bool} {nLength : BitVec 32}
    (h : (eulerLagrangeLifchitzPrimalityTest n fSophieGermain nLength).passed = true) :
    ChainClass fSophieGermain n := by
  have hmod : bnMod n 8 = n % 8 := Int.tmod_eq_emod_of_nonneg hn
  by_contra hcls
  cases fSophieGermain with
  | false =>
    have h5 : ¬ n % 8 = 5 := fun h8 => hcls (by simp only [ChainClass, Bool.false_eq_true, if_false]; omega)
    have h1 : ¬ n % 8 = 1 := fun h8 => hcls (by simp only [ChainClass, Bool.false_eq_true, if_false]; omega)
    simp [eulerLagrangeLifchitzPrimalityTest, hmod, h5, h1] at h
  | true =>
    have h7 : ¬ n % 8 = 7 := fun h8 => hcls (by simp only [ChainClass, if_true]; omega)
    have h3 : ¬ n % 8 = 3 := fun h8 => hcls (by simp only [ChainClass, if_true]; omega)
    simp [eulerLagrangeLifchitzPrimalityTest, hmod, h7, h3] at h

section Member
variable {n : ℤ} (hn : 3 ≤ n) {fSophieGermain : Bool} (hcls : ChainClass fSophieGermain n)
include hn hcls

/-- The natural number behind a chain member, with the facts the tests are stated for. -/
theorem chainClass_nat : ∃ m : ℕ, n = m ∧ 3 ≤ m ∧ m % 2 = 1 ∧
    (if fSophieGermain then m % 4 = 3 else m % 4 = 1) := by
  refine ⟨n.toNat, by omega, by omega, ?_⟩
  cases fSophieGermain <;>
    simp only [ChainClass, Bool.false_eq_true, if_true, if_false] at hcls ⊢ <;> omega

theorem ell_error_none (nLength : BitVec 32) :
    (eulerLagrangeLifchitzPrimalityTest n fSophieGermain nLength).error = none := by
  obtain ⟨m,rfl,hm,hodd,hc⟩ := chainClass_nat hn hcls
  rw [ell_eq hodd hm fSophieGermain hc]
  split_ifs
  · rfl
  · exact failedMember_error m _ (fermat_remainder_pos hodd hm) (Nat.mod_lt _ (by omega)).le _

theorem ell_passed_fermat_passed (nLength : BitVec 32)
    (h : (eulerLagrangeLifchitzPrimalityTest n fSophieGermain nLength).passed = true) :
    (fermatProbablePrimalityTest n nLength).passed = true := by
  obtain ⟨m,rfl,hm,hodd,hc⟩ := chainClass_nat hn hcls
  rw [ell_eq hodd hm fSophieGermain hc] at h
  rw [fermat_passed_iff m (by omega)]
  split_ifs at h with hexp
  · exact ellExpected_fermat hodd hm hexp
  · rw [failedMember_passed] at h
    exact absurd h Bool.false_ne_true

/-- A member that fails Fermat fails both tests, with one and the same length. -/
theorem fermat_failed_ell_eq (nLength : BitVec 32)
    (h : (fermatProbablePrimalityTest n nLength).passed = false) :
    eulerLagrangeLifchitzPrimalityTest n fSophieGermain nLength =
      fermatProbablePrimalityTest n nLength := by
  obtain ⟨m,rfl,hm,hodd,hc⟩ := chainClass_nat hn hcls
  have hf : ¬ 2^(m-1) % m = 1 := by
    rw [← fermat_passed_iff m (by omega) nLength, h]
    exact Bool.false_ne_true
  have hexp : ¬ ellExpected m := fun he => hf (ellExpected_fermat hodd hm he)
  rw [ell_eq hodd hm fSophieGermain hc, if_neg hexp, fermat_eq m (by omega), if_neg hf]

theorem prime_passes_both (hp : n.toNat.Prime) (nLength : BitVec 32) :
    (fermatProbablePrimalityTest n nLength).passed = true ∧
      (eulerLagrangeLifchitzPrimalityTest n fSophieGermain nLength).passed = true := by
  obtain ⟨m,rfl,hm,hodd,hc⟩ := chainClass_nat hn hcls
  rw [Int.toNat_natCast] at hp
  refine ⟨(fermat_passed_iff m (by omega) nLength).mpr (prime_fermat hodd hm hp), ?_⟩
  rw [ell_eq hodd hm fSophieGermain hc, if_pos (prime_ellExpected hodd hm hp)]

end Member

section Chain
variable {fSophieGermain : Bool} {origin : ℤ} (horigin : 2 ≤ origin)
include horigin

theorem chainMember_pos (fSophieGermain : Bool) (j : ℕ) : 1 ≤ chainMember fSophieGermain origin j := by
  have hpow : (1 : ℤ) ≤ 2^j := one_le_pow₀ (by norm_num)
  have hmul : 2 ≤ 2^j*origin := by nlinarith
  cases fSophieGermain <;> simp only [chainMember, Bool.false_eq_true, if_true, if_false] <;> omega

/-- Only an odd number from 3 on passes the first test. -/
theorem first_passed_odd {nLength : BitVec 32}
    (h : (fermatProbablePrimalityTest (chainMember fSophieGermain origin 0) nLength).passed =
      true) : chainMember fSophieGermain origin 0 % 2 = 1 ∧
      3 ≤ chainMember fSophieGermain origin 0 := by
  have hpos := chainMember_pos horigin fSophieGermain 0
  obtain ⟨m,hm⟩ := Int.eq_ofNat_of_zero_le (show 0 ≤ chainMember fSophieGermain origin 0 by omega)
  rw [hm] at h hpos ⊢
  have hm1 : 1 < m := by
    by_contra hle
    have hm1 : m = 1 := by omega
    rw [hm1, fermat_passed_iff 1 (by omega)] at h
    norm_num at h
  have hodd : m % 2 = 1 := by
    by_contra heven
    rw [fermat_even_fails m (by omega) (by omega)] at h
    exact Bool.false_ne_true h
  constructor <;> omega

/-- After an odd first member every member is in the class of its kind. -/
theorem chainMember_class (hodd : chainMember fSophieGermain origin 0 % 2 = 1) (j : ℕ) :
    3 ≤ chainMember fSophieGermain origin (j+1) ∧
      ChainClass fSophieGermain (chainMember fSophieGermain origin (j+1)) := by
  have hpow : (1 : ℤ) ≤ 2^j := one_le_pow₀ (by norm_num)
  obtain ⟨k,hk⟩ : ∃ k, origin = 2*k := by
    refine ⟨origin/2, ?_⟩
    cases fSophieGermain <;>
      simp only [chainMember, pow_zero, one_mul, Bool.false_eq_true, if_true, if_false] at hodd <;>
      omega
  have hfour : 2^(j+1)*origin = 4*(2^j*k) := by
    rw [hk, pow_succ]
    ring
  have hge : 1 ≤ 2^j*k := by nlinarith
  cases fSophieGermain <;>
    simp only [ChainClass, chainMember, hfour, Bool.false_eq_true, if_true, if_false] <;> omega

theorem chainMember_succ_ge (fSophieGermain : Bool) (j : ℕ) :
    3 ≤ chainMember fSophieGermain origin (j+1) := by
  have hpow : (2 : ℤ) ≤ 2^(j+1) := by
    rw [pow_succ]
    have : (1 : ℤ) ≤ 2^j := one_le_pow₀ (by norm_num)
    omega
  have hmul : 4 ≤ 2^(j+1)*origin := by nlinarith
  cases fSophieGermain <;> simp only [chainMember, Bool.false_eq_true, if_true, if_false] <;> omega

/-- A member that passes its test is a base-2 Fermat probable prime, whichever test it is. -/
theorem chainTest_passed_fermat {fFermatTest : Bool} {j : ℕ}
    (h : (chainTest fSophieGermain fFermatTest origin j 0).passed = true) :
    (fermatProbablePrimalityTest (chainMember fSophieGermain origin j) 0).passed = true := by
  cases j with
  | zero => exact h
  | succ j =>
    rw [← chainTest_succ] at h
    cases fFermatTest with
    | true => exact h
    | false =>
      have hge := chainMember_succ_ge horigin fSophieGermain j
      exact ell_passed_fermat_passed hge (ell_passed_class (by omega) h) 0 h

/-- A member that passes Fermat and fails the Euler-Lagrange-Lifchitz test is the only
way for the two chain lengths to differ. -/
theorem breakLength_eq_of_no_split
    (hsplit : ∀ j, 0 < j →
      (fermatProbablePrimalityTest (chainMember fSophieGermain origin j) 0).passed = true →
      (eulerLagrangeLifchitzPrimalityTest (chainMember fSophieGermain origin j) fSophieGermain
        0).passed = true) {j j' : ℕ}
    (hj : BreaksAt fSophieGermain false origin j) (hj' : BreaksAt fSophieGermain true origin j') :
    breakLength fSophieGermain false origin j = breakLength fSophieGermain true origin j' := by
  by_cases h0 : (chainTest fSophieGermain false origin 0 0).passed = true
  · have hodd := (first_passed_odd horigin h0).1
    have hiff (i : ℕ) : (chainTest fSophieGermain false origin i 0).passed = true ↔
        (chainTest fSophieGermain true origin i 0).passed = true := by
      cases i with
      | zero => rfl
      | succ i =>
        rw [← chainTest_succ, ← chainTest_succ]
        obtain ⟨hge,hcls⟩ := chainMember_class horigin hodd i
        exact ⟨ell_passed_fermat_passed hge hcls 0, hsplit (i+1) (Nat.succ_pos i)⟩
    have hjj : j = j' := by
      apply breaksAt_unique fSophieGermain true origin _ hj'
      refine ⟨fun i hi => (hiff i).mp (hj.1 i hi), ?_⟩
      have hne := (hiff j).not.mp (by rw [hj.2]; exact Bool.false_ne_true)
      simpa using hne
    subst hjj
    cases j with
    | zero => rfl
    | succ i =>
      obtain ⟨hge,hcls⟩ := chainMember_class horigin hodd i
      have hfail := hj'.2
      rw [← chainTest_succ, memberTest_passed_indep _ _ _ _ (BitVec.ofNat 32 ((i+1)*2^24))] at hfail
      rw [breakLength, breakLength, ← chainTest_succ, ← chainTest_succ]
      exact congrArg MemberTest.nLength (fermat_failed_ell_eq hge hcls _ hfail)
  · have hf : (chainTest fSophieGermain false origin 0 0).passed = false := by simpa using h0
    have hz : BreaksAt fSophieGermain false origin 0 := ⟨fun i hi => absurd hi (by omega), hf⟩
    have hz' : BreaksAt fSophieGermain true origin 0 := ⟨fun i hi => absurd hi (by omega), hf⟩
    rw [breaksAt_unique _ _ _ hj hz, breaksAt_unique _ _ _ hj' hz']
    rfl

theorem prime_member_passes (fFermatTest : Bool) (h2 : chainMember fSophieGermain origin 0 ≠ 2)
    (h0 : (chainMember fSophieGermain origin 0).toNat.Prime) {i : ℕ}
    (hi : (chainMember fSophieGermain origin i).toNat.Prime) :
    (chainTest fSophieGermain fFermatTest origin i 0).passed = true := by
  have hpos := chainMember_pos horigin fSophieGermain 0
  obtain ⟨m,hm⟩ := Int.eq_ofNat_of_zero_le (show 0 ≤ chainMember fSophieGermain origin 0 by omega)
  have hm2 : m ≠ 2 := by rintro rfl; exact h2 hm
  rw [hm, Int.toNat_natCast] at h0
  have hodd : m % 2 = 1 := (h0.eq_two_or_odd).resolve_left hm2
  have hm3 : 3 ≤ m := by have := h0.two_le; omega
  cases i with
  | zero =>
    change (fermatProbablePrimalityTest (chainMember fSophieGermain origin 0) 0).passed = true
    rw [hm, fermat_passed_iff m (by omega)]
    exact prime_fermat hodd hm3 h0
  | succ i =>
    obtain ⟨hge,hcls⟩ := chainMember_class horigin
      (show chainMember fSophieGermain origin 0 % 2 = 1 by rw [hm]; omega) i
    rw [← chainTest_succ]
    cases fFermatTest with
    | true => exact (prime_passes_both hge hcls hi 0).1
    | false => exact (prime_passes_both hge hcls hi 0).2

/-- Genuine odd primes are never where a chain breaks. -/
theorem prime_chain_not_broken {fFermatTest : Bool} (h2 : chainMember fSophieGermain origin 0 ≠ 2)
    {j k : ℕ} (hprime : ∀ i < k, (chainMember fSophieGermain origin i).toNat.Prime)
    (hj : BreaksAt fSophieGermain fFermatTest origin j) : k ≤ j := by
  by_contra hlt
  have hpass := prime_member_passes horigin fFermatTest h2
    (hprime 0 (by omega)) (hprime j (by omega))
  rw [hj.2] at hpass
  exact Bool.false_ne_true hpass

end Chain

/-- The two member tests agree along a chain: on the members after an odd first one the
Euler-Lagrange-Lifchitz test takes no error branch, accepts only what Fermat accepts, gives
what Fermat rejects the same length, and both accept primes. So the two chain lengths differ
only through a member that passes Fermat alone, and a chain of `k` odd primes is incremented
at least `k` times by both tests. -/
theorem member_tests_agree_along_chain :
    (∀ (n : ℤ) (fSophieGermain : Bool) (nLength : BitVec 32), 3 ≤ n →
      (if fSophieGermain then n % 4 = 3 else n % 4 = 1) →
      (eulerLagrangeLifchitzPrimalityTest n fSophieGermain nLength).error = none ∧
      ((eulerLagrangeLifchitzPrimalityTest n fSophieGermain nLength).passed = true →
        (fermatProbablePrimalityTest n nLength).passed = true) ∧
      ((fermatProbablePrimalityTest n nLength).passed = false →
        (eulerLagrangeLifchitzPrimalityTest n fSophieGermain nLength).passed = false ∧
        (eulerLagrangeLifchitzPrimalityTest n fSophieGermain nLength).nLength =
          (fermatProbablePrimalityTest n nLength).nLength) ∧
      (n.toNat.Prime → (fermatProbablePrimalityTest n nLength).passed = true ∧
        (eulerLagrangeLifchitzPrimalityTest n fSophieGermain nLength).passed = true)) ∧
    (∀ (origin : ℤ) (fSophieGermain : Bool), 2 ≤ origin →
      (∀ (fuel fuel' : ℕ) (r r' : Bool × BitVec 32),
        probableCunninghamChainTest fuel (chainMember fSophieGermain origin 0) fSophieGermain
          false = some r →
        probableCunninghamChainTest fuel' (chainMember fSophieGermain origin 0) fSophieGermain
          true = some r' → r.2 ≠ r'.2 →
        ∃ j, 0 < j ∧
          (fermatProbablePrimalityTest (chainMember fSophieGermain origin j) 0).passed = true ∧
          (eulerLagrangeLifchitzPrimalityTest (chainMember fSophieGermain origin j)
            fSophieGermain 0).passed = false) ∧
      (∀ (fFermatTest : Bool) (k fuel : ℕ) (r : Bool × BitVec 32),
        chainMember fSophieGermain origin 0 ≠ 2 →
        (∀ i < k, (chainMember fSophieGermain origin i).toNat.Prime) →
        probableCunninghamChainTest fuel (chainMember fSophieGermain origin 0) fSophieGermain
          fFermatTest = some r →
        ∃ j, k ≤ j ∧ BreaksAt fSophieGermain fFermatTest origin j ∧
          (targetGetLength r.2).toNat = j % 256)) := by
  refine ⟨fun n fSophieGermain nLength hn hcls => ?_, fun origin fSophieGermain ho => ⟨?_,?_⟩⟩
  · refine ⟨ell_error_none hn hcls nLength, ell_passed_fermat_passed hn hcls nLength, ?_,
      fun hp => prime_passes_both hn hcls hp nLength⟩
    intro hf
    rw [fermat_failed_ell_eq hn hcls nLength hf]
    exact ⟨hf,rfl⟩
  · rintro fuel fuel' ⟨b,L⟩ ⟨b',L'⟩ hr hr' hne
    obtain ⟨j,-,hj,hL,-⟩ := (probableCunninghamChainTest_eq_some_iff _ _ _ _ _ _).mp hr
    obtain ⟨j',-,hj',hL',-⟩ := (probableCunninghamChainTest_eq_some_iff _ _ _ _ _ _).mp hr'
    by_contra hno
    push Not at hno
    apply hne
    change L = L'
    rw [hL, hL']
    apply breakLength_eq_of_no_split ho _ hj hj'
    intro i hi hf
    simpa using hno i hi hf
  · rintro fFermatTest k fuel ⟨b,L⟩ h2 hprime hr
    obtain ⟨j,-,hj,hL,-⟩ := (probableCunninghamChainTest_eq_some_iff _ _ _ _ _ _).mp hr
    refine ⟨j, prime_chain_not_broken ho h2 hprime hj, hj, ?_⟩
    change (targetGetLength L).toNat = _
    rw [targetGetLength_toNat, hL, breakLength_div]

/-- The chain 2731, 5461, .. of the second kind: 5461 passes Fermat alone, so that the two
lengths differ, and the primes 5, 11, 23, 47 are counted by both tests. -/
theorem member_tests_agree_along_chain_examples :
    (eulerLagrangeLifchitzPrimalityTest 11 true 0).error = none ∧
    (∃ j, 0 < j ∧ (fermatProbablePrimalityTest (chainMember false 2730 j) 0).passed = true ∧
      (eulerLagrangeLifchitzPrimalityTest (chainMember false 2730 j) false 0).passed = false) ∧
    (∃ j, 4 ≤ j ∧ BreaksAt true false 6 j ∧
      (targetGetLength (74349557#32)).toNat = j % 256) := by
  refine ⟨(member_tests_agree_along_chain.1 11 true 0 (by decide) (by decide)).1, ?_, ?_⟩
  · exact (member_tests_agree_along_chain.2 2730 false (by decide)).1 3 3
      (false,33551359#32) (true,34957014#32) (by decide +kernel) (by decide +kernel) (by decide)
  · refine (member_tests_agree_along_chain.2 6 true (by decide)).2 false 4 5
      (true,74349557#32) (by decide) ?_ (by decide +kernel)
    decide +kernel

/-- The chain 2, 5, 11, 23, 47 consists of primes, but 2 fails the Fermat test to base 2:
both tests report length zero. -/
theorem prime_chain_from_two_not_counted :
    (∀ i < 5, (chainMember true 3 i).toNat.Prime) ∧
    probableCunninghamChainTest 0 (chainMember true 3 0) true false = some (false,0) ∧
    probableCunninghamChainTest 0 (chainMember true 3 0) true true = some (false,0) := by
  decide +kernel

end Candypool.Prime
