import Candypool.Lib.Loop
import Mathlib.NumberTheory.PrimeCounting
import Mathlib.NumberTheory.Chebyshev

/-! The table of small primes and the sieve settings it is generated with. -/
namespace Candypool.Prime
open Candypool.Lib

def nMaxSieveExtensions : ℕ := 20

def nMinSieveExtensions : ℕ := 0

def nDefaultSieveExtensions : ℕ := 9

def nDefaultSieveExtensionsTestnet : ℕ := 4

def nMaxSievePercentage : ℕ := 100

def nDefaultSievePercentage : ℕ := 10

def nMinSievePercentage : ℕ := 1

def nMaxSieveSize : ℕ := 10000000

def nDefaultSieveSize : ℕ := 1000000

def nMinSieveSize : ℕ := 100000

section Settings

/-- The sieve globals, within the limits that their clamping enforces. -/
structure SieveSettings where
  nSieveExtensions : ℕ
  nSievePercentage : ℕ
  nSieveSize : ℕ
  extensions_le : nSieveExtensions ≤ nMaxSieveExtensions
  percentage_mem : nMinSievePercentage ≤ nSievePercentage ∧ nSievePercentage ≤ nMaxSievePercentage
  size_mem : nMinSieveSize ≤ nSieveSize ∧ nSieveSize ≤ nMaxSieveSize

/-- `max(min((unsigned int)GetArg(arg, nDefault), nMax), nMin)` -/
def clampArg (arg : Option ℤ) (nDefault nMin nMax : ℕ) : ℕ :=
  max (min (arg.getD nDefault % 2^32).toNat nMax) nMin

theorem clampArg_mem (arg : Option ℤ) (nDefault : ℕ) {nMin nMax : ℕ} (hle : nMin ≤ nMax) :
    nMin ≤ clampArg arg nDefault nMin nMax ∧ clampArg arg nDefault nMin nMax ≤ nMax := by
  unfold clampArg
  omega

/-- The settings read from `-sieveextensions`, `-sievepercentage` and `-sievesize`. -/
def sieveSettings (fTestNet : Bool) (sieveextensions sievepercentage sievesize : Option ℤ) :
    SieveSettings where
  nSieveExtensions := clampArg sieveextensions
    (if fTestNet then nDefaultSieveExtensionsTestnet else nDefaultSieveExtensions)
    nMinSieveExtensions nMaxSieveExtensions
  nSievePercentage := clampArg sievepercentage nDefaultSievePercentage nMinSievePercentage
    nMaxSievePercentage
  nSieveSize := clampArg sievesize nDefaultSieveSize nMinSieveSize nMaxSieveSize
  extensions_le := (clampArg_mem _ _ (by decide)).2
  percentage_mem := clampArg_mem _ _ (by decide)
  size_mem := clampArg_mem _ _ (by decide)

end Settings

section Generate
variable (nPrimeTableLimit : ℕ)

/-- Marks `nFactor²`, `nFactor² + nFactor`, … as composite. -/
def markMultiples (vfComposite : Array Bool) (nFactor : ℕ) : Array Bool :=
  (strideLoop nFactor nPrimeTableLimit (fun vf nComposite => vf.setIfInBounds nComposite true)
    vfComposite (nFactor*nFactor)).1

def sieveFactors (nFactor : ℕ) (vfComposite : Array Bool) : Array Bool :=
  if nFactor*nFactor < nPrimeTableLimit then
    sieveFactors (nFactor+1)
      (if vfComposite.getD nFactor false then vfComposite
       else markMultiples nPrimeTableLimit vfComposite nFactor)
  else vfComposite
termination_by nPrimeTableLimit-nFactor
decreasing_by
  have := Nat.le_mul_self nFactor
  omega

def collectPrimes (vfComposite : Array Bool) : Array ℕ :=
  rangeLoop never (fun vPrimes n => if vfComposite.getD n false then vPrimes else vPrimes.push n)
    2 nPrimeTableLimit #[]

def generatePrimeTable : Array ℕ :=
  collectPrimes nPrimeTableLimit
    (sieveFactors nPrimeTableLimit 2 (Array.replicate nPrimeTableLimit false))

end Generate

section Correct
variable {nPrimeTableLimit : ℕ}

theorem markMultiples_spec {vf : Array Bool} {nFactor : ℕ} (hpos : 0 < nFactor)
    (hsize : vf.size = nPrimeTableLimit) :
    (markMultiples nPrimeTableLimit vf nFactor).size = nPrimeTableLimit ∧
    ∀ m < nPrimeTableLimit, (markMultiples nPrimeTableLimit vf nFactor).getD m false = true ↔
      vf.getD m false = true ∨ (nFactor*nFactor ≤ m ∧ nFactor ∣ m) := by
  have hsizes : ∀ (t : Array Bool) (u : ℕ), u < nPrimeTableLimit → t.size = nPrimeTableLimit →
      (t.setIfInBounds u true).size = nPrimeTableLimit := by
    intro t u _ ht
    rwa [Array.size_setIfInBounds]
  refine ⟨strideLoop_induct (fun t : Array Bool => t.size = nPrimeTableLimit) hsizes hsize,
    fun m hm => ?_⟩
  have hstep : ∀ (t : Array Bool) (u j : ℕ), u < nPrimeTableLimit → t.size = nPrimeTableLimit →
      ((t.setIfInBounds u true).getD j false = true ↔ t.getD j false = true ∨ j = u) := by
    intro t u j hu ht
    rw [getD_setIfInBounds (by omega)]
    split_ifs with h <;> simp [h]
  refine (strideLoop_marks (fun t : Array Bool => t.size = nPrimeTableLimit)
    (fun t j => t.getD j false = true) hpos hsizes hstep hsize m).trans ?_
  apply or_congr_right
  constructor
  · rintro ⟨hle,-,hdvd⟩
    refine ⟨hle,?_⟩
    have h := Nat.dvd_add hdvd (Nat.dvd_mul_left nFactor nFactor)
    rwa [Nat.sub_add_cancel hle] at h
  · rintro ⟨hle,hdvd⟩
    exact ⟨hle,hm,Nat.dvd_sub hdvd (Nat.dvd_mul_left nFactor nFactor)⟩

/-- Before the turn of `nFactor` exactly the multiples of smaller primes, from their squares on,
are marked. -/
structure Sieved (nPrimeTableLimit nFactor : ℕ) (vf : Array Bool) : Prop where
  size : vf.size = nPrimeTableLimit
  marked : ∀ m < nPrimeTableLimit, vf.getD m false = true ↔
    ∃ q, q.Prime ∧ q < nFactor ∧ q*q ≤ m ∧ q ∣ m

theorem composite_iff {m : ℕ} (hm : 2 ≤ m) :
    ¬ m.Prime ↔ ∃ q, q.Prime ∧ q*q ≤ m ∧ q ∣ m := by
  constructor
  · intro hnot
    refine ⟨m.minFac,Nat.minFac_prime (by omega),?_,Nat.minFac_dvd m⟩
    have h := Nat.minFac_sq_le_self (by omega) hnot
    rwa [pow_two] at h
  · rintro ⟨q,hq,hle,hdvd⟩ hprime
    rcases (Nat.dvd_prime hprime).mp hdvd with h1 | heq
    · exact hq.one_lt.ne' h1
    · subst heq
      have := Nat.mul_le_mul_left q hq.two_le
      omega

theorem Sieved.next {nFactor : ℕ} {vf : Array Bool} (h : Sieved nPrimeTableLimit nFactor vf)
    (htwo : 2 ≤ nFactor) (hlt : nFactor*nFactor < nPrimeTableLimit) :
    Sieved nPrimeTableLimit (nFactor+1)
      (if vf.getD nFactor false then vf else markMultiples nPrimeTableLimit vf nFactor) := by
  have hself := Nat.le_mul_self nFactor
  -- A marked factor is not prime, an unmarked one is: its own divisors had their turn.
  have hmark : vf.getD nFactor false = true ↔ ¬ nFactor.Prime := by
    rw [h.marked nFactor (by omega), composite_iff htwo]
    constructor
    · rintro ⟨q,hq,-,hle,hdvd⟩
      exact ⟨q,hq,hle,hdvd⟩
    · rintro ⟨q,hq,hle,hdvd⟩
      have := Nat.mul_le_mul_left q hq.two_le
      exact ⟨q,hq,by omega,hle,hdvd⟩
  have hsplit : ∀ m, (∃ q, q.Prime ∧ q < nFactor+1 ∧ q*q ≤ m ∧ q ∣ m) ↔
      (∃ q, q.Prime ∧ q < nFactor ∧ q*q ≤ m ∧ q ∣ m) ∨
        (nFactor.Prime ∧ nFactor*nFactor ≤ m ∧ nFactor ∣ m) := by
    intro m
    constructor
    · rintro ⟨q,hq,hqlt,hle,hdvd⟩
      rcases Nat.lt_succ_iff_lt_or_eq.mp hqlt with hq' | rfl
      · exact Or.inl ⟨q,hq,hq',hle,hdvd⟩
      · exact Or.inr ⟨hq,hle,hdvd⟩
    · rintro (⟨q,hq,hqlt,hle,hdvd⟩ | ⟨hq,hle,hdvd⟩)
      · exact ⟨q,hq,by omega,hle,hdvd⟩
      · exact ⟨nFactor,hq,by omega,hle,hdvd⟩
  split_ifs with hcomp
  · refine ⟨h.size,fun m hm => ?_⟩
    rw [h.marked m hm, hsplit m]
    simp [hmark.mp hcomp]
  · have hprime : nFactor.Prime := by
      by_contra hnot
      exact hcomp (hmark.mpr hnot)
    obtain ⟨hsize,hget⟩ := markMultiples_spec hprime.pos h.size
    refine ⟨hsize,fun m hm => ?_⟩
    rw [hget m hm, h.marked m hm, hsplit m]
    simp [hprime]

theorem sieveFactors_spec {nFactor : ℕ} {vf : Array Bool} (h : Sieved nPrimeTableLimit nFactor vf)
    (htwo : 2 ≤ nFactor) {m : ℕ} (hm : m < nPrimeTableLimit) (hm2 : 2 ≤ m) :
    (sieveFactors nPrimeTableLimit nFactor vf).getD m false = true ↔ ¬ m.Prime := by
  induction nFactor, vf using sieveFactors.induct nPrimeTableLimit with
  | case1 nFactor vf hlt ih =>
    rw [sieveFactors, if_pos hlt]
    exact ih (h.next htwo hlt) (by omega)
  | case2 nFactor vf hge =>
    rw [sieveFactors, if_neg hge, h.marked m hm, composite_iff hm2]
    constructor
    · rintro ⟨q,hq,-,hle,hdvd⟩
      exact ⟨q,hq,hle,hdvd⟩
    · rintro ⟨q,hq,hle,hdvd⟩
      refine ⟨q,hq,?_,hle,hdvd⟩
      by_contra hnot
      have := Nat.mul_self_le_mul_self (Nat.le_of_not_lt hnot)
      omega

/-- The table lists the primes below its limit in increasing order. -/
theorem generatePrimeTable_toList (hlimit : 2 ≤ nPrimeTableLimit) :
    (generatePrimeTable nPrimeTableLimit).toList =
      (List.range nPrimeTableLimit).filter fun n => decide n.Prime := by
  have hstart : Sieved nPrimeTableLimit 2 (Array.replicate nPrimeTableLimit false) := by
    refine ⟨Array.size_replicate,fun m hm => ?_⟩
    constructor
    · intro hset
      simp [hm] at hset
    · rintro ⟨q,hq,hlt,-⟩
      exact absurd hq.two_le (by omega)
  refine rangeLoop_induct
    (fun n (vPrimes : Array ℕ) => vPrimes.toList = (List.range n).filter fun n => decide n.Prime)
    hlimit never_eq_false ?_ ?_
  · intro n vPrimes hlo hhi hlist
    have hcomp := sieveFactors_spec hstart le_rfl hhi hlo
    rw [List.range_succ, List.filter_append, ← hlist]
    split_ifs with hset
    · simp [hcomp.mp hset]
    · have hprime : n.Prime := by
        by_contra hnot
        exact hset (hcomp.mpr hnot)
      simp [hprime]
  · simp [List.range_succ, Nat.not_prime_zero, Nat.not_prime_one]

/-- What the users of a prime table rely on. -/
structure IsPrimeTable (nPrimeTableLimit : ℕ) (vPrimes : Array ℕ) : Prop where
  prime : ∀ s < vPrimes.size, (vPrimes.getD s 0).Prime
  lt : ∀ s < vPrimes.size, vPrimes.getD s 0 < nPrimeTableLimit
  two_lt : ∀ s < vPrimes.size, 1 ≤ s → 2 < vPrimes.getD s 0

theorem generatePrimeTable_isPrimeTable (hlimit : 2 ≤ nPrimeTableLimit) :
    IsPrimeTable nPrimeTableLimit (generatePrimeTable nPrimeTableLimit) := by
  have hlist := generatePrimeTable_toList hlimit
  have hmem : ∀ s < (generatePrimeTable nPrimeTableLimit).size,
      (generatePrimeTable nPrimeTableLimit).getD s 0 < nPrimeTableLimit ∧
        ((generatePrimeTable nPrimeTableLimit).getD s 0).Prime := by
    intro s hs
    have hin := Array.getElem_mem_toList hs
    rw [hlist, List.mem_filter, List.mem_range, decide_eq_true_iff,
      Array.getElem_eq_getD 0] at hin
    exact hin
  have hsorted : (generatePrimeTable nPrimeTableLimit).toList.Pairwise (· < ·) := by
    rw [hlist]
    exact List.pairwise_lt_range.filter _
  refine ⟨fun s hs => (hmem s hs).2,fun s hs => (hmem s hs).1,fun s hs hpos => ?_⟩
  have h0 := (hmem 0 (by omega)).2.two_le
  have hlt := List.pairwise_iff_getElem.mp hsorted 0 s (by simpa using by omega) (by simpa using hs)
    hpos
  rw [Array.getElem_toList, Array.getElem_toList, Array.getElem_eq_getD 0,
    Array.getElem_eq_getD 0] at hlt
  omega

/-- The table begins with all primes below `b`. -/
theorem generatePrimeTable_prefix {b : ℕ} (hb : 2 ≤ b) (hlimit : b ≤ nPrimeTableLimit) :
    ∃ rest, (generatePrimeTable nPrimeTableLimit).toList =
      ((List.range b).filter fun n => decide n.Prime)++rest := by
  obtain ⟨c,rfl⟩ := Nat.exists_eq_add_of_le hlimit
  rw [generatePrimeTable_toList (by omega), List.range_add, List.filter_append]
  exact ⟨_,rfl⟩

/-- The entries with a number below the count of the primes below `b` are below `b`. -/
theorem generatePrimeTable_lt {b s : ℕ} (hb : 2 ≤ b) (hlimit : b ≤ nPrimeTableLimit)
    (hs : s < Nat.primeCounting' b) : (generatePrimeTable nPrimeTableLimit).getD s 0 < b := by
  obtain ⟨rest,hlist⟩ := generatePrimeTable_prefix hb hlimit
  have hlen : s < ((List.range b).filter fun n => decide n.Prime).length := by
    rw [Nat.primeCounting', Nat.count_eq_card_filter_range] at hs
    exact hs
  have hget : (generatePrimeTable nPrimeTableLimit).getD s 0 =
      (((List.range b).filter fun n => decide n.Prime)[s]) := by
    rw [Array.getD_eq_getD_getElem?, ← Array.getElem?_toList, hlist,
      List.getElem?_append_left hlen, List.getElem?_eq_getElem hlen, Option.getD_some]
  rw [hget]
  have hmem := List.getElem_mem hlen
  exact List.mem_range.mp (List.mem_filter.mp hmem).1

theorem generatePrimeTable_thirteen (hlimit : 14 ≤ nPrimeTableLimit) :
    (generatePrimeTable nPrimeTableLimit).getD 5 0 = 13 := by
  obtain ⟨rest,hlist⟩ := generatePrimeTable_prefix (by decide : 2 ≤ 14) hlimit
  have hfirst : (List.range 14).filter (fun n => decide n.Prime) = [2,3,5,7,11,13] := by
    decide +kernel
  rw [Array.getD_eq_getD_getElem?, ← Array.getElem?_toList, hlist, hfirst]
  rfl

theorem generatePrimeTable_size (hlimit : 2 ≤ nPrimeTableLimit) :
    (generatePrimeTable nPrimeTableLimit).size = Nat.primeCounting' nPrimeTableLimit := by
  rw [← Array.length_toList, generatePrimeTable_toList hlimit, Nat.primeCounting',
    Nat.count_eq_card_filter_range]
  rfl

/-- A lower bound for the number of primes: the least common multiple of `1, …, n` has no prime
power factor above `n`. -/
theorem le_mul_primeCounting {n b : ℕ} (hn : n+1 ≤ 2^b) : n ≤ b+b*n.primeCounting := by
  have hlcm : n.lcmUpto ≤ (2^b)^n.primeCounting := by
    rcases Nat.eq_zero_or_pos n with rfl | hpos
    · exact Nat.one_le_pow _ _ (Nat.two_pow_pos b)
    rw [Nat.lcmUpto_eq_prod_pow_log, ← Nat.primesLE_card_eq_primeCounting]
    apply Finset.prod_le_pow_card
    intro p _
    exact (Nat.pow_log_le_self p hpos.ne').trans (by omega)
  have hpow : 2^n ≤ 2^(b+b*n.primeCounting) := by
    calc 2^n ≤ (n+1)*n.lcmUpto := Chebyshev.two_pow_le_mul_lcmUpto n
      _ ≤ 2^b*(2^b)^n.primeCounting := Nat.mul_le_mul hn hlcm
      _ = 2^(b+b*n.primeCounting) := by rw [← pow_mul, ← pow_add]
  exact (Nat.pow_le_pow_iff_right Nat.one_lt_two).mp hpow

theorem two_pow_le_primeCounting' (b : ℕ) : 2^b ≤ 1+b+b*Nat.primeCounting' (2^b) := by
  obtain ⟨n,hn⟩ : ∃ n, 2^b = n+1 := ⟨2^b-1,by have := Nat.two_pow_pos b; omega⟩
  have hcount := le_mul_primeCounting hn.ge
  rw [Nat.primeCounting_eq_primeCounting'_succ, ← hn] at hcount
  omega

/-- Every table a sieve is made with has thousands of primes. -/
theorem generatePrimeTable_large (hmin : nMinSieveSize ≤ nPrimeTableLimit)
    (hmax : nPrimeTableLimit ≤ nMaxSieveSize) :
    4000 ≤ (generatePrimeTable nPrimeTableLimit).size := by
  have hmin' : 100000 ≤ nPrimeTableLimit := hmin
  have hmax' : nPrimeTableLimit ≤ 10000000 := hmax
  obtain ⟨n,rfl⟩ : ∃ n, nPrimeTableLimit = n+1 := ⟨nPrimeTableLimit-1,by omega⟩
  have hcount := le_mul_primeCounting (b := 24) (hmax'.trans (by norm_num))
  rw [Nat.primeCounting_eq_primeCounting'_succ, ← generatePrimeTable_size (by omega)] at hcount
  omega

end Correct

end Candypool.Prime
