import Candypool.Prime.PrimeTable
import Mathlib.NumberTheory.Primorial
import Mathlib.Tactic.NormNum.Prime
import Mathlib.Tactic.IntervalCases

/-! The products of the primes of the table and its walks from prime to prime, with the table generated
by the loops as they run on an `unsigned int`. -/
namespace Candypool.Prime
open Candypool.Lib

/-- The value of an unsigned operation of `w` bits; one that wraps has none. -/
def unsigned? (w x : ℕ) : Option ℕ := if x < 2^w then some x else none

theorem unsigned?_eq {w x : ℕ} (h : x < 2^w) : unsigned? w x = some x := if_pos h

section Generate
variable (nPrimeTableLimit : ℕ)

/-- The inner loop; its counter passes the limit by less than one factor. -/
def markMultiples? (nFactor nComposite : ℕ) (vfComposite : Array Bool) : Option (Array Bool) :=
  if 0 < nFactor ∧ nComposite < nPrimeTableLimit then
    if nComposite+nFactor < 2^32 then
      markMultiples? nFactor (nComposite+nFactor) (vfComposite.setIfInBounds nComposite true)
    else none
  else some vfComposite
termination_by nPrimeTableLimit-nComposite

/-- The outer loop, which squares one factor more than it marks. -/
def sieveFactors? (nFactor : ℕ) (vfComposite : Array Bool) : Option (Array Bool) := do
  let nSquare ← unsigned? 32 (nFactor*nFactor)
  if nFactor*nFactor < nPrimeTableLimit then
    if vfComposite.getD nFactor false then sieveFactors? (nFactor+1) vfComposite
    else do
      let vfComposite ← markMultiples? nPrimeTableLimit nFactor nSquare vfComposite
      sieveFactors? (nFactor+1) vfComposite
  else some vfComposite
termination_by nPrimeTableLimit-nFactor
decreasing_by
  all_goals
    have := Nat.le_mul_self nFactor
    omega

def generatePrimeTable? : Option (Array ℕ) := do
  let vfComposite ← sieveFactors? nPrimeTableLimit 2 (Array.replicate nPrimeTableLimit false)
  return collectPrimes nPrimeTableLimit vfComposite

end Generate

section Products
variable (vPrimes : Array ℕ) (p : ℕ)

/-- `for (; i < n; i++) { if (vPrimes[i] > p) break; nPrimorial *= vPrimes[i]; }` with the index it is
left at; `mul?` says what becomes of a product in the type of `nPrimorial`. -/
def primorialLoop (mul? : ℕ → Option ℕ) (n i nPrimorial : ℕ) : Option (ℕ × ℕ) :=
  if i < n then do
    let nPrime ← vPrimes[i]?
    if nPrime > p then some (i,nPrimorial)
    else do
      let nPrimorial ← mul? (nPrimorial*nPrime)
      primorialLoop mul? n (i+1) nPrimorial
  else some (i,nPrimorial)
termination_by n-i

/-- `Primorial`: a fast loop in an `unsigned long` of `w` bits, and one in an `mpz_class` that goes on
where the first was left. -/
def primorial (w : ℕ) : Option ℕ := do
  let (i,nPrimorial) ← primorialLoop vPrimes p (unsigned? w) (if 64 ≤ w then 15 else 9) 0 1
  let (_,mpzPrimorial) ← primorialLoop vPrimes p some vPrimes.size i nPrimorial
  return mpzPrimorial

/-- `PrimorialFast`. -/
def primorialFast : Option ℕ := do
  let (_,nPrimorial) ← primorialLoop vPrimes p (unsigned? 32) vPrimes.size 0 1
  return nPrimorial

end Products

section Neighbours
variable (vPrimes : Array ℕ) (p : ℕ)

/-- `PrimeTableGetNextPrime` with the value it leaves in `p`. -/
def primeTableGetNextPrime : Bool × ℕ :=
  match vPrimes.toList.find? (fun nPrime => nPrime > p) with
  | some nPrime => (true,nPrime)
  | none => (false,p)

/-- The loop of `PrimeTableGetPreviousPrime`. -/
def previousLoop (nPrevPrime : ℕ) : List ℕ → ℕ
  | [] => nPrevPrime
  | nPrime :: rest => if nPrime ≥ p then nPrevPrime else previousLoop nPrime rest

/-- `PrimeTableGetPreviousPrime` with the value it leaves in `p`. -/
def primeTableGetPreviousPrime : Bool × ℕ :=
  let nPrevPrime := previousLoop p 0 vPrimes.toList
  if nPrevPrime ≠ 0 then (true,nPrevPrime) else (false,p)

end Neighbours

section Fits
variable {nPrimeTableLimit : ℕ}

theorem markMultiples?_eq {nFactor nComposite : ℕ} {vf : Array Bool}
    (hroom : nPrimeTableLimit+nFactor ≤ 2^32) :
    markMultiples? nPrimeTableLimit nFactor nComposite vf =
      some (strideLoop nFactor nPrimeTableLimit (fun vf nComposite => vf.setIfInBounds nComposite true)
        vf nComposite).1 := by
  induction nComposite, vf using markMultiples?.induct nPrimeTableLimit nFactor with
  | case1 nComposite vf hlt _ ih =>
    rw [markMultiples?, strideLoop, if_pos hlt, if_pos hlt, if_pos (by omega)]
    exact ih
  -- there is room for one factor above the limit
  | case2 nComposite vf hlt hwrap => exact absurd hwrap (by omega)
  | case3 nComposite vf hge => rw [markMultiples?, strideLoop, if_neg hge, if_neg hge]

/-- The squares stay below `2^32`: the factor before was still below the root of the limit. -/
theorem sieveFactors?_eq (hlimit : nPrimeTableLimit ≤ 2^31) {nFactor : ℕ} {vf : Array Bool}
    (hpos : 0 < nFactor) (hbefore : nFactor ≤ 2^15 ∨ (nFactor-1)*(nFactor-1) < nPrimeTableLimit) :
    sieveFactors? nPrimeTableLimit nFactor vf = some (sieveFactors nPrimeTableLimit nFactor vf) := by
  -- a factor from `2^16` on would come after one with a square above every limit
  have hsmall : nFactor < 2^16 := by
    rcases hbefore with hle | hlt
    · omega
    · by_contra hge
      have hsquare := Nat.mul_le_mul (show 2^16-1 ≤ nFactor-1 by omega) (show 2^16-1 ≤ nFactor-1 by omega)
      omega
  have hsquare : nFactor*nFactor < 2^32 := by
    calc nFactor*nFactor ≤ (2^16-1)*(2^16-1) := Nat.mul_le_mul (by omega) (by omega)
      _ < 2^32 := by norm_num
  induction nFactor, vf using sieveFactors.induct nPrimeTableLimit with
  | case1 nFactor vf hlt ih =>
    have hself := Nat.le_mul_self nFactor
    have hnext : nFactor+1 ≤ 2^15 ∨ (nFactor+1-1)*(nFactor+1-1) < nPrimeTableLimit := Or.inr hlt
    have hsmall' : nFactor+1 < 2^16 := by
      by_contra hge
      have hsquare := Nat.mul_le_mul (show 2^16-1 ≤ nFactor by omega) (show 2^16-1 ≤ nFactor by omega)
      omega
    have hsquare' : (nFactor+1)*(nFactor+1) < 2^32 := by
      calc (nFactor+1)*(nFactor+1) ≤ (2^16-1)*(2^16-1) := Nat.mul_le_mul (by omega) (by omega)
        _ < 2^32 := by norm_num
    have hrest := ih (Nat.succ_pos nFactor) hnext hsmall' hsquare'
    rw [sieveFactors?, sieveFactors, unsigned?_eq hsquare, Option.bind_eq_bind, Option.bind_some,
      if_pos hlt, if_pos hlt]
    split_ifs at hrest ⊢ with hcomp
    · exact hrest
    · rw [markMultiples?_eq (by omega), Option.bind_eq_bind, Option.bind_some]
      exact hrest
  | case2 nFactor vf hge =>
    rw [sieveFactors?, sieveFactors, unsigned?_eq hsquare, Option.bind_eq_bind, Option.bind_some,
      if_neg hge, if_neg hge]

theorem generatePrimeTable?_eq (hmax : nPrimeTableLimit ≤ nMaxSieveSize) :
    generatePrimeTable? nPrimeTableLimit = some (generatePrimeTable nPrimeTableLimit) := by
  have hlimit : nPrimeTableLimit ≤ 2^31 := hmax.trans (by decide)
  rw [generatePrimeTable?, sieveFactors?_eq hlimit (by decide) (Or.inl (by decide))]
  rfl

end Fits

section Sorted
variable {first rest : List ℕ} {p : ℕ}

/-- The loop multiplies in order the primes it comes to, until its bound or the first prime above `p`. -/
theorem primorialLoop_spec {vPrimes : Array ℕ} {mul? : ℕ → Option ℕ} {n : ℕ}
    (hlist : vPrimes.toList = first++rest) (hfirst : ∀ q ∈ first, q ≤ p) (hrest : ∀ q ∈ rest, p < q)
    (hn : n ≤ vPrimes.size)
    (hmul : ∀ k ≤ min n first.length, mul? (first.take k).prod = some (first.take k).prod)
    {i : ℕ} (hi : i ≤ min n first.length) :
    primorialLoop vPrimes p mul? n i (first.take i).prod =
      some (min n first.length,(first.take (min n first.length)).prod) := by
  have hget : ∀ j : ℕ, vPrimes[j]? = (first++rest)[j]? := by
    intro j
    rw [← Array.getElem?_toList, hlist]
  have hsize : vPrimes.size = first.length+rest.length := by
    rw [← Array.length_toList, hlist, List.length_append]
  -- The induction is on the primes still to come before the loop is left.
  induction hleft : min n first.length-i generalizing i with
  | zero =>
    have hstop : min n first.length = i := by omega
    rw [primorialLoop, hstop]
    by_cases hlt : i < n
    · have hlen : first.length = i := by omega
      have hin : i-first.length < rest.length := by omega
      rw [if_pos hlt, hget, List.getElem?_append_right hlen.le, List.getElem?_eq_getElem hin,
        Option.bind_eq_bind, Option.bind_some, if_pos (hrest _ (List.getElem_mem hin))]
    · rw [if_neg hlt]
  | succ left ih =>
    have hlt : i < n := by omega
    have hin : i < first.length := by omega
    -- one prime more is multiplied in
    have hprod : (first.take i).prod*first[i] = (first.take (i+1)).prod :=
      (List.prod_take_succ first i hin).symm
    rw [primorialLoop, if_pos hlt, hget, List.getElem?_append_left hin, List.getElem?_eq_getElem hin,
      Option.bind_eq_bind, Option.bind_some, if_neg (hfirst _ (List.getElem_mem hin)).not_gt, hprod,
      hmul (i+1) (by omega), Option.bind_some]
    exact ih (by omega) (by omega)

theorem previousLoop_spec (hfirst : ∀ q ∈ first, q < p) (hrest : ∀ q ∈ rest, p ≤ q) (nPrevPrime : ℕ) :
    previousLoop p nPrevPrime (first++rest) = first.getLastD nPrevPrime := by
  induction first generalizing nPrevPrime with
  | nil =>
    cases rest with
    | nil => rfl
    | cons q rest =>
      have hq := hrest q List.mem_cons_self
      rw [List.nil_append, previousLoop, if_pos hq, List.getLastD_nil]
  | cons q first ih =>
    have hq := hfirst q List.mem_cons_self
    rw [List.cons_append, previousLoop, if_neg (by omega), List.getLastD_cons]
    exact ih (fun r hr => hfirst r (List.mem_cons_of_mem q hr)) q

end Sorted

section Table
variable {nPrimeTableLimit p : ℕ}

/-- The primes below a number in the table, and those from it on. -/
theorem generatePrimeTable_split {b : ℕ} (hlimit : 2 ≤ nPrimeTableLimit) (hb : b ≤ nPrimeTableLimit) :
    ∃ rest, (generatePrimeTable nPrimeTableLimit).toList =
        ((List.range b).filter fun n => decide n.Prime)++rest ∧
      ∀ q, q ∈ rest ↔ q.Prime ∧ b ≤ q ∧ q < nPrimeTableLimit := by
  obtain ⟨c,rfl⟩ := Nat.exists_eq_add_of_le hb
  rw [generatePrimeTable_toList hlimit, List.range_add, List.filter_append]
  refine ⟨_,rfl,fun q => ?_⟩
  rw [List.mem_filter, List.mem_map, decide_eq_true_iff]
  constructor
  · rintro ⟨⟨i,hi,rfl⟩,hprime⟩
    have hi' := List.mem_range.mp hi
    exact ⟨hprime,by omega,by omega⟩
  · rintro ⟨hprime,hge,hlt⟩
    exact ⟨⟨q-b,List.mem_range.mpr (by omega),by omega⟩,hprime⟩

theorem prod_filter_range (b : ℕ) :
    ((List.range b).filter fun n => decide n.Prime).prod =
      ∏ q ∈ (Finset.range b).filter Nat.Prime, q := by
  rw [Finset.prod_eq_multiset_prod, Finset.filter_val, Finset.range_val]
  simp [Multiset.range]

/-- The first fifteen primes of every table that a sieve is made with. -/
def fastPrimes : List ℕ := [2,3,5,7,11,13,17,19,23,29,31,37,41,43,47]

theorem filter_range_fastPrimes : (List.range 48).filter (fun n => decide n.Prime) = fastPrimes := by
  decide +kernel

theorem fastPrimes_take_lt {w n : ℕ} (hword : 32 ≤ w) (hn : n = if 64 ≤ w then 15 else 9) {k : ℕ}
    (hk : k ≤ n) : (fastPrimes.take k).prod < 2^w := by
  have h64 : ∀ k < 16, (fastPrimes.take k).prod < 2^64 := by decide
  have h32 : ∀ k < 10, (fastPrimes.take k).prod < 2^32 := by decide
  split_ifs at hn with h
  · exact (h64 k (by omega)).trans_le (Nat.pow_le_pow_right (by decide) h)
  · exact (h32 k (by omega)).trans_le (Nat.pow_le_pow_right (by decide) hword)

/-- A loop over the table with its primes up to `p` as the list `first`. -/
theorem primorialLoop_table {first rest : List ℕ}
    (hfirst : first = (List.range (p+1)).filter fun n => decide n.Prime)
    (hlist : (generatePrimeTable nPrimeTableLimit).toList = first++rest)
    (hrest : ∀ q, q ∈ rest ↔ q.Prime ∧ p+1 ≤ q ∧ q < nPrimeTableLimit) {mul? : ℕ → Option ℕ}
    {n : ℕ} (hn : n ≤ (generatePrimeTable nPrimeTableLimit).size)
    (hmul : ∀ k ≤ min n first.length, mul? (first.take k).prod = some (first.take k).prod)
    {i : ℕ} (hi : i ≤ min n first.length) :
    primorialLoop (generatePrimeTable nPrimeTableLimit) p mul? n i (first.take i).prod =
      some (min n first.length,(first.take (min n first.length)).prod) := by
  refine primorialLoop_spec hlist ?_ ?_ hn hmul hi
  · intro q hq
    rw [hfirst, List.mem_filter, List.mem_range] at hq
    omega
  · intro q hq
    have hge := ((hrest q).mp hq).2.1
    omega

variable (hmin : nMinSieveSize ≤ nPrimeTableLimit)
include hmin

theorem generatePrimeTable_fastPrimes :
    ∃ tail, (generatePrimeTable nPrimeTableLimit).toList = fastPrimes++tail := by
  have hmin' : 48 ≤ nPrimeTableLimit := (show 48 ≤ nMinSieveSize by decide).trans hmin
  rw [← filter_range_fastPrimes]
  exact generatePrimeTable_prefix (by decide) hmin'

theorem generatePrimeTable_large_fast : 15 ≤ (generatePrimeTable nPrimeTableLimit).size := by
  obtain ⟨tail,htable⟩ := generatePrimeTable_fastPrimes hmin
  rw [← Array.length_toList, htable, List.length_append]
  exact Nat.le_add_right 15 _

/-- The primes up to `p` begin like the first fifteen. -/
theorem take_first_eq {first rest : List ℕ}
    (hlist : (generatePrimeTable nPrimeTableLimit).toList = first++rest) {k : ℕ}
    (hk : k ≤ 15) (hlen : k ≤ first.length) : first.take k = fastPrimes.take k := by
  obtain ⟨tail,htable⟩ := generatePrimeTable_fastPrimes hmin
  rw [hlist] at htable
  calc first.take k = (first++rest).take k := (List.take_append_of_le_length hlen).symm
    _ = (fastPrimes++tail).take k := by rw [htable]
    _ = fastPrimes.take k := List.take_append_of_le_length hk

/-- The first loop leaves at the index where the second one goes on: the primes up to `p` are
multiplied once each. -/
theorem primorial_eq {w : ℕ} (hword : 32 ≤ w) (hp : p < nPrimeTableLimit) :
    primorial (generatePrimeTable nPrimeTableLimit) p w =
      some (∏ q ∈ (Finset.range (p+1)).filter Nat.Prime, q) := by
  have htwo : 2 ≤ nPrimeTableLimit := (show 2 ≤ nMinSieveSize by decide).trans hmin
  obtain ⟨rest,hlist,hrest⟩ := generatePrimeTable_split htwo (show p+1 ≤ nPrimeTableLimit by omega)
  rw [← prod_filter_range]
  generalize hfirst : (List.range (p+1)).filter (fun n => decide n.Prime) = first at hlist ⊢
  have hsize : (generatePrimeTable nPrimeTableLimit).size = first.length+rest.length := by
    rw [← Array.length_toList, hlist, List.length_append]
  generalize hn : (if 64 ≤ w then 15 else 9) = n
  have hn15 : n ≤ 15 := by
    split_ifs at hn <;> omega
  have hlarge := generatePrimeTable_large_fast hmin
  -- the products of the fast loop fit in its word
  have hmul : ∀ k ≤ min n first.length, unsigned? w (first.take k).prod = some (first.take k).prod := by
    intro k hk
    apply unsigned?_eq
    rw [take_first_eq hmin hlist (by omega) (by omega)]
    exact fastPrimes_take_lt hword hn.symm (by omega)
  have hfast := primorialLoop_table hfirst.symm hlist hrest (by omega) hmul (Nat.zero_le _)
  have hslow := primorialLoop_table hfirst.symm hlist hrest le_rfl (fun _ _ => rfl)
    (show min n first.length ≤ min (generatePrimeTable nPrimeTableLimit).size first.length by omega)
  rw [List.take_zero, List.prod_nil] at hfast
  -- the second loop ends at the first prime above `p`, or with the table
  have hall : min (generatePrimeTable nPrimeTableLimit).size first.length = first.length := by omega
  rw [hall, List.take_length] at hslow
  simp only [primorial, hn, hfast, hslow, Option.bind_eq_bind, Option.bind_some, Option.pure_def]

theorem primorialFast_eq (hp : p ≤ 23) :
    primorialFast (generatePrimeTable nPrimeTableLimit) p =
      some (∏ q ∈ (Finset.range (p+1)).filter Nat.Prime, q) := by
  have hmin' : 24 ≤ nPrimeTableLimit := (show 24 ≤ nMinSieveSize by decide).trans hmin
  obtain ⟨rest,hlist,hrest⟩ := generatePrimeTable_split (show 2 ≤ nPrimeTableLimit by omega)
    (show p+1 ≤ nPrimeTableLimit by omega)
  rw [← prod_filter_range]
  -- there are nine primes up to 23
  have hnine : ((List.range (p+1)).filter fun n => decide n.Prime).length ≤ 9 := by
    have hsub : List.Sublist ((List.range (p+1)).filter fun n => decide n.Prime)
        ((List.range 24).filter fun n => decide n.Prime) :=
      (List.range_sublist.mpr (by omega)).filter _
    exact hsub.length_le.trans (by decide +kernel)
  generalize hfirst : (List.range (p+1)).filter (fun n => decide n.Prime) = first at hlist hnine ⊢
  have hsize : (generatePrimeTable nPrimeTableLimit).size = first.length+rest.length := by
    rw [← Array.length_toList, hlist, List.length_append]
  have hall : min (generatePrimeTable nPrimeTableLimit).size first.length = first.length := by omega
  have hmul : ∀ k ≤ min (generatePrimeTable nPrimeTableLimit).size first.length,
      unsigned? 32 (first.take k).prod = some (first.take k).prod := by
    intro k hk
    apply unsigned?_eq
    rw [take_first_eq hmin hlist (by omega) (by omega)]
    exact fastPrimes_take_lt le_rfl (show 9 = if 64 ≤ 32 then 15 else 9 by rfl) (by omega)
  have hloop := primorialLoop_table hfirst.symm hlist hrest le_rfl hmul (Nat.zero_le _)
  rw [hall, List.take_zero, List.prod_nil, List.take_length] at hloop
  rw [primorialFast, hloop]
  rfl

omit hmin

theorem filter_range_succ {q : ℕ} (hq : q.Prime) :
    ((List.range (q+1)).filter fun n => decide n.Prime) =
      ((List.range q).filter fun n => decide n.Prime)++[q] := by
  rw [List.range_succ, List.filter_append, List.filter_singleton, decide_eq_true hq]
  rfl

theorem primeTableGetNextPrime_eq (hlimit : 2 ≤ nPrimeTableLimit) {q : ℕ}
    (hq : IsLeast {q | q.Prime ∧ p < q} q) (hlt : q < nPrimeTableLimit) :
    primeTableGetNextPrime (generatePrimeTable nPrimeTableLimit) p = (true,q) := by
  obtain ⟨rest,hlist,-⟩ := generatePrimeTable_split hlimit (Nat.succ_le_of_lt hlt)
  rw [filter_range_succ hq.1.1, List.append_assoc, List.singleton_append] at hlist
  have hfind : (generatePrimeTable nPrimeTableLimit).toList.find? (fun nPrime => nPrime > p) = some q := by
    rw [List.find?_eq_some_iff_append]
    refine ⟨decide_eq_true hq.1.2,_,rest,hlist,?_⟩
    intro r hr
    rw [List.mem_filter, List.mem_range, decide_eq_true_iff] at hr
    -- a prime above `p` and below `q` would be a smaller one
    have hle : ¬ p < r := fun hgt => absurd (hq.2 ⟨hr.2,hgt⟩) (by omega)
    simpa using hle
  rw [primeTableGetNextPrime, hfind]

theorem primeTableGetNextPrime_none (hlimit : 2 ≤ nPrimeTableLimit)
    (hnone : ∀ q, q.Prime → p < q → nPrimeTableLimit ≤ q) :
    primeTableGetNextPrime (generatePrimeTable nPrimeTableLimit) p = (false,p) := by
  have hfind : (generatePrimeTable nPrimeTableLimit).toList.find? (fun nPrime => nPrime > p) = none := by
    rw [List.find?_eq_none, generatePrimeTable_toList hlimit]
    intro q hq hgt
    rw [List.mem_filter, List.mem_range, decide_eq_true_iff] at hq
    rw [decide_eq_true_iff] at hgt
    exact absurd (hnone q hq.2 hgt) (by omega)
  rw [primeTableGetNextPrime, hfind]

theorem primeTableGetPreviousPrime_eq (hlimit : 2 ≤ nPrimeTableLimit) (hp : p < nPrimeTableLimit)
    {q : ℕ} (hq : IsGreatest {q | q.Prime ∧ q < p} q) :
    primeTableGetPreviousPrime (generatePrimeTable nPrimeTableLimit) p = (true,q) := by
  have hqp := hq.1.2
  obtain ⟨rest,hlist,hrest⟩ := generatePrimeTable_split hlimit (show q+1 ≤ nPrimeTableLimit by omega)
  have hloop : previousLoop p 0 (generatePrimeTable nPrimeTableLimit).toList = q := by
    rw [hlist, previousLoop_spec ?_ ?_ 0, filter_range_succ hq.1.1, List.getLastD_concat]
    · intro r hr
      rw [List.mem_filter, List.mem_range] at hr
      omega
    · intro r hr
      obtain ⟨hprime,hge,-⟩ := (hrest r).mp hr
      by_contra hlt
      exact absurd (hq.2 ⟨hprime,not_le.mp hlt⟩) (by omega)
  simp only [primeTableGetPreviousPrime, hloop]
  exact if_pos hq.1.1.ne_zero

theorem primeTableGetPreviousPrime_none (hlimit : 2 ≤ nPrimeTableLimit) (hp : p ≤ 2) :
    primeTableGetPreviousPrime (generatePrimeTable nPrimeTableLimit) p = (false,p) := by
  have hloop : previousLoop p 0 ([]++(generatePrimeTable nPrimeTableLimit).toList) = 0 := by
    apply previousLoop_spec (fun q hq => absurd hq List.not_mem_nil)
    intro q hq
    rw [generatePrimeTable_toList hlimit, List.mem_filter, decide_eq_true_iff] at hq
    exact hp.trans hq.2.two_le
  rw [List.nil_append] at hloop
  simp only [primeTableGetPreviousPrime, hloop]
  rfl

theorem generatePrimeTable_sorted (hlimit : 2 ≤ nPrimeTableLimit) :
    (generatePrimeTable nPrimeTableLimit).toList.Pairwise (· < ·) := by
  rw [generatePrimeTable_toList hlimit]
  exact List.pairwise_lt_range.filter _

/-- The table of every admitted sieve size: the loops that fill it never wrap, it lists the primes below
the size in increasing order, and the products and the walks over it are those of the primes. -/
theorem primeTable_primorial_exact {w : ℕ} (hmin : nMinSieveSize ≤ nPrimeTableLimit)
    (hmax : nPrimeTableLimit ≤ nMaxSieveSize) (hword : 32 ≤ w) :
    ∃ vPrimes, generatePrimeTable? nPrimeTableLimit = some vPrimes ∧
      vPrimes.toList.Pairwise (· < ·) ∧
      (∀ n, n ∈ vPrimes.toList ↔ n.Prime ∧ n < nPrimeTableLimit) ∧
      ∀ p < nPrimeTableLimit,
        primorial vPrimes p w = some (∏ q ∈ (Finset.range (p+1)).filter Nat.Prime, q) ∧
        (p ≤ 23 → primorialFast vPrimes p = some (∏ q ∈ (Finset.range (p+1)).filter Nat.Prime, q)) ∧
        (∀ q, IsLeast {q | q.Prime ∧ p < q} q → primeTableGetNextPrime vPrimes p =
          if q < nPrimeTableLimit then (true,q) else (false,p)) ∧
        (∀ q, IsGreatest {q | q.Prime ∧ q < p} q → primeTableGetPreviousPrime vPrimes p = (true,q)) ∧
        (p ≤ 2 → primeTableGetPreviousPrime vPrimes p = (false,p)) := by
  have hlimit : 2 ≤ nPrimeTableLimit := (show 2 ≤ nMinSieveSize by decide).trans hmin
  refine ⟨generatePrimeTable nPrimeTableLimit,generatePrimeTable?_eq hmax,
    generatePrimeTable_sorted hlimit,?_,?_⟩
  · intro n
    rw [generatePrimeTable_toList hlimit, List.mem_filter, List.mem_range, decide_eq_true_iff]
    exact and_comm
  · intro p hp
    refine ⟨primorial_eq hmin hword hp,primorialFast_eq hmin,?_,?_,?_⟩
    · intro q hq
      split_ifs with hlt
      · exact primeTableGetNextPrime_eq hlimit hq hlt
      · apply primeTableGetNextPrime_none hlimit
        intro r hprime hgt
        exact (not_lt.mp hlt).trans (hq.2 ⟨hprime,hgt⟩)
    · exact fun q hq => primeTableGetPreviousPrime_eq hlimit hp hq
    · exact primeTableGetPreviousPrime_none hlimit

theorem primeTable_primorial_exact_smallest :
    ∃ vPrimes, generatePrimeTable? nMinSieveSize = some vPrimes ∧
      primorial vPrimes 23 64 = some (∏ q ∈ (Finset.range 24).filter Nat.Prime, q) := by
  obtain ⟨vPrimes,htable,-,-,hprod⟩ := primeTable_primorial_exact (w := 64) le_rfl
    (show nMinSieveSize ≤ nMaxSieveSize by decide) (by decide)
  exact ⟨vPrimes,htable,(hprod 23 (by decide)).1⟩

/-- The last prime of a table has no successor in it. -/
theorem primeTableGetNextPrime_past_table :
    ∃ vPrimes, generatePrimeTable? nMinSieveSize = some vPrimes ∧ 99999 < nMinSieveSize ∧
      IsLeast {q | q.Prime ∧ 99999 < q} 100003 ∧ primeTableGetNextPrime vPrimes 99999 = (false,99999) := by
  have hleast : IsLeast {q | q.Prime ∧ 99999 < q} 100003 := by
    refine ⟨⟨by norm_num,by decide⟩,?_⟩
    rintro q ⟨hprime,hgt⟩
    by_contra hlt
    have hhi : q < 100003 := not_le.mp hlt
    interval_cases q <;> norm_num at hprime
  refine ⟨generatePrimeTable nMinSieveSize,generatePrimeTable?_eq (by decide),by decide,hleast,?_⟩
  apply primeTableGetNextPrime_none (by decide)
  intro q hprime hgt
  exact (show nMinSieveSize ≤ 100003 by decide).trans (hleast.2 ⟨hprime,hgt⟩)

end Table

end Candypool.Prime
