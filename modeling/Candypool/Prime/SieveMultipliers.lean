import Candypool.Lib.Euclid
import Candypool.Prime.Sieve
import Mathlib.Data.Nat.Prime.Basic
import Mathlib.Data.Int.ModEq

/-! The first multipliers of the sieve: each layer of each prime gets the residue at which the prime
divides a chain member, through one modular inverse and repeated halving. -/
namespace Candypool.Prime
open Candypool.Lib

section Invert
variable {a p r0 r1 : ℕ} {x0 x1 : ℤ}

theorem intInvertLoop_spec (h : Euclid a p r0 r1 x0 x1) :
    intInvertLoop r0 r1 x0 x1*a ≡ 1 [ZMOD p] ∧ |intInvertLoop r0 r1 x0 x1| ≤ p := by
  induction r0, r1, x0, x1 using intInvertLoop.induct with
  | case1 r0 r1 x0 x1 hle =>
    rw [intInvertLoop, if_pos hle]
    exact h.inverse hle
  | case2 r0 r1 x0 x1 h1 rem2 hle =>
    rw [intInvertLoop, if_neg h1, if_pos hle]
    exact (h.next (not_le.mp h1)).inverse hle
  | case3 r0 r1 x0 x1 h1 rem2 h2 rem0 hle =>
    rw [intInvertLoop, if_neg h1, if_neg h2, if_pos hle]
    exact ((h.next (not_le.mp h1)).next (not_le.mp h2)).inverse hle
  | case4 r0 r1 x0 x1 h1 rem2 aux2 h2 rem0 aux0 h3 ih =>
    rw [intInvertLoop, if_neg h1, if_neg h2, if_neg h3]
    exact ih (((h.next (not_le.mp h1)).next (not_le.mp h2)).next (not_le.mp h3))

/-- The cofactor is within `p` of zero, so that the unsigned sum does not wrap. -/
theorem intInvert_spec (hp : p.Prime) (h31 : p < 2^31) (hpos : 0 < a) (hlt : a < p) :
    intInvert a p < p ∧ a*intInvert a p ≡ 1 [MOD p] := by
  have hcop : Nat.Coprime p a := (Nat.Prime.coprime_iff_not_dvd hp).mpr fun hdvd =>
    absurd (Nat.le_of_dvd hpos hdvd) (by omega)
  obtain ⟨hcong,habs⟩ := intInvertLoop_spec (Euclid.start hpos hlt hcop)
  have hmod : a%p = a := Nat.mod_eq_of_lt hlt
  refine ⟨Nat.mod_lt _ hp.pos,?_⟩
  rw [intInvert, hmod]
  set x := intInvertLoop p a 0 1 with hx
  obtain ⟨hlo,hhi⟩ := abs_le.mp habs
  have hwrap : (x+p)%2^32 = x+p := Int.emod_eq_of_lt (by omega) (by omega)
  have hnat : ((x+p).toNat : ℤ) = x+p := Int.toNat_of_nonneg (by omega)
  rw [hwrap]
  apply (Int.natCast_modEq_iff).mp
  calc ((a*((x+p).toNat%p) : ℕ) : ℤ) = a*((x+p)%p) := by
        rw [Nat.cast_mul, Int.natCast_mod, hnat]
    _ ≡ a*(x+p) [ZMOD p] := (Int.mod_modEq _ _).mul_left _
    _ = x*a+p*a := by ring
    _ ≡ x*a+0 [ZMOD p] := Int.ModEq.add_left _ (Int.modEq_zero_iff_dvd.mpr (Dvd.intro _ rfl))
    _ ≡ ((1 : ℕ) : ℤ) [ZMOD p] := by simpa using hcong

end Invert

section Combine
variable {vPrimes : Array ℕ} {limit : ℕ}

/-- With room for `b` more doublings below `2^32` the walk does not pass `b` more primes. -/
theorem combinePrimes_spec (hT : IsPrimeTable limit vPrimes) {c e : ℕ} (b : ℕ) (hc : c ≤ uintMax)
    (hpos : 0 < c) (hdoublings : 2^32 ≤ c*2^b) (hroom : e+b ≤ vPrimes.size) :
    ∃ c' e', combinePrimes vPrimes c e = some (c',e') ∧ e ≤ e' ∧ 0 < c' ∧ c' ≤ uintMax ∧ c ∣ c' ∧
      ∀ t, e ≤ t → t < e' → vPrimes.getD t 0 ∣ c' := by
  have hu : uintMax = 2^32-1 := rfl
  induction c, e using combinePrimes.induct vPrimes generalizing b with
  | case1 c e he nPrime hlt ih =>
    have hprime : nPrime.Prime := hT.prime e he
    have hmul : c*nPrime ≤ uintMax := by
      have h := Nat.mul_le_mul_right nPrime hlt.le
      exact h.trans (Nat.div_mul_le_self _ _)
    have hwrap : c*nPrime%2^32 = c*nPrime := Nat.mod_eq_of_lt (by omega)
    have hdouble : c*2 ≤ c*nPrime := Nat.mul_le_mul_left c hprime.two_le
    rw [combinePrimes, if_pos he, if_pos hlt, hwrap]
    rw [hwrap] at ih
    cases b with
    | zero => omega
    | succ b =>
      have hnext : 2^32 ≤ c*nPrime*2^b := by
        calc 2^32 ≤ c*2^(b+1) := hdoublings
          _ = c*2*2^b := by ring
          _ ≤ c*nPrime*2^b := Nat.mul_le_mul_right _ hdouble
      obtain ⟨c',e',heq,hle,hpos',hc',hdvd,hall⟩ := ih b hmul (by omega) hnext (by omega)
      refine ⟨c',e',heq,by omega,hpos',hc',(Dvd.intro _ rfl).trans hdvd,fun t ht ht' => ?_⟩
      rcases Nat.lt_or_ge e t with hgt | hge
      · exact hall t hgt ht'
      · rw [show t = e by omega]
        exact (Dvd.intro_left _ rfl).trans hdvd
  | case2 c e he nPrime hge =>
    rw [combinePrimes, if_pos he, if_neg hge]
    exact ⟨c,e,rfl,le_rfl,hpos,hc,dvd_rfl,fun t ht ht' => by omega⟩
  | case3 c e he =>
    -- Without room for a doubling `c` would not fit in 32 bits.
    cases b with
    | zero => omega
    | succ b => omega

/-- From one, at least the first prime is taken. -/
theorem combinePrimes_one (hT : IsPrimeTable limit vPrimes) (hlimit : limit ≤ nMaxSieveSize) {s : ℕ}
    (hroom : s+32 ≤ vPrimes.size) :
    ∃ c' e', combinePrimes vPrimes 1 s = some (c',e') ∧ s < e' ∧ 0 < c' ∧ c' ≤ uintMax ∧
      ∀ t, s ≤ t → t < e' → vPrimes.getD t 0 ∣ c' := by
  have hprime := hT.prime s (by omega)
  have hlt := hT.lt s (by omega)
  have hmax : nMaxSieveSize = 10000000 := rfl
  have hu : uintMax = 2^32-1 := rfl
  have hone : 1 < uintMax/vPrimes.getD s 0 := by
    rw [← Nat.succ_le_iff, Nat.le_div_iff_mul_le hprime.pos]
    omega
  have hdoublings : 2^32 ≤ vPrimes.getD s 0*2^31 := by
    have := Nat.mul_le_mul_right (2^31) hprime.two_le
    omega
  obtain ⟨c',e',heq,hle,hpos,hc,hdvd,hall⟩ :=
    combinePrimes_spec hT 31 (c := vPrimes.getD s 0) (e := s+1) (by omega) hprime.pos hdoublings
      (by omega)
  refine ⟨c',e',?_,hle,hpos,hc,fun t ht ht' => ?_⟩
  · rw [combinePrimes, if_pos (by omega), if_pos hone, one_mul,
      Nat.mod_eq_of_lt (by omega : vPrimes.getD s 0 < 2^32), heq]
  · rcases Nat.lt_or_ge s t with hgt | hge
    · exact hall t hgt ht'
    · rwa [show t = s by omega]

/-- Both ways to reduce the fixed factor agree. -/
theorem fixedFactorMod_eq (w hash fixed : ℕ) {c : ℕ} (hpos : 0 < c) (hc : c ≤ uintMax) :
    fixedFactorMod w hash fixed c = hash*fixed%c := by
  unfold fixedFactorMod
  split_ifs with hlong
  · have h1 := Nat.mod_lt hash hpos
    have h2 := Nat.mod_lt fixed hpos
    have hu : uintMax = 2^32-1 := rfl
    have hprod : hash%c*(fixed%c) < 2^64 := by
      calc hash%c*(fixed%c) < 2^32*2^32 := Nat.mul_lt_mul'' (by omega) (by omega)
        _ = 2^64 := by norm_num
    rw [Nat.mod_eq_of_lt hprod, ← Nat.mul_mod]
  · rfl

end Combine

section Hits
variable {F p k i r n m : ℕ} {σ : ℤ}

/-- `p` divides the member `F * i * 2^k - σ` of layer `k`: with `σ = 1` a member of the first kind,
with `σ = -1` one of the second. -/
def Hits (F : ℕ) (σ : ℤ) (p k i : ℕ) : Prop := (p : ℤ) ∣ F*i*2^k-σ

theorem not_hits_of_dvd (hp : p.Prime) (hσ : IsUnit σ) (hF : p ∣ F) : ¬ Hits F σ p k i := by
  intro h
  have hmul : (p : ℤ) ∣ F*i*2^k := by
    rw [mul_assoc]
    exact Dvd.dvd.mul_right (Int.natCast_dvd_natCast.mpr hF) _
  have hunit := isUnit_of_dvd_unit ((Int.dvd_iff_dvd_of_dvd_sub h).mp hmul) hσ
  exact (Nat.prime_iff_prime_int.mp hp).not_isUnit hunit

/-- The hits of a layer are one residue class. -/
theorem hits_iff (hp : p.Prime) (hσ : IsUnit σ) (hr : r < p) (hroot : Hits F σ p k r) :
    Hits F σ p k i ↔ r ≤ i ∧ p ∣ i-r := by
  have hprime := Nat.prime_iff_prime_int.mp hp
  have hdiff : (F*i*2^k-σ)-(F*r*2^k-σ) = (F*2^k)*((i : ℤ)-r) := by ring
  have hfactor : ¬ (p : ℤ) ∣ F*2^k := by
    intro hdvd
    have hmul : (p : ℤ) ∣ F*r*2^k := by
      rw [mul_right_comm]
      exact Dvd.dvd.mul_right hdvd _
    exact hprime.not_isUnit (isUnit_of_dvd_unit ((Int.dvd_iff_dvd_of_dvd_sub hroot).mp hmul) hσ)
  have hiff : Hits F σ p k i ↔ (p : ℤ) ∣ (i : ℤ)-r := by
    constructor
    · intro hi
      have h := dvd_sub hi hroot
      rw [hdiff] at h
      exact (hprime.dvd_or_dvd h).resolve_left hfactor
    · intro hsub
      have h := dvd_add (Dvd.dvd.mul_left hsub (F*2^k : ℤ)) hroot
      rwa [← hdiff, sub_add_cancel] at h
  rw [hiff]
  constructor
  · intro hdvd
    have hmod : r ≡ i [MOD p] := (Nat.modEq_iff_dvd).mpr hdvd
    have hle : r ≤ i := by
      rw [← Nat.mod_eq_of_lt hr, hmod]
      exact Nat.mod_le i p
    exact ⟨hle,(Nat.modEq_iff_dvd' hle).mp hmod⟩
  · rintro ⟨hle,hdvd⟩
    rw [← Nat.cast_sub hle]
    exact Int.natCast_dvd_natCast.mpr hdvd

/-- Multiplying by `(p+1)/2` halves the root. -/
theorem Hits.half (h : Hits F 1 p k r) (hodd : p%2 = 1) :
    Hits F 1 p (k+1) (r*((p+1)/2)%p) := by
  have htwo : (((p+1)/2 : ℕ) : ℤ)*2 = p+1 := by
    exact_mod_cast Nat.div_mul_cancel (by omega : 2 ∣ p+1)
  obtain ⟨t,ht⟩ := h
  have hdm : ((r*((p+1)/2)%p : ℕ) : ℤ) = r*((p+1)/2 : ℕ)-p*(r*((p+1)/2)/p : ℕ) := by
    rw [eq_sub_iff_add_eq]
    exact_mod_cast Nat.mod_add_div (r*((p+1)/2)) p
  refine ⟨t+F*2^k*r-F*2^(k+1)*(r*((p+1)/2)/p : ℕ),?_⟩
  rw [hdm, pow_succ]
  calc (F : ℤ)*(r*((p+1)/2 : ℕ)-p*(r*((p+1)/2)/p : ℕ))*(2^k*2)-1
      = F*r*2^k*(((p+1)/2 : ℕ)*2)-1-p*(F*(2^k*2)*(r*((p+1)/2)/p : ℕ)) := by ring
    _ = (F*r*2^k-1)+p*(F*2^k*r-F*(2^k*2)*(r*((p+1)/2)/p : ℕ)) := by rw [htwo]; ring
    _ = p*(t+F*2^k*r-F*(2^k*2)*(r*((p+1)/2)/p : ℕ)) := by rw [ht]; ring

theorem Hits.neg (h : Hits F 1 p k r) (hr : r ≤ p) : Hits F (-1) p k (p-r) := by
  obtain ⟨t,ht⟩ := h
  refine ⟨F*2^k-t,?_⟩
  rw [Nat.cast_sub hr]
  calc (F : ℤ)*(p-r)*2^k-(-1) = F*p*2^k-(F*r*2^k-1) := by ring
    _ = p*(F*2^k-t) := by rw [ht]; ring

theorem Hits.pos (h : Hits F 1 p k r) (hp : p.Prime) : 0 < r := by
  apply Nat.pos_of_ne_zero
  rintro rfl
  have hunit : (p : ℤ) ∣ -1 := by simpa [Hits] using h
  exact (Nat.prime_iff_prime_int.mp hp).not_isUnit (isUnit_of_dvd_unit hunit (by simp))

/-- A slot of the first multipliers of layer `k`. -/
def Starts (F : ℕ) (σ : ℤ) (p n k v : ℕ) : Prop := Progression (Hits F σ p k) p n 0 v

theorem Hits.starts (h : Hits F σ p k r) (hp : p.Prime) (hσ : IsUnit σ) (hr : r < p) :
    Starts F σ p n k r := fun _ _ _ => hits_iff hp hσ hr h

theorem starts_of_dvd (hp : p.Prime) (hσ : IsUnit σ) (hF : p ∣ F) (hn : n ≤ uintMax) :
    Starts F σ p n k uintMax := by
  intro i _ hi
  have hnot : ¬ uintMax ≤ i := by omega
  simp [not_hits_of_dvd hp hσ hF, hnot]

end Hits

namespace SieveParams
variable (P : SieveParams)

/-- The fixed factor of every chain origin of the sieve. -/
def fixedFactor : ℕ := P.mpzHash*P.mpzFixedMultiplier

theorem size_mem : 100000 ≤ P.nSieveSize ∧ P.nSieveSize ≤ 10000000 := P.settings.size_mem

theorem isPrimeTable : IsPrimeTable P.nSieveSize P.vPrimes := by
  rw [P.vPrimes_eq]
  exact generatePrimeTable_isPrimeTable ((by norm_num : 2 ≤ 100000).trans P.size_mem.1)

theorem vPrimes_large : 4000 ≤ P.vPrimes.size := by
  rw [P.vPrimes_eq]
  exact generatePrimeTable_large P.settings.size_mem.1 P.settings.size_mem.2

theorem nPrimes_le : P.nPrimes ≤ P.vPrimes.size := by
  have h := Nat.mul_le_mul_left P.vPrimes.size P.settings.percentage_mem.2
  have hmax : nMaxSievePercentage = 100 := rfl
  rw [hmax] at h
  unfold nPrimes
  omega

theorem nPrimes_large : 40 ≤ P.nPrimes := by
  have h := Nat.mul_le_mul_left P.vPrimes.size P.settings.percentage_mem.1
  have hmin : nMinSievePercentage = 1 := rfl
  have := P.vPrimes_large
  rw [hmin] at h
  unfold nPrimes
  omega

theorem one_lt_nPrimes : 1 < P.nPrimes := by
  have := P.nPrimes_large
  omega

theorem nPrimes_le_size : P.nPrimes ≤ P.nSieveSize*P.settings.nSievePercentage/100 := by
  have hsize : P.vPrimes.size ≤ P.nSieveSize := by
    have htwo : 2 ≤ P.settings.nSieveSize := (by norm_num : 2 ≤ 100000).trans P.size_mem.1
    rw [P.vPrimes_eq, generatePrimeTable_size htwo]
    exact Nat.count_le Nat.Prime
  exact Nat.div_le_div_right (Nat.mul_le_mul_right _ hsize)

/-- Below a hundred percent the sieving primes end well before the table does. -/
theorem nPrimes_room (hpct : P.settings.nSievePercentage ≤ 99) : P.nPrimes+32 ≤ P.vPrimes.size := by
  have h := Nat.mul_le_mul_left P.vPrimes.size hpct
  have := P.vPrimes_large
  unfold nPrimes
  omega

variable {P} {s : ℕ}

theorem sievingPrime (hs : s < P.nPrimes) : (P.vPrimes.getD s 0).Prime :=
  P.isPrimeTable.prime s (hs.trans_le P.nPrimes_le)

theorem sievingPrime_lt (hs : s < P.nPrimes) : P.vPrimes.getD s 0 < 10000000 :=
  (P.isPrimeTable.lt s (hs.trans_le P.nPrimes_le)).trans_le P.size_mem.2

/-- Few sieving primes are small ones. -/
theorem sievingPrime_lt_two_pow {b c : ℕ} (hc : P.nPrimes ≤ c) (hb : 1+b*c < 2^b)
    (hsize : 2^b ≤ P.nSieveSize) (htwo : 1 ≤ b) (hs : s < P.nPrimes) :
    P.vPrimes.getD s 0 < 2^b := by
  have hcount := two_pow_le_primeCounting' b
  rw [P.vPrimes_eq]
  apply generatePrimeTable_lt (Nat.le_self_pow (by omega) 2) hsize
  by_contra hnot
  have hle : Nat.primeCounting' (2^b)+1 ≤ c := by omega
  have hmul := Nat.mul_le_mul_left b hle
  rw [mul_add, mul_one] at hmul
  omega

theorem sievingPrime_odd (h1 : 1 ≤ s) (hs : s < P.nPrimes) : P.vPrimes.getD s 0%2 = 1 := by
  have htwo := P.isPrimeTable.two_lt s (hs.trans_le P.nPrimes_le) h1
  rcases (sievingPrime hs).eq_two_or_odd with heq | hodd
  · omega
  · exact hodd

end SieveParams

section Fill
variable {F n nPrime base bits l r : ℕ} {st0 : MultiplierState}

/-- What the loop over the layers has written before layer `k`, in the slots from `base` on. -/
structure Filled (F n nPrime base : ℕ) (st0 : MultiplierState) (k : ℕ) (st : MultiplierState) :
    Prop where
  endSeq : st.nCombinedEndSeq = st0.nCombinedEndSeq
  combinedMod : st.nFixedFactorCombinedMod = st0.nFixedFactorCombinedMod
  size1 : st.vCunningham1Multipliers.size = st0.vCunningham1Multipliers.size
  size2 : st.vCunningham2Multipliers.size = st0.vCunningham2Multipliers.size
  starts : ∀ k' < k, Starts F 1 nPrime n k' (st.vCunningham1Multipliers.getD (base+k') 0) ∧
    Starts F (-1) nPrime n k' (st.vCunningham2Multipliers.getD (base+k') 0)
  other : ∀ t, t < base ∨ base+k ≤ t →
    st.vCunningham1Multipliers.getD t 0 = st0.vCunningham1Multipliers.getD t 0 ∧
    st.vCunningham2Multipliers.getD t 0 = st0.vCunningham2Multipliers.getD t 0

theorem Filled.next {k : ℕ} {st : MultiplierState} (hp : nPrime.Prime)
    (h : Filled F n nPrime base st0 k st) (hroot : Hits F 1 nPrime k r) (hr : r < nPrime)
    (h1 : base+k < st0.vCunningham1Multipliers.size)
    (h2 : base+k < st0.vCunningham2Multipliers.size) :
    Filled F n nPrime base st0 (k+1)
      { st with
        vCunningham1Multipliers := st.vCunningham1Multipliers.setIfInBounds (base+k) r
        vCunningham2Multipliers :=
          st.vCunningham2Multipliers.setIfInBounds (base+k) (nPrime-r) } where
  endSeq := h.endSeq
  combinedMod := h.combinedMod
  size1 := by rw [Array.size_setIfInBounds, h.size1]
  size2 := by rw [Array.size_setIfInBounds, h.size2]
  starts := by
    intro k' hk'
    have hpos := hroot.pos hp
    rw [getD_setIfInBounds (by rw [h.size1]; exact h1), getD_setIfInBounds (by rw [h.size2]; exact h2)]
    by_cases hkk : k' = k
    · subst hkk
      rw [if_pos rfl, if_pos rfl]
      exact ⟨hroot.starts hp (by simp) hr,(hroot.neg hr.le).starts hp (by simp) (by omega)⟩
    · rw [if_neg (by omega), if_neg (by omega)]
      exact h.starts k' (by omega)
  other := by
    intro t ht
    rw [getD_setIfInBounds (by rw [h.size1]; exact h1), getD_setIfInBounds (by rw [h.size2]; exact h2),
      if_neg (by omega), if_neg (by omega)]
    exact h.other t (by omega)

theorem fillLayers_spec {s : ℕ} (hp : nPrime.Prime) (hodd : nPrime%2 = 1)
    (hbits : nPrime*((nPrime+1)/2) ≤ 2^bits) (hroot : Hits F 1 nPrime 0 r) (hr : r < nPrime)
    (h1 : s*l+l ≤ st0.vCunningham1Multipliers.size)
    (h2 : s*l+l ≤ st0.vCunningham2Multipliers.size) :
    Filled F n nPrime (s*l) st0 l (fillLayers bits nPrime s l r st0) := by
  refine (rangeLoop_induct (fun k (q : ℕ × MultiplierState) =>
    (q.1 < nPrime ∧ Hits F 1 nPrime k q.1) ∧ Filled F n nPrime (s*l) st0 k q.2)
    (Nat.zero_le l) never_eq_false ?_ ?_).2
  · rintro k ⟨inv,st⟩ - hk ⟨⟨hlt,hhit⟩,hfill⟩
    have hsmall : inv*((nPrime+1)/2) < 2^bits := by
      apply lt_of_lt_of_le _ hbits
      exact Nat.mul_lt_mul_of_pos_right hlt (by have := hp.two_le; omega)
    refine ⟨⟨Nat.mod_lt _ hp.pos,?_⟩,hfill.next hp hhit hlt (by omega) (by omega)⟩
    rw [fillLayer, Nat.mod_eq_of_lt hsmall]
    exact hhit.half hodd
  · exact ⟨⟨hr,hroot⟩,rfl,rfl,rfl,rfl,fun k' hk' => absurd hk' (Nat.not_lt_zero k'),
      fun _ _ => ⟨rfl,rfl⟩⟩

end Fill

section Multipliers
variable {w s : ℕ} {P : SieveParams} {st : MultiplierState}

/-- The state before the turn of prime number `s`: the primes before it have their multipliers, the
others are marked as having none, and the combined remainder serves the primes up to its end. -/
structure Seeded (P : SieveParams) (s : ℕ) (st : MultiplierState) : Prop where
  size1 : st.vCunningham1Multipliers.size = P.nPrimes*P.nSieveLayers
  size2 : st.vCunningham2Multipliers.size = P.nPrimes*P.nSieveLayers
  le : s ≤ st.nCombinedEndSeq
  combined : ∀ t, s ≤ t → t < st.nCombinedEndSeq →
    st.nFixedFactorCombinedMod%P.vPrimes.getD t 0 = P.fixedFactor%P.vPrimes.getD t 0
  fresh : ∀ t, s*P.nSieveLayers ≤ t → t < P.nPrimes*P.nSieveLayers →
    st.vCunningham1Multipliers.getD t 0 = uintMax ∧ st.vCunningham2Multipliers.getD t 0 = uintMax
  seeded : ∀ s', 1 ≤ s' → s' < s → ∀ k < P.nSieveLayers,
    Starts P.fixedFactor 1 (P.vPrimes.getD s' 0) P.nSieveSize k
      (st.vCunningham1Multipliers.getD (s'*P.nSieveLayers+k) 0) ∧
    Starts P.fixedFactor (-1) (P.vPrimes.getD s' 0) P.nSieveSize k
      (st.vCunningham2Multipliers.getD (s'*P.nSieveLayers+k) 0)

theorem combineStep_spec (hpct : P.settings.nSievePercentage ≤ 99) (hs : s < P.nPrimes)
    (h : Seeded P s st) :
    ∃ st', combineStep w P st s = .ok st' ∧ Seeded P s st' ∧ s < st'.nCombinedEndSeq := by
  unfold combineStep
  split_ifs with hend
  · have heq : st.nCombinedEndSeq = s := le_antisymm hend h.le
    have hroom := P.nPrimes_room hpct
    obtain ⟨c,e,hcomb,hlt,hpos,hc,hdvd⟩ :=
      combinePrimes_one P.isPrimeTable P.size_mem.2 (show s+32 ≤ P.vPrimes.size by omega)
    rw [heq, hcomb]
    refine ⟨_,rfl,⟨h.size1,h.size2,hlt.le,fun t ht ht' => ?_,h.fresh,h.seeded⟩,hlt⟩
    dsimp only
    rw [fixedFactorMod_eq w _ _ hpos hc, Nat.mod_mod_of_dvd _ (hdvd t ht ht')]
    rfl
  · exact ⟨st,rfl,h,by omega⟩

/-- A prime that divides the fixed factor divides no member: its slots keep their mark. -/
theorem Seeded.skip (hs : s < P.nPrimes) (h : Seeded P s st) (hend : s < st.nCombinedEndSeq)
    (hzero : P.vPrimes.getD s 0 ∣ P.fixedFactor) : Seeded P (s+1) st where
  size1 := h.size1
  size2 := h.size2
  le := hend
  combined t ht := h.combined t (by omega)
  fresh t ht := h.fresh t ((Nat.mul_le_mul_right _ (Nat.le_succ s)).trans ht)
  seeded := by
    intro s' h1 hlt k hk
    rcases Nat.lt_succ_iff_lt_or_eq.mp hlt with hlt' | rfl
    · exact h.seeded s' h1 hlt' k hk
    · have hu : P.nSieveSize ≤ uintMax := P.size_mem.2.trans (by decide)
      have hp := SieveParams.sievingPrime hs
      obtain ⟨h1',h2'⟩ := h.fresh (s'*P.nSieveLayers+k) (Nat.le_add_right _ _) (slot_lt hs hk)
      rw [h1', h2']
      exact ⟨starts_of_dvd hp (by simp) hzero hu,starts_of_dvd hp (by simp) hzero hu⟩

theorem Seeded.fill {st' : MultiplierState} (hs : s < P.nPrimes) (h : Seeded P s st)
    (hend : s < st.nCombinedEndSeq)
    (hfill : Filled P.fixedFactor P.nSieveSize (P.vPrimes.getD s 0) (s*P.nSieveLayers) st
      P.nSieveLayers st') : Seeded P (s+1) st' where
  size1 := by rw [hfill.size1, h.size1]
  size2 := by rw [hfill.size2, h.size2]
  le := by rw [hfill.endSeq]; exact hend
  combined t ht hlt := by
    rw [hfill.endSeq] at hlt
    rw [hfill.combinedMod]
    exact h.combined t (by omega) hlt
  fresh t ht hlt := by
    rw [Nat.succ_mul] at ht
    obtain ⟨h1,h2⟩ := hfill.other t (Or.inr ht)
    rw [h1, h2]
    exact h.fresh t (by omega) hlt
  seeded := by
    intro s' h1 hlt k hk
    rcases Nat.lt_succ_iff_lt_or_eq.mp hlt with hlt' | rfl
    · obtain ⟨h1',h2'⟩ := hfill.other (s'*P.nSieveLayers+k) (Or.inl (slot_lt hlt' hk))
      rw [h1', h2']
      exact h.seeded s' h1 hlt' k hk
    · exact hfill.starts k hk

/-- The inverse of the remainder is the first hit of layer zero. -/
theorem hits_intInvert {F p : ℕ} (hp : p.Prime) (h31 : p < 2^31) (hF : F%p ≠ 0) :
    Hits F 1 p 0 (intInvert (F%p) p) ∧ intInvert (F%p) p < p := by
  obtain ⟨hlt,hcong⟩ := intInvert_spec hp h31 (Nat.pos_of_ne_zero hF) (Nat.mod_lt F hp.pos)
  have hcong' : F*intInvert (F%p) p ≡ 1 [MOD p] :=
    ((Nat.mod_modEq F p).symm.mul_right _).trans hcong
  have hdvd := (Nat.modEq_iff_dvd).mp hcong'.symm
  exact ⟨by simpa [Hits] using hdvd,hlt⟩

theorem halving_bits {p : ℕ} (hlt : p < 10000000) :
    p*((p+1)/2) ≤ 2^(if uintMax/((p+1)/2) ≥ p then 32 else 64) := by
  split_ifs with h32
  · have hle := (Nat.mul_le_mul_right ((p+1)/2) h32).trans (Nat.div_mul_le_self _ _)
    exact hle.trans (by decide)
  · calc p*((p+1)/2) ≤ 10000000*10000000 := Nat.mul_le_mul (by omega) (by omega)
      _ ≤ 2^64 := by norm_num

theorem invertStep_spec (h1 : 1 ≤ s) (hs : s < P.nPrimes) (h : Seeded P s st)
    (hend : s < st.nCombinedEndSeq) :
    ∃ st', invertStep P st s = .ok st' ∧ Seeded P (s+1) st' := by
  have hp := SieveParams.sievingPrime hs
  have hlt := SieveParams.sievingPrime_lt hs
  have hodd := SieveParams.sievingPrime_odd h1 hs
  have hmod := h.combined s le_rfl hend
  unfold invertStep
  simp only [hmod]
  by_cases hzero : P.fixedFactor%P.vPrimes.getD s 0 = 0
  · rw [if_pos hzero]
    exact ⟨st,rfl,h.skip hs hend (Nat.dvd_of_mod_eq_zero hzero)⟩
  obtain ⟨hroot,hrlt⟩ := hits_intInvert hp (by omega) hzero
  have hslots : s*P.nSieveLayers+P.nSieveLayers ≤ P.nPrimes*P.nSieveLayers := by
    rw [← Nat.succ_mul]
    exact Nat.mul_le_mul_right _ hs
  rw [if_neg hzero, if_neg (hroot.pos hp).ne']
  exact ⟨_,rfl,h.fill hs hend (fillLayers_spec hp hodd (halving_bits hlt) hroot hrlt
    (by rw [h.size1]; exact hslots) (by rw [h.size2]; exact hslots))⟩

/-- An uninterrupted run over the primes fails nowhere and seeds every layer of every prime. -/
theorem weaveMultipliers_spec (w : ℕ) (hpct : P.settings.nSievePercentage ≤ 99)
    {newBlock : WeaveCheck → Bool} (hnew : ∀ c, newBlock c = false) :
    ∃ st, weaveMultipliers w P newBlock = .ok st ∧ Seeded P P.nPrimes st := by
  refine rangeLoop_induct
    (fun s (r : Except WeaveFault MultiplierState) => ∃ st, r = .ok st ∧ Seeded P s st)
    P.one_lt_nPrimes.le (fun s => hnew (.prime s)) ?_ ?_
  · rintro s _ h1 hs ⟨st,rfl,h⟩
    obtain ⟨st',heq,h',hend⟩ := combineStep_spec (w := w) hpct hs h
    obtain ⟨st'',heq',h''⟩ := invertStep_spec h1 hs h' hend
    exact ⟨st'',by simp only [Except.bind, heq, heq'],h''⟩
  · refine ⟨_,rfl,Array.size_replicate,Array.size_replicate,le_rfl,fun t ht hlt => ?_,
      fun t _ hlt => ?_,fun s' h1 hlt => ?_⟩
    · exact absurd ht (by simpa using hlt)
    · simp [hlt]
    · omega

end Multipliers

end Candypool.Prime
