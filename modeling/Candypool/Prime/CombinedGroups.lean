import Candypool.Prime.SieveExact

/-! The combined divisors of the weave: which primes each of them serves, and where the walk over
the prime table ends. -/
namespace Candypool.Prime
open Candypool.Lib Finset

/-- One divisor and the indexes of its primes, the end left out. -/
structure CombinedGroup where
  nStartSeq : ℕ
  nEndSeq : ℕ
  nPrimeCombined : ℕ
deriving DecidableEq

def CombinedGroup.Has (g : CombinedGroup) (s : ℕ) : Prop := g.nStartSeq ≤ s ∧ s < g.nEndSeq

/-- The groups made so far and `nCombinedEndSeq`. Nothing is left after a read past the table. -/
abbrev Grouping := Option (List CombinedGroup × ℕ)

section Groups
variable (P : SieveParams)

/-- The part of a turn of the weave that combines primes. -/
def groupStep (st : Grouping) (nPrimeSeq : ℕ) : Grouping :=
  st.bind fun (groups,nCombinedEndSeq) =>
    if nPrimeSeq ≥ nCombinedEndSeq then
      (combinePrimes P.vPrimes 1 nCombinedEndSeq).map fun (nPrimeCombined,nEndSeq) =>
        (groups ++ [⟨nCombinedEndSeq,nEndSeq,nPrimeCombined⟩], nEndSeq)
    else some (groups,nCombinedEndSeq)

def combinedGroups (newBlock : WeaveCheck → Bool) : Grouping :=
  rangeLoop (fun s => newBlock (.prime s)) (groupStep P) 1 P.nPrimes (some ([],1))

/-- The divisor is the product of its primes and fits in 32 bits; so did every product on the way
to it. -/
structure CombinedGroup.Exact (g : CombinedGroup) : Prop where
  product : g.nPrimeCombined = ∏ t ∈ Ico g.nStartSeq g.nEndSeq, P.vPrimes.getD t 0
  fits : g.nPrimeCombined < 2^32
  inside : g.nEndSeq < P.vPrimes.size

/-- Before the turn of prime number `s`: the groups lie side by side from the second prime on. -/
structure GroupsTo (s : ℕ) (groups : List CombinedGroup) (nCombinedEndSeq : ℕ) : Prop where
  le : s ≤ nCombinedEndSeq
  lt : nCombinedEndSeq < P.vPrimes.size
  exact : ∀ g ∈ groups, g.Exact P
  within : ∀ g ∈ groups, 1 ≤ g.nStartSeq ∧ g.nEndSeq ≤ nCombinedEndSeq
  once : ∀ t, 1 ≤ t → t < nCombinedEndSeq → ∃! g, g ∈ groups ∧ g.Has t

variable {P}

theorem GroupsTo.start (P : SieveParams) : GroupsTo P 1 [] 1 where
  le := le_rfl
  lt := by
    have := P.vPrimes_large
    omega
  exact g hg := by cases hg
  within g hg := by cases hg
  once t h1 hlt := by omega

/-- The product is exact wherever the walk comes to an end. -/
theorem combinePrimes_product {vPrimes : Array ℕ} {c e c' e' : ℕ} (hc : c ≤ uintMax) (h : combinePrimes vPrimes c e = some (c',e')) :
    e ≤ e' ∧ e' < vPrimes.size ∧ c' ≤ uintMax ∧ c' = c*∏ t ∈ Ico e e', vPrimes.getD t 0 := by
  have hu : uintMax = 2^32-1 := rfl
  induction c, e using combinePrimes.induct vPrimes with
  | case1 c e he nPrime hlt ih =>
    have hmul : c*nPrime ≤ uintMax := by
      have hle := Nat.mul_le_mul_right nPrime hlt.le
      exact hle.trans (Nat.div_mul_le_self _ _)
    have hwrap : c*nPrime%2^32 = c*nPrime := Nat.mod_eq_of_lt (by omega)
    rw [combinePrimes, if_pos he, if_pos hlt] at h
    obtain ⟨hle,hsize,hc',hprod⟩ := ih (by rw [hwrap]; exact hmul) h
    have hbottom : ∏ t ∈ Ico e e', vPrimes.getD t 0 = nPrime*∏ t ∈ Ico (e+1) e', vPrimes.getD t 0 :=
      prod_eq_prod_Ico_succ_bot (by omega) _
    rw [hwrap, mul_assoc, ← hbottom] at hprod
    exact ⟨by omega, hsize, hc', hprod⟩
  | case2 c e he nPrime hge =>
    rw [combinePrimes, if_pos he, if_neg hge] at h
    obtain ⟨rfl,rfl⟩ := Prod.mk.inj (Option.some.inj h)
    refine ⟨le_rfl, he, hc, ?_⟩
    rw [Ico_self, prod_empty, mul_one]
  | case3 c e he =>
    rw [combinePrimes, if_neg he] at h
    cases h

/-- The next group, made when the walk stands at its first prime. -/
theorem GroupsTo.append {s c e : ℕ} {groups : List CombinedGroup} (h : GroupsTo P s groups s)
    (h1 : 1 ≤ s) (hcomb : combinePrimes P.vPrimes 1 s = some (c,e)) (hend : s < e) :
    GroupsTo P (s+1) (groups ++ [⟨s,e,c⟩]) e := by
  have hu : uintMax = 2^32-1 := rfl
  obtain ⟨_,hsize,hc,hprod⟩ := combinePrimes_product (by omega) hcomb
  rw [one_mul] at hprod
  refine ⟨hend, hsize, ?_, ?_, ?_⟩
  · intro g hg
    rcases List.mem_append.mp hg with hold | hnew
    · exact h.exact g hold
    · rw [List.mem_singleton.mp hnew]
      exact ⟨hprod, by dsimp only; omega, hsize⟩
  · intro g hg
    rcases List.mem_append.mp hg with hold | hnew
    · have hwithin := h.within g hold
      exact ⟨hwithin.1, by omega⟩
    · rw [List.mem_singleton.mp hnew]
      exact ⟨h1, le_rfl⟩
  · intro t ht hlt
    by_cases hold : t < s
    · -- the new group begins behind `t`
      obtain ⟨g,⟨hg,hhas⟩,huniq⟩ := h.once t ht hold
      refine ⟨g, ⟨List.mem_append_left _ hg, hhas⟩, ?_⟩
      intro g' ⟨hg',hhas'⟩
      rcases List.mem_append.mp hg' with hmem | hnew
      · exact huniq g' ⟨hmem,hhas'⟩
      · rw [List.mem_singleton.mp hnew] at hhas'
        have hstart : s ≤ t := hhas'.1
        omega
    · -- the old ones end before `t`
      have hge : s ≤ t := Nat.le_of_not_lt hold
      refine ⟨⟨s,e,c⟩, ⟨List.mem_append_right _ (List.mem_singleton_self _), hge, hlt⟩, ?_⟩
      intro g' ⟨hg',hhas'⟩
      rcases List.mem_append.mp hg' with hmem | hnew
      · have hwithin := h.within g' hmem
        have hstop : t < g'.nEndSeq := hhas'.2
        omega
      · exact List.mem_singleton.mp hnew

/-- Below a hundred percent a turn reads inside the table. -/
theorem groupStep_spec (hpct : P.settings.nSievePercentage ≤ 99) {s e : ℕ}
    {groups : List CombinedGroup} (h1 : 1 ≤ s) (hs : s < P.nPrimes) (h : GroupsTo P s groups e) :
    ∃ groups' e', groupStep P (some (groups,e)) s = some (groups',e') ∧
      GroupsTo P (s+1) groups' e' := by
  rw [groupStep, Option.bind_some]
  dsimp only
  by_cases hend : s ≥ e
  · have heq : e = s := le_antisymm hend h.le
    subst heq
    have hroom := P.nPrimes_room hpct
    obtain ⟨c,e',hcomb,hlt,_⟩ :=
      combinePrimes_one P.isPrimeTable P.size_mem.2 (show e+32 ≤ P.vPrimes.size by omega)
    rw [if_pos hend, hcomb]
    exact ⟨_, _, rfl, h.append h1 hcomb hlt⟩
  · rw [if_neg hend]
    exact ⟨groups, e, rfl, by omega, h.lt, h.exact, h.within, h.once⟩

/-- A weave and its groups: their walks over the table are the same. -/
structure SameWalk (st : Except WeaveFault MultiplierState) (walk : Grouping) : Prop where
  ok : ∀ m, st = .ok m → ∃ groups, walk = some (groups,m.nCombinedEndSeq)
  fault : st = .error .pastTable → walk = none

theorem fillLayers_endSeq (bits nPrime s nSieveLayers nFixedInverse : ℕ) (st : MultiplierState) :
    (fillLayers bits nPrime s nSieveLayers nFixedInverse st).nCombinedEndSeq =
      st.nCombinedEndSeq := by
  apply rangeLoop_induct
    (fun _ (t : ℕ × MultiplierState) => t.2.nCombinedEndSeq = st.nCombinedEndSeq) (Nat.zero_le _)
      never_eq_false
  · intro i t _ _ h
    exact h
  · rfl

theorem invertStep_cases (P : SieveParams) (st : MultiplierState) (s : ℕ) :
    (∃ m, invertStep P st s = .ok m ∧ m.nCombinedEndSeq = st.nCombinedEndSeq) ∨
      invertStep P st s = .error (.invertFailed s) := by
  rw [invertStep]
  dsimp only
  split_ifs
  · exact Or.inl ⟨_, rfl, rfl⟩
  · exact Or.inr rfl
  · exact Or.inl ⟨_, rfl, fillLayers_endSeq _ _ _ _ _ _⟩
  · exact Or.inl ⟨_, rfl, fillLayers_endSeq _ _ _ _ _ _⟩

theorem SameWalk.step {w s : ℕ} {st : Except WeaveFault MultiplierState} {walk : Grouping}
    (h : SameWalk st walk) :
    SameWalk (st.bind fun st => (combineStep w P st s).bind fun st => invertStep P st s)
      (groupStep P walk s) := by
  have hinvert {m : MultiplierState} {groups : List CombinedGroup} :
      SameWalk (invertStep P m s) (some (groups,m.nCombinedEndSeq)) := by
    rcases invertStep_cases P m s with ⟨m',heq,hend⟩ | herr
    · rw [heq, ← hend]
      constructor
      · intro m'' hm
        cases hm
        exact ⟨groups,rfl⟩
      · intro hm
        cases hm
    · rw [herr]
      constructor
      · intro m'' hm
        cases hm
      · intro hm
        cases hm
  cases st with
  | error fault =>
    constructor
    · intro m hm
      cases hm
    · intro hm
      rw [h.fault hm]
      rfl
  | ok m =>
    obtain ⟨groups,rfl⟩ := h.ok m rfl
    change SameWalk ((combineStep w P m s).bind fun st => invertStep P st s) _
    rw [combineStep, groupStep, Option.bind_some]
    dsimp only
    by_cases hend : s ≥ m.nCombinedEndSeq
    · rw [if_pos hend, if_pos hend]
      cases combinePrimes P.vPrimes 1 m.nCombinedEndSeq with
      | none =>
        constructor
        · intro m' hm
          cases hm
        · intro _
          rfl
      | some group => exact hinvert
    · rw [if_neg hend, if_neg hend]
      exact hinvert

theorem weaveMultipliers_sameWalk (w : ℕ) (P : SieveParams) (newBlock : WeaveCheck → Bool) :
    SameWalk (weaveMultipliers w P newBlock) (combinedGroups P newBlock) := by
  apply rangeLoop_rel SameWalk
  · intro i st walk h
    exact h.step
  · constructor
    · intro m hm
      cases hm
      exact ⟨[],rfl⟩
    · intro h
      cases h

end Groups

section Claim

/-- What the walk over the prime table should do, the indexes from `first` on being served. -/
structure CombinesInside (P : SieveParams) (first : ℕ) : Prop where
  inside : ∀ w newBlock, weaveMultipliers w P newBlock ≠ .error .pastTable
  groups : ∃ groups nCombinedEndSeq, combinedGroups P (fun _ => false) = some (groups,nCombinedEndSeq) ∧
    (∀ g ∈ groups, g.Exact P) ∧ ∀ s, first ≤ s → s < P.nPrimes → ∃! g, g ∈ groups ∧ g.Has s

variable {P : SieveParams}

/-- Up to 99 percent the walk stays inside, until a new block ends it or all the primes are served. -/
theorem combinedGroups_spec (hpct : P.settings.nSievePercentage ≤ 99)
    (newBlock : WeaveCheck → Bool) : ∃ groups nCombinedEndSeq s,
      combinedGroups P newBlock = some (groups,nCombinedEndSeq) ∧
        GroupsTo P s groups nCombinedEndSeq := by
  have hreach : ∃ i, 1 ≤ i ∧ i ≤ P.nPrimes ∧ ∃ groups e,
      combinedGroups P newBlock = some (groups,e) ∧ GroupsTo P i groups e := by
    apply rangeLoop_reaches
      (fun s (walk : Grouping) => ∃ groups e, walk = some (groups,e) ∧ GroupsTo P s groups e)
      P.one_lt_nPrimes.le
    · intro s walk h1 hs ⟨groups,e,heq,hto⟩
      rw [heq]
      exact groupStep_spec hpct h1 hs hto
    · exact ⟨[], 1, rfl, GroupsTo.start P⟩
  obtain ⟨s,_,_,groups,e,heq,hto⟩ := hreach
  exact ⟨groups, e, s, heq, hto⟩

theorem combinedGroups_all (hpct : P.settings.nSievePercentage ≤ 99) :
    ∃ groups nCombinedEndSeq, combinedGroups P (fun _ => false) = some (groups,nCombinedEndSeq) ∧
      GroupsTo P P.nPrimes groups nCombinedEndSeq := by
  apply rangeLoop_induct
    (fun s (walk : Grouping) => ∃ groups e, walk = some (groups,e) ∧ GroupsTo P s groups e)
    P.one_lt_nPrimes.le (fun _ => rfl)
  · intro s walk h1 hs ⟨groups,e,heq,hto⟩
    rw [heq]
    exact groupStep_spec hpct h1 hs hto
  · exact ⟨[], 1, rfl, GroupsTo.start P⟩

/-- For every sieve up to 99 percent: no weave reads past the prime table, whenever a new block
stops it, every divisor is the 32-bit product of its primes, and every prime from the second on is
in one group. -/
theorem combined_primes_stay_inside (P : SieveParams) (hpct : P.settings.nSievePercentage ≤ 99) :
    CombinesInside P 1 := by
  constructor
  · intro w newBlock hfault
    obtain ⟨groups,e,s,heq,_⟩ := combinedGroups_spec hpct newBlock
    rw [(weaveMultipliers_sameWalk w P newBlock).fault hfault] at heq
    cases heq
  · obtain ⟨groups,e,heq,hto⟩ := combinedGroups_all hpct
    refine ⟨groups, e, heq, hto.exact, ?_⟩
    intro s h1 hs
    have hle := hto.le
    exact hto.once s h1 (by omega)

theorem combined_primes_stay_inside_sample : CombinesInside defaultSieve 1 :=
  combined_primes_stay_inside defaultSieve (by decide)

/-- The first prime is never combined. -/
theorem first_prime_in_no_group : ¬ CombinesInside defaultSieve 0 := by
  intro h
  obtain ⟨groups,e,heq,_,honce⟩ := h.groups
  obtain ⟨groups',e',heq',hto⟩ := combinedGroups_all (P := defaultSieve) (by decide)
  rw [heq', Option.some.injEq, Prod.mk.injEq] at heq
  obtain ⟨g,⟨hg,hhas⟩,_⟩ := honce 0 le_rfl (zero_lt_one.trans defaultSieve.one_lt_nPrimes)
  rw [← heq.1] at hg
  have hstart := (hto.within g hg).1
  have hzero : g.nStartSeq ≤ 0 := hhas.1
  omega

/-- The walk takes the prime it starts with. -/
theorem combinePrimes_first {s : ℕ} (hs : s < P.vPrimes.size) : combinePrimes P.vPrimes 1 s =
    combinePrimes P.vPrimes (P.vPrimes.getD s 0) (s+1) := by
  have hprime := P.isPrimeTable.prime s hs
  have hlt := P.isPrimeTable.lt s hs
  have hsize := P.size_mem.2
  have hu : uintMax = 2^32-1 := rfl
  have hone : 1 < uintMax/P.vPrimes.getD s 0 := by
    rw [← Nat.succ_le_iff, Nat.le_div_iff_mul_le hprime.pos]
    omega
  rw [combinePrimes, if_pos hs, if_pos hone, one_mul, Nat.mod_eq_of_lt (by omega)]

/-- At a hundred percent the last group reads past the table, as its last prime is the table's. -/
theorem full_percentage_reads_past (hpct : P.settings.nSievePercentage = 100) :
    combinedGroups P (fun _ => false) = none := by
  have hall : P.nPrimes = P.vPrimes.size := by
    rw [SieveParams.nPrimes, hpct, Nat.mul_div_cancel _ (by norm_num)]
  have hend : combinedGroups P (fun _ => false) = none ∨ ∃ groups e,
      combinedGroups P (fun _ => false) = some (groups,e) ∧ GroupsTo P P.nPrimes groups e := by
    apply rangeLoop_induct (fun s (walk : Grouping) =>
      walk = none ∨ ∃ groups e, walk = some (groups,e) ∧ GroupsTo P s groups e)
      P.one_lt_nPrimes.le (fun _ => rfl)
    · intro s walk h1 hs h
      rcases h with rfl | ⟨groups,e,rfl,hto⟩
      · exact Or.inl rfl
      · rw [groupStep, Option.bind_some]
        dsimp only
        by_cases hge : s ≥ e
        · have heq : e = s := le_antisymm hge hto.le
          subst heq
          rw [if_pos hge]
          cases hcomb : combinePrimes P.vPrimes 1 e with
          | none => exact Or.inl rfl
          | some group =>
            have hfirst := hcomb
            have hprime := P.isPrimeTable.lt e hto.lt
            have hsize := P.size_mem.2
            have hu : uintMax = 2^32-1 := rfl
            rw [combinePrimes_first hto.lt] at hfirst
            have hnext := (combinePrimes_product (by omega) hfirst).1
            exact Or.inr ⟨_, _, rfl, hto.append h1 hcomb hnext⟩
        · rw [if_neg hge]
          exact Or.inr ⟨groups, e, rfl, by omega, hto.lt, hto.exact, hto.within, hto.once⟩
    · exact Or.inr ⟨[], 1, rfl, GroupsTo.start P⟩
  rcases hend with hnone | ⟨groups,e,_,hto⟩
  · exact hnone
  · -- no group ends behind the last prime
    have hle := hto.le
    have hlt := hto.lt
    omega

end Claim

end Candypool.Prime
