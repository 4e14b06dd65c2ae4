import Candypool.Chain.MainChain

/-! Block locators: `CBlockLocator` lists hashes back from a block, the further the sparser, and a
node that receives the list looks for the first one on its main chain. -/
namespace Candypool.Chain
open Candypool.Prime Candypool.Core Candypool.Coins Candypool.Lib

section Defs
variable {W : Type}

/-- The inner loop of `CBlockLocator::Set`: `nStep` times `pprev`, or down to a null pointer. -/
def stepBack (m : BlockPtr → Option CBlockIndex) : ℕ → Option BlockPtr → Option BlockPtr
  | 0, pindex => pindex
  | _+1, none => none
  | nStep+1, some p => stepBack m nStep (parentOf m p)

/-- The outer loop. A step that is taken fits an `int`, as the heights do. -/
def locatorLoop (m : BlockPtr → Option CBlockIndex) :
    ℕ → ℕ → Option BlockPtr → List BlockPtr → List BlockPtr
  | 0, _, _, vHave => vHave
  | _+1, _, none, vHave => vHave
  | fuel+1, nStep, some p, vHave =>
    let vHave := vHave ++ [p]
    let pindex := stepBack m nStep (some p)
    let nStep := if vHave.length > 10 then nStep*2 else nStep
    locatorLoop m fuel nStep pindex vHave

/-- `CBlockLocator::Set`: `vHave` for a block of the index `m`. -/
def setLocator (cons : Consensus) (m : BlockPtr → Option CBlockIndex) (pindex : BlockPtr) :
    List BlockPtr :=
  locatorLoop m (heightOf m pindex+1) 1 (some pindex) [] ++ [cons.hashGenesisBlock]

/-- The test both lookups make of an entry. -/
def knownInMainChain (s : NodeState W) (hash : BlockPtr) : Bool :=
  (s.mapBlockIndex hash).isSome && isInMainChain s hash

/-- `CBlockLocator::GetBlockIndex`. -/
def locatorBlockIndex (cons : Consensus) (s : NodeState W) : List BlockPtr → BlockPtr
  | [] => cons.hashGenesisBlock
  | hash :: vHave =>
    if knownInMainChain s hash then hash else locatorBlockIndex cons s vHave

def distanceBackLoop (s : NodeState W) : List BlockPtr → ℕ → ℕ → ℕ
  | [], nDistance, _ => nDistance
  | hash :: vHave, nDistance, nStep =>
    if knownInMainChain s hash then nDistance
    else
      let nDistance := nDistance+nStep
      let nStep := if nDistance > 10 then nStep*2 else nStep
      distanceBackLoop s vHave nDistance nStep

/-- `CBlockLocator::GetDistanceBack`. -/
def locatorDistanceBack (s : NodeState W) (vHave : List BlockPtr) : ℕ :=
  distanceBackLoop s vHave 0 1

end Defs

/-- The step from the entry `k` to the next one. -/
def locatorStep (k : ℕ) : ℕ := 2^(k-10)

/-- How far back the entry `k` is: eleven blocks in a row, then steps that double. -/
def locatorDistance (k : ℕ) : ℕ := if k ≤ 11 then k else 9+2^(k-10)

/-- The main chain of the receiver leaves the branch of `pindex` at the block `distance` below. -/
structure ForksAt {W : Type} (m : BlockPtr → Option CBlockIndex) (pindex : BlockPtr)
    (s : NodeState W) (best : BlockPtr) (distance : ℕ) : Prop where
  fork : ∃ p, stepBack m distance (some pindex) = some p ∧ Anc (parentOf s.mapBlockIndex) best p
  before : ∀ k < distance, ∀ p, stepBack m k (some pindex) = some p →
    ¬ Anc (parentOf s.mapBlockIndex) best p

/-- Both indexes name the same parent of a block that is in both: a hash covers the header. -/
def SameParents (m m' : BlockPtr → Option CBlockIndex) : Prop :=
  ∀ p, (m p).isSome = true → (m' p).isSome = true → parentOf m' p = parentOf m p

section Distance

theorem locatorStep_succ (k : ℕ) :
    locatorStep (k+1) = if k+1 > 10 then locatorStep k*2 else locatorStep k := by
  rw [locatorStep, locatorStep]
  split_ifs with hlong
  · rw [show k+1-10 = k-10+1 by omega, pow_succ]
  · rw [show k+1-10 = k-10 by omega]

theorem locatorDistance_succ (k : ℕ) :
    locatorDistance (k+1) = locatorDistance k+locatorStep k := by
  rw [locatorDistance, locatorDistance, locatorStep]
  rcases Nat.lt_trichotomy k 11 with hlt | rfl | hgt
  · rw [if_pos (by omega), if_pos (by omega), show k-10 = 0 by omega, pow_zero]
  · rfl
  · rw [if_neg (by omega), if_neg (by omega), show k+1-10 = k-10+1 by omega, pow_succ]
    omega

theorem locatorDistance_lt (k : ℕ) : locatorDistance k < locatorDistance (k+1) := by
  have hpos : 0 < locatorStep k := Nat.two_pow_pos _
  rw [locatorDistance_succ]
  omega

theorem locatorDistance_strictMono : StrictMono locatorDistance :=
  strictMono_nat_of_lt_succ locatorDistance_lt

/-- The two counters of the source pass ten at the same entry. -/
theorem locatorDistance_gt_ten (k : ℕ) : locatorDistance (k+1) > 10 ↔ k+1 > 10 := by
  have hmono := locatorDistance_strictMono
  have hten : locatorDistance 10 = 10 := rfl
  rw [← hten]
  exact ⟨fun h => hmono.lt_iff_lt.mp h,fun h => hmono.lt_iff_lt.mpr h⟩

/-- The first entry behind a distance is at most about twice as far back. -/
theorem locatorDistance_le {k distance : ℕ} (hreach : distance ≤ locatorDistance k)
    (hfirst : ∀ i < k, locatorDistance i < distance) :
    locatorDistance k ≤ max distance (2*distance-11) := by
  cases k with
  | zero => exact Nat.zero_le _
  | succ k =>
    have hlast := hfirst k (Nat.lt_succ_self k)
    rw [locatorDistance] at hreach hlast ⊢
    split_ifs at hreach hlast ⊢ with hshort
    · exact le_max_of_le_left hlast
    · omega
    · obtain rfl : k = 11 := by omega
      exact le_max_of_le_right (by omega)
    · have hpow : 2^(k+1-10) = 2^(k-10)*2 := by rw [show k+1-10 = k-10+1 by omega, pow_succ]
      exact le_max_of_le_right (by omega)

end Distance

section Walk
variable {m : BlockPtr → Option CBlockIndex} {genesis pindex : BlockPtr}

theorem stepBack_none (m : BlockPtr → Option CBlockIndex) (n : ℕ) : stepBack m n none = none := by
  cases n <;> rfl

theorem stepBack_add (m : BlockPtr → Option CBlockIndex) (a b : ℕ) (p : Option BlockPtr) :
    stepBack m (a+b) p = stepBack m b (stepBack m a p) := by
  induction a generalizing p with
  | zero => rw [Nat.zero_add, stepBack]
  | succ a ih =>
    rw [Nat.add_right_comm]
    cases p with
    | none => rw [stepBack_none, stepBack_none, stepBack_none]
    | some p => rw [stepBack, stepBack, ih]

/-- A block that is reached is so many blocks lower. -/
theorem stepBack_height (ht : TreeOk genesis m) {n : ℕ} {p q : BlockPtr}
    (hp : (m p).isSome = true) (h : stepBack m n (some p) = some q) :
    (m q).isSome = true ∧ heightOf m q+n = heightOf m p := by
  induction n generalizing p with
  | zero =>
    obtain rfl := Option.some.inj h
    exact ⟨hp,rfl⟩
  | succ n ih =>
    rw [stepBack] at h
    cases hparent : parentOf m p with
    | none =>
      rw [hparent, stepBack_none] at h
      exact absurd h.symm (Option.some_ne_none q)
    | some b =>
      obtain ⟨hmem,hheight⟩ := ht.of_parent hp hparent
      rw [hparent] at h
      obtain ⟨hq,hsum⟩ := ih hmem h
      exact ⟨hq,by omega⟩

theorem stepBack_none_of_le {a b : ℕ} {p : Option BlockPtr} (h : stepBack m a p = none)
    (hle : a ≤ b) : stepBack m b p = none := by
  obtain ⟨c,rfl⟩ := Nat.exists_eq_add_of_le hle
  rw [stepBack_add, h, stepBack_none]

theorem exists_stepBack {p q : BlockPtr} (h : Anc (parentOf m) p q) :
    ∃ n, stepBack m n (some p) = some q := by
  induction h using Relation.ReflTransGen.head_induction_on with
  | refl => exact ⟨0,rfl⟩
  | head hstep _ ih =>
    obtain ⟨n,hn⟩ := ih
    exact ⟨n+1,by rw [stepBack, hstep, hn]⟩

/-- Behind the last block there is no entry, and no block. -/
theorem getElem?_of_end {vHave : List BlockPtr} {k : ℕ} (hlen : vHave.length = k)
    (hhave : ∀ i < k, vHave[i]? = stepBack m (locatorDistance i) (some pindex))
    (hend : stepBack m (locatorDistance k) (some pindex) = none) (i : ℕ) :
    vHave[i]? = stepBack m (locatorDistance i) (some pindex) := by
  by_cases hi : i < k
  · exact hhave i hi
  · rw [stepBack_none_of_le hend (locatorDistance_strictMono.monotone (not_lt.mp hi)),
      List.getElem?_eq_none (by omega)]

/-- The walk goes on where `vHave` ends, and each entry is as far back as its place says. -/
theorem locatorLoop_getElem? (ht : TreeOk genesis m) (hp : (m pindex).isSome = true) {fuel k : ℕ}
    {vHave : List BlockPtr} (hlen : vHave.length = k)
    (hhave : ∀ i < k, vHave[i]? = stepBack m (locatorDistance i) (some pindex))
    (hfuel : heightOf m pindex < locatorDistance k+fuel) (i : ℕ) :
    (locatorLoop m fuel (locatorStep k) (stepBack m (locatorDistance k) (some pindex)) vHave)[i]? =
      stepBack m (locatorDistance i) (some pindex) := by
  -- the entries so far stand at their distances, and the loop adds those that follow
  induction fuel generalizing k vHave with
  | zero =>
    refine getElem?_of_end hlen hhave ?_ i
    cases hcur : stepBack m (locatorDistance k) (some pindex) with
    | none => rfl
    | some p =>
      -- no fuel is left, but the walk has not come to the end: it is too long for that
      have hheight := (stepBack_height ht hp hcur).2
      omega
  | succ fuel ih =>
    cases hcur : stepBack m (locatorDistance k) (some pindex) with
    | none => exact getElem?_of_end hlen hhave hcur i
    | some p =>
      have hnext : stepBack m (locatorStep k) (some p) =
          stepBack m (locatorDistance (k+1)) (some pindex) := by
        rw [locatorDistance_succ, stepBack_add, hcur]
      have hlen' : (vHave ++ [p]).length = k+1 := by
        rw [List.length_append, hlen, List.length_singleton]
      have hhave' : ∀ i < k+1, (vHave ++ [p])[i]? =
          stepBack m (locatorDistance i) (some pindex) := by
        intro i hi
        by_cases hlast : i = k
        · rw [hlast, List.getElem?_append_right hlen.le, hlen, Nat.sub_self, hcur]
          rfl
        · rw [List.getElem?_append_left (by omega)]
          exact hhave i (by omega)
      have hfuel' : heightOf m pindex < locatorDistance (k+1)+fuel := by
        have hlt := locatorDistance_lt k
        omega
      rw [locatorLoop, hlen', hnext, ← locatorStep_succ]
      exact ih hlen' hhave' hfuel'

/-- The entries of the walk, and the genesis block behind them. -/
theorem setLocator_eq (cons : Consensus) (ht : TreeOk genesis m) (hp : (m pindex).isSome = true) :
    ∃ walk, setLocator cons m pindex = walk ++ [cons.hashGenesisBlock] ∧
      ∀ i, walk[i]? = stepBack m (locatorDistance i) (some pindex) :=
  ⟨_,rfl,@locatorLoop_getElem? m genesis pindex ht hp _ 0 [] rfl
    (fun i hi => absurd hi (Nat.not_lt_zero i)) (by
      rw [show locatorDistance 0 = 0 from rfl]
      omega)⟩

end Walk

section Lookup
variable {W : Type} {cons : Consensus} {s : NodeState W} {best pindex : BlockPtr}
  {m : BlockPtr → Option CBlockIndex} {distance : ℕ}

theorem knownInMainChain_iff (htip : TipAt cons s best) (hash : BlockPtr) :
    knownInMainChain s hash = true ↔ Anc (parentOf s.mapBlockIndex) best hash := by
  rw [knownInMainChain, Bool.and_eq_true, htip.isInMainChain_iff]
  exact ⟨fun h => h.2,fun h => ⟨htip.tree.anc_mem htip.mem h,h⟩⟩

/-- Entries that are not on the main chain are passed over, in step with their distances. -/
theorem lookup_skip {passed : List BlockPtr}
    (hpassed : ∀ hash ∈ passed, knownInMainChain s hash = false) (vHave : List BlockPtr) (k : ℕ) :
    locatorBlockIndex cons s (passed ++ vHave) = locatorBlockIndex cons s vHave ∧
    distanceBackLoop s (passed ++ vHave) (locatorDistance k) (locatorStep k) =
      distanceBackLoop s vHave (locatorDistance (k+passed.length))
        (locatorStep (k+passed.length)) := by
  induction passed generalizing k with
  | nil => exact ⟨rfl,rfl⟩
  | cons hash passed ih =>
    have hfirst := hpassed hash List.mem_cons_self
    obtain ⟨hindex,hback⟩ := ih (fun hash hmem => hpassed hash (List.mem_cons_of_mem _ hmem)) (k+1)
    have hstep : (if locatorDistance (k+1) > 10 then locatorStep k*2 else locatorStep k) =
        locatorStep (k+1) := by
      rw [locatorStep_succ]
      simp only [locatorDistance_gt_ten]
    rw [List.cons_append, locatorBlockIndex, distanceBackLoop, hfirst, if_neg Bool.false_ne_true,
      if_neg Bool.false_ne_true, ← locatorDistance_succ]
    dsimp only
    rw [hstep, List.length_cons, show k+(passed.length+1) = k+1+passed.length by omega]
    exact ⟨hindex,hback⟩

/-- Behind the fork both chains are the same. -/
theorem ForksAt.main (h : ForksAt m pindex s best distance) (htip : TipAt cons s best)
    {genesis : BlockPtr} (ht : TreeOk genesis m) (hp : (m pindex).isSome = true)
    (hsame : SameParents m s.mapBlockIndex) {k : ℕ} {q : BlockPtr} (hk : distance ≤ k)
    (hq : stepBack m k (some pindex) = some q) : Anc (parentOf s.mapBlockIndex) best q := by
  obtain ⟨n,rfl⟩ := Nat.exists_eq_add_of_le hk
  -- from the fork back, by induction on the steps behind it
  obtain ⟨p,hfork,hbest⟩ := h.fork
  have hmem := (stepBack_height ht hp hfork).1
  rw [stepBack_add, hfork] at hq
  clear hfork
  induction n generalizing p with
  | zero =>
    obtain rfl := Option.some.inj hq
    exact hbest
  | succ n ih =>
    rw [stepBack] at hq
    cases hparent : parentOf m p with
    | none =>
      rw [hparent, stepBack_none] at hq
      exact absurd hq.symm (Option.some_ne_none q)
    | some b =>
      have hparent' : parentOf s.mapBlockIndex p = some b :=
        (hsame p hmem (htip.tree.anc_mem htip.mem hbest)).trans hparent
      rw [hparent] at hq
      exact ih (Nat.le_add_right _ _) b hq (hbest.trans (Anc.of_parent hparent' (Anc.refl b)))
        (ht.of_parent hmem hparent).1

/-- Two nodes with the same genesis block have a fork for every block. -/
theorem exists_forksAt (htip : TipAt cons s best) (ht : TreeOk cons.hashGenesisBlock m)
    (hp : (m pindex).isSome = true) : ∃ distance, ForksAt m pindex s best distance := by
  obtain ⟨n,hn⟩ := exists_stepBack (ht.anc_root hp)
  have hex : ∃ k p, stepBack m k (some pindex) = some p ∧
      Anc (parentOf s.mapBlockIndex) best p :=
    ⟨n,_,hn,htip.tree.anc_root htip.mem⟩
  classical
  refine ⟨Nat.find hex,Nat.find_spec hex,?_⟩
  intro k hk p hstep hanc
  exact Nat.find_min hex hk ⟨p,hstep,hanc⟩

/-- A locator finds the fork, or a block not much more than twice as far back, and the receiver
knows how far that is; where the entries do not reach the fork it finds the genesis block. -/
theorem locator_finds_fork (ht : TreeOk cons.hashGenesisBlock m) (hp : (m pindex).isSome = true)
    (htip : TipAt cons s best) (hsame : SameParents m s.mapBlockIndex)
    (hfork : ForksAt m pindex s best distance) :
    let vHave := setLocator cons m pindex
    (∀ k, k+1 < vHave.length → vHave[k]? = stepBack m (locatorDistance k) (some pindex)) ∧
    ((∃ k, k+1 < vHave.length ∧ distance ≤ locatorDistance k ∧
        locatorDistance k ≤ max distance (2*distance-11) ∧
        stepBack m (locatorDistance k) (some pindex) = some (locatorBlockIndex cons s vHave) ∧
        Anc (parentOf s.mapBlockIndex) best (locatorBlockIndex cons s vHave) ∧
        locatorDistanceBack s vHave = locatorDistance k) ∨
      (∀ k, k+1 < vHave.length → locatorDistance k < distance) ∧
        locatorBlockIndex cons s vHave = cons.hashGenesisBlock) := by
  obtain ⟨walk,hlocator,hwalk⟩ := setLocator_eq cons ht hp
  have hlength : (walk ++ [cons.hashGenesisBlock]).length = walk.length+1 := by
    rw [List.length_append, List.length_singleton]
  have hbefore {i : ℕ} {hash : BlockPtr} (hi : walk[i]? = some hash)
      (hlt : locatorDistance i < distance) : knownInMainChain s hash = false := by
    rw [hwalk] at hi
    exact Bool.eq_false_iff.mpr fun hknown =>
      hfork.before _ hlt hash hi ((knownInMainChain_iff htip hash).mp hknown)
  rw [hlocator]
  dsimp only
  rw [hlength]
  refine ⟨?_,?_⟩
  · intro k hk
    rw [List.getElem?_append_left (by omega), hwalk]
  by_cases hex : ∃ k < walk.length, distance ≤ locatorDistance k
  · -- the first entry that is not before the fork
    obtain ⟨k,⟨hk,hreach⟩,hleast⟩ : ∃ k, (k < walk.length ∧ distance ≤ locatorDistance k) ∧
        ∀ i < k, ¬ (i < walk.length ∧ distance ≤ locatorDistance i) := by
      classical exact ⟨Nat.find hex,Nat.find_spec hex,fun i hi => Nat.find_min hex hi⟩
    have hfirst : ∀ i < k, locatorDistance i < distance := by
      intro i hi
      by_contra hge
      exact hleast i hi ⟨hi.trans hk,not_lt.mp hge⟩
    have hentry := hwalk k
    rw [List.getElem?_eq_getElem hk] at hentry
    have hmain := hfork.main htip ht hp hsame hreach hentry.symm
    have hsplit : walk ++ [cons.hashGenesisBlock] =
        walk.take k ++ (walk[k] :: (walk.drop (k+1) ++ [cons.hashGenesisBlock])) := by
      rw [← List.cons_append, ← List.drop_eq_getElem_cons hk, ← List.append_assoc,
        List.take_append_drop]
    have hpassed : ∀ hash ∈ walk.take k, knownInMainChain s hash = false := by
      intro hash hmem
      obtain ⟨i,hi,hget⟩ := List.mem_take_iff_getElem.mp hmem
      have hik : i < k := (lt_min_iff.mp hi).1
      exact hbefore (hget ▸ List.getElem?_eq_getElem (hik.trans hk)) (hfirst i hik)
    obtain ⟨hindex,hback⟩ := @lookup_skip W cons s (walk.take k) hpassed
      (walk[k] :: (walk.drop (k+1) ++ [cons.hashGenesisBlock])) 0
    have hknown := (knownInMainChain_iff htip walk[k]).mpr hmain
    rw [locatorBlockIndex, hknown, if_pos rfl] at hindex
    rw [distanceBackLoop, hknown, if_pos rfl, List.length_take_of_le hk.le, Nat.zero_add] at hback
    rw [hsplit]
    refine Or.inl ⟨k,by omega,hreach,locatorDistance_le hreach hfirst,?_,?_,hback⟩
    · rw [hindex]
      exact hentry.symm
    · rw [hindex]
      exact hmain
  -- no entry is as far back as the fork, so all are passed over but the genesis block
  · have hfar : ∀ k < walk.length, locatorDistance k < distance := by
      intro k hk
      by_contra hge
      exact hex ⟨k,hk,not_lt.mp hge⟩
    have hpassed : ∀ hash ∈ walk, knownInMainChain s hash = false := by
      intro hash hmem
      obtain ⟨i,hi,hget⟩ := List.getElem_of_mem hmem
      exact hbefore (hget ▸ List.getElem?_eq_getElem hi) (hfar i hi)
    refine Or.inr ⟨fun k hk => hfar k (by omega),?_⟩
    rw [(@lookup_skip W cons s walk hpassed [cons.hashGenesisBlock] 0).1, locatorBlockIndex,
      locatorBlockIndex]
    split_ifs <;> rfl

end Lookup

section TestNet
open HeightCache

/-- The sender is one block ahead of a node that has the genesis block only. -/
theorem locator_finds_fork_testNet :
    locatorBlockIndex testNet testStart (setLocator testNet testCache.node.mapBlockIndex testHashA) =
      testGenesisHash := by
  have htip : TipAt testNet testStart testGenesisHash := loadedGenesis_tip testGenesis ()
  have hother : ∀ p, p ≠ testGenesisHash → testStart.mapBlockIndex p = none := fun p hp => if_neg hp
  have hparent : parentOf testStart.mapBlockIndex testGenesisHash = none := by decide +kernel
  have hsender : parentOf testCache.node.mapBlockIndex testHashA = some testGenesisHash ∧
      parentOf testCache.node.mapBlockIndex testGenesisHash = none ∧
      testHashA ≠ testGenesisHash ∧
      (testCache.node.mapBlockIndex testHashA).isSome = true := by
    decide +kernel
  obtain ⟨hstep,hroot,hne,hmem⟩ := hsender
  obtain ⟨best,hsent,-⟩ := HeightCache.run_ok testCache_run
  -- the walk from the genesis block sees nothing but the genesis block
  have honly : ∀ p, Anc (parentOf testStart.mapBlockIndex) testGenesisHash p →
      p = testGenesisHash := by
    intro p hanc
    by_contra hne
    have hmain := htip.tree.anc_mem htip.mem hanc
    rw [hother p hne] at hmain
    exact absurd hmain Bool.false_ne_true
  have hsame : SameParents testCache.node.mapBlockIndex testStart.mapBlockIndex := by
    intro p _ hp
    by_cases hgenesis : p = testGenesisHash
    · rw [hgenesis, hparent, hroot]
    · rw [hother p hgenesis] at hp
      exact absurd hp Bool.false_ne_true
  -- the first step back from the sender's tip is the fork
  have hfork : ForksAt testCache.node.mapBlockIndex testHashA testStart testGenesisHash 1 := by
    refine ⟨⟨testGenesisHash,by rw [stepBack, hstep, stepBack],Anc.refl _⟩,?_⟩
    intro k hk p hstepped hanc
    obtain rfl := Nat.lt_one_iff.mp hk
    obtain rfl := Option.some.inj hstepped
    exact hne (honly _ hanc)
  obtain ⟨-,⟨k,-,-,-,-,hanc,-⟩ | ⟨-,hgenesis⟩⟩ :=
    locator_finds_fork hsent.tree hmem htip hsame hfork
  · exact honly _ hanc
  · exact hgenesis

end TestNet

end Candypool.Chain
