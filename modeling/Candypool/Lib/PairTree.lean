import Mathlib.Data.List.Nodup
import Mathlib.Algebra.Order.Group.Nat
import Mathlib.Tactic.Ring

/-! Trees that are built level by level over a list: neighbours are paired from the left, and the
last node of an odd level is paired with itself. -/
namespace Candypool.Lib

section Pairs
variable {α : Type*}

def pairUp : List α → List (α × α)
  | [] => []
  | [a] => [(a,a)]
  | a :: b :: level => (a,b) :: pairUp level

theorem pairUp_length (level : List α) : (pairUp level).length = (level.length+1)/2 := by
  induction level using pairUp.induct with
  | case1 => simp [pairUp]
  | case2 a => simp [pairUp]
  | case3 a b level ih =>
    rw [pairUp, List.length_cons, List.length_cons, List.length_cons, ih]
    omega

theorem pairUp_getElem? (level : List α) (i : ℕ) :
    (pairUp level)[i]? = level[2*i]?.map fun a => (a, level[2*i+1]?.getD a) := by
  induction level using pairUp.induct generalizing i with
  | case1 => rfl
  | case2 a =>
    cases i with
    | zero => rfl
    | succ i =>
      have hpair : (pairUp [a])[i+1]? = none := List.getElem?_eq_none (by simp [pairUp])
      have hleft : [a][2*(i+1)]? = none := List.getElem?_eq_none (by rw [List.length_singleton]; omega)
      rw [hpair, hleft, Option.map_none]
  | case3 a b level ih =>
    cases i with
    | zero => rfl
    | succ i =>
      rw [pairUp, List.getElem?_cons_succ, ih i, show 2*(i+1) = 2*i+1+1 by ring]
      rfl

/-- Without repetitions a level is what its pairs say: the doubled node of an odd level would be a
repetition in an even one. -/
theorem pairUp_injOn_nodup {level level' : List α} (hnodup : level.Nodup) (hnodup' : level'.Nodup)
    (heq : pairUp level = pairUp level') : level = level' := by
  have hdouble : ∀ {a c d : α} {l : List α}, (c :: d :: l).Nodup → (a,a) ≠ (c,d) := by
    intro a c d l hcd hpair
    obtain ⟨rfl,rfl⟩ := Prod.mk.inj hpair
    exact (List.nodup_cons.mp hcd).1 List.mem_cons_self
  induction level using pairUp.induct generalizing level' with
  | case1 =>
    have hlen := congrArg List.length heq
    rw [pairUp_length, pairUp_length] at hlen
    exact (List.length_eq_zero_iff.mp (by rw [List.length_nil] at hlen; omega)).symm
  | case2 a =>
    cases level' using pairUp.induct with
    | case1 => exact absurd heq (List.cons_ne_nil _ _)
    | case2 c =>
      obtain ⟨hpair,-⟩ := List.cons.inj heq
      rw [(Prod.mk.inj hpair).1]
    | case3 c d l ih =>
      obtain ⟨hpair,-⟩ := List.cons.inj heq
      exact absurd hpair (hdouble hnodup')
  | case3 a b level ih =>
    cases level' using pairUp.induct with
    | case1 => exact absurd heq (List.cons_ne_nil _ _)
    | case2 c =>
      obtain ⟨hpair,-⟩ := List.cons.inj heq
      exact absurd hpair.symm (hdouble hnodup)
    | case3 c d l ih' =>
      obtain ⟨hpair,htail⟩ := List.cons.inj heq
      obtain ⟨rfl,rfl⟩ := Prod.mk.inj hpair
      have hrest := (List.nodup_cons.mp (List.nodup_cons.mp hnodup).2).2
      have hrest' := (List.nodup_cons.mp (List.nodup_cons.mp hnodup').2).2
      rw [ih hrest hrest' htail]

theorem pairUp_nodup_fst {level : List α} (hnodup : level.Nodup) :
    ((pairUp level).map Prod.fst).Nodup := by
  have hsub : ∀ l : List α, ((pairUp l).map Prod.fst).Sublist l := by
    intro l
    induction l using pairUp.induct with
    | case1 => exact List.Sublist.refl _
    | case2 a => exact List.Sublist.refl _
    | case3 a b l ih => exact (ih.cons b).cons_cons a
  exact hnodup.sublist (hsub level)

end Pairs

section Levels
variable {α : Type*} (f : α → α → α)

def nextLevel (level : List α) : List α := (pairUp level).map fun pair => f pair.1 pair.2

/-- The level at height `h` over the leaves. -/
def levelAt (leaves : List α) : ℕ → List α
  | 0 => leaves
  | h+1 => nextLevel f (levelAt leaves h)

/-- No two of the pairs collide. -/
def CollisionFree (pairs : List (α × α)) : Prop :=
  ∀ p ∈ pairs, ∀ q ∈ pairs, f p.1 p.2 = f q.1 q.2 → p = q

instance [DecidableEq α] (pairs : List (α × α)) : Decidable (CollisionFree f pairs) :=
  inferInstanceAs (Decidable (∀ p ∈ pairs, ∀ q ∈ pairs, f p.1 p.2 = f q.1 q.2 → p = q))

/-- The number of nodes at height `h` over `n` leaves. -/
def treeWidth (n h : ℕ) : ℕ := (n+2^h-1)/2^h

variable {f}

theorem CollisionFree.mono {pairs pairs' : List (α × α)} (hfree : CollisionFree f pairs)
    (hsub : pairs' ⊆ pairs) : CollisionFree f pairs' :=
  fun p hp q hq heq => hfree p (hsub hp) q (hsub hq) heq

theorem nextLevel_length (level : List α) : (nextLevel f level).length = (level.length+1)/2 := by
  rw [nextLevel, List.length_map, pairUp_length]

theorem treeWidth_zero (n : ℕ) : treeWidth n 0 = n := by
  rw [treeWidth, pow_zero, Nat.div_one, Nat.add_sub_cancel]

theorem treeWidth_succ (n h : ℕ) : treeWidth n (h+1) = (treeWidth n h+1)/2 := by
  have hpos : 0 < 2^h := Nat.two_pow_pos h
  rw [treeWidth, treeWidth, pow_succ, ← Nat.div_div_eq_div_mul]
  congr 1
  rw [show n+2^h*2-1 = (n+2^h-1)+2^h by omega, Nat.add_div_right _ hpos]

theorem levelAt_length (leaves : List α) (h : ℕ) :
    (levelAt f leaves h).length = treeWidth leaves.length h := by
  induction h with
  | zero => rw [levelAt, treeWidth_zero]
  | succ h ih => rw [levelAt, nextLevel_length, ih, treeWidth_succ]

theorem levelAt_nextLevel (leaves : List α) (h : ℕ) :
    levelAt f (nextLevel f leaves) h = levelAt f leaves (h+1) := by
  induction h with
  | zero => rfl
  | succ h ih => rw [levelAt, ih, levelAt, levelAt, levelAt]

theorem treeWidth_pos {n : ℕ} (hn : 0 < n) (h : ℕ) : 0 < treeWidth n h := by
  induction h with
  | zero => rwa [treeWidth_zero]
  | succ h ih =>
    rw [treeWidth_succ]
    omega

theorem lt_treeWidth_iff {n h pos : ℕ} : pos < treeWidth n h ↔ pos*2^h < n := by
  have hpos : 0 < 2^h := Nat.two_pow_pos h
  rw [treeWidth, Nat.lt_iff_add_one_le, Nat.le_div_iff_mul_le hpos, Nat.add_mul, Nat.one_mul]
  omega

theorem treeWidth_mono {n h h' : ℕ} (hle : h ≤ h') : treeWidth n h' ≤ treeWidth n h := by
  induction h', hle using Nat.le_induction with
  | base => exact le_rfl
  | succ h' _ ih =>
    rw [treeWidth_succ]
    omega

/-- The height of the root: the first height with one node. -/
structure RootHeight (n h : ℕ) : Prop where
  single : treeWidth n h = 1
  below : ∀ i < h, 1 < treeWidth n i

theorem RootHeight.unique {n h h' : ℕ} (hroot : RootHeight n h) (hroot' : RootHeight n h') :
    h = h' := by
  rcases Nat.lt_trichotomy h h' with hlt | heq | hlt
  · have := hroot'.below h hlt
    have := hroot.single
    omega
  · exact heq
  · have := hroot.below h' hlt
    have := hroot'.single
    omega

theorem nextLevel_nodup {level : List α} (hnodup : level.Nodup)
    (hfree : CollisionFree f (pairUp level)) : (nextLevel f level).Nodup := by
  rw [nextLevel]
  refine List.Nodup.map_on ?_ (List.Nodup.of_map Prod.fst (pairUp_nodup_fst hnodup))
  exact fun p hp q hq heq => hfree p hp q hq heq

theorem nextLevel_injOn {level level' : List α} (hnodup : level.Nodup) (hnodup' : level'.Nodup)
    (hfree : CollisionFree f (pairUp level ++ pairUp level'))
    (heq : nextLevel f level = nextLevel f level') : level = level' := by
  apply pairUp_injOn_nodup hnodup hnodup'
  have hlen : (pairUp level).length = (pairUp level').length := by
    have hmap := congrArg List.length heq
    rwa [nextLevel, nextLevel, List.length_map, List.length_map] at hmap
  apply List.ext_getElem hlen
  intro i hi hi'
  apply hfree _ (List.mem_append_left _ (List.getElem_mem hi)) _
    (List.mem_append_right _ (List.getElem_mem hi'))
  have hget : (nextLevel f level)[i]? = (nextLevel f level')[i]? := by rw [heq]
  rw [nextLevel, nextLevel, List.getElem?_map, List.getElem?_map, List.getElem?_eq_getElem hi,
    List.getElem?_eq_getElem hi'] at hget
  exact Option.some.inj hget

/-- Leaves without repetitions are determined by the level at any height, as long as none of the
pairs hashed below collide. -/
theorem levelAt_injOn {leaves leaves' : List α} (hnodup : leaves.Nodup) (hnodup' : leaves'.Nodup)
    {h : ℕ} {pairs : List (α × α)} (hfree : CollisionFree f pairs)
    (hsub : ∀ i < h, pairUp (levelAt f leaves i) ⊆ pairs)
    (hsub' : ∀ i < h, pairUp (levelAt f leaves' i) ⊆ pairs)
    (heq : levelAt f leaves h = levelAt f leaves' h) : leaves = leaves' := by
  have hup : ∀ l : List α, l.Nodup → (∀ i < h, pairUp (levelAt f l i) ⊆ pairs) →
      ∀ i ≤ h, (levelAt f l i).Nodup := by
    intro l hl hin i
    induction i with
    | zero => exact fun _ => hl
    | succ i ih =>
      intro hi
      exact nextLevel_nodup (ih (by omega)) (hfree.mono (hin i (by omega)))
  have hdown : ∀ d ≤ h, levelAt f leaves (h-d) = levelAt f leaves' (h-d) := by
    intro d
    induction d with
    | zero => exact fun _ => heq
    | succ d ih =>
      intro hd
      have habove := ih (by omega)
      rw [show h-d = (h-(d+1))+1 by omega] at habove
      refine nextLevel_injOn (hup leaves hnodup hsub _ (by omega))
        (hup leaves' hnodup' hsub' _ (by omega)) (hfree.mono ?_) habove
      exact List.append_subset.mpr ⟨hsub _ (by omega), hsub' _ (by omega)⟩
  have hbottom := hdown h le_rfl
  rwa [Nat.sub_self] at hbottom

/-- A node over the two nodes below it, the last one of an odd level over itself. -/
theorem levelAt_succ_getElem? (leaves : List α) (h pos : ℕ) :
    (levelAt f leaves (h+1))[pos]? = (levelAt f leaves h)[2*pos]?.map fun left =>
      f left ((levelAt f leaves h)[2*pos+1]?.getD left) := by
  rw [levelAt, nextLevel, List.getElem?_map, pairUp_getElem?, Option.map_map]
  rfl

/-- The children of a node, and that they are hashed as a pair. -/
theorem children_of_node {leaves : List α} {h pos : ℕ} {v : α}
    (hv : (levelAt f leaves (h+1))[pos]? = some v) :
    ∃ left, (levelAt f leaves h)[2*pos]? = some left ∧
      (left, (levelAt f leaves h)[2*pos+1]?.getD left) ∈ pairUp (levelAt f leaves h) ∧
      f left ((levelAt f leaves h)[2*pos+1]?.getD left) = v := by
  rw [levelAt_succ_getElem?] at hv
  obtain ⟨left,hleft,hhash⟩ := Option.map_eq_some_iff.mp hv
  have hpair := pairUp_getElem? (levelAt f leaves h) pos
  rw [hleft, Option.map_some] at hpair
  exact ⟨left, hleft, List.mem_of_getElem? hpair, hhash⟩

/-- The first leaf is determined by the first node at any height. -/
theorem levelAt_first {leaves leaves' : List α} {h : ℕ} {pairs : List (α × α)} {v : α}
    (hfree : CollisionFree f pairs) (hsub : ∀ i < h, pairUp (levelAt f leaves i) ⊆ pairs)
    (hsub' : ∀ i < h, pairUp (levelAt f leaves' i) ⊆ pairs)
    (hv : (levelAt f leaves h)[0]? = some v) (hv' : (levelAt f leaves' h)[0]? = some v) :
    leaves[0]? = leaves'[0]? := by
  induction h generalizing v with
  | zero =>
    rw [levelAt] at hv hv'
    rw [hv, hv']
  | succ h ih =>
    obtain ⟨left,hleft,hpair,hhash⟩ := children_of_node hv
    obtain ⟨left',hleft',hpair',hhash'⟩ := children_of_node hv'
    have heq := hfree _ (hsub h (Nat.lt_succ_self h) hpair) _ (hsub' h (Nat.lt_succ_self h) hpair')
      (hhash.trans hhash'.symm)
    obtain ⟨rfl,-⟩ := Prod.mk.inj heq
    exact ih (fun i hi => hsub i (by omega)) (fun i hi => hsub' i (by omega)) hleft hleft'

end Levels

end Candypool.Lib
