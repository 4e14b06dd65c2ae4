import Mathlib.Logic.Relation
import Mathlib.Data.Option.Basic
import Mathlib.Tactic.Common

/-! Trees kept as parent pointers with a height at every node: climbing to a height, the last
node two branches share, and the list of nodes between a node and one above it. -/
namespace Candypool.Lib

section Defs
variable {α : Type*} (parent : α → Option α) (height : α → ℕ)

/-- `b` is `a` itself or a node above it. -/
def Anc (a b : α) : Prop := Relation.ReflTransGen (fun x y => parent x = some y) a b

/-- The nodes in `mem` hang together under one root and carry their heights. -/
structure IsTree (mem : α → Prop) (root : α) : Prop where
  root_mem : mem root
  root_parent : parent root = none
  root_height : height root = 0
  step : ∀ a, mem a → a ≠ root → ∃ p, parent a = some p ∧ mem p ∧ height a = height p+1

/-- Climb while the node is higher than `h`. -/
def climb (h : ℕ) : ℕ → α → Option α
  | 0, _ => none
  | fuel+1, a => if height a > h then (parent a).bind (climb h fuel) else some a

/-- Bring the second node down to the height of the first, then move the first one on, until
they meet. -/
def findFork [DecidableEq α] : ℕ → α → α → Option α
  | 0, _, _ => none
  | fuel+1, a, b =>
    if a = b then some a
    else match climb parent height (height a) (height b+1) b with
      | none => none
      | some b =>
        if a = b then some a
        else (parent a).bind fun p => findFork fuel p b

/-- The nodes from one node up to another, which is left out. -/
def pathTo [DecidableEq α] (stop : Option α) : ℕ → Option α → Option (List α)
  | fuel, a =>
    if a = stop then some []
    else match fuel, a with
      | fuel+1, some x => (pathTo stop fuel (parent x)).map (x :: ·)
      | _, _ => none

/-- `l` leads from `a` up to `b`, `b` left out. -/
inductive Path : α → List α → α → Prop
  | nil (a : α) : Path a [] a
  | cons {a b c : α} {l : List α} (step : parent a = some b) (rest : Path b l c) :
      Path a (a :: l) c

/-- `l` leads from `b`, which is left out, down to `a`. -/
inductive Down : α → List α → α → Prop
  | nil (a : α) : Down a [] a
  | cons {a b c : α} {l : List α} (step : parent b = some a) (rest : Down b l c) :
      Down a (b :: l) c

end Defs

section Anc
variable {α : Type*} {parent : α → Option α} {height : α → ℕ} {mem : α → Prop} {root : α}

theorem Anc.refl (a : α) : Anc parent a a := Relation.ReflTransGen.refl

theorem Anc.trans {a b c : α} (h : Anc parent a b) (h' : Anc parent b c) : Anc parent a c :=
  Relation.ReflTransGen.trans h h'

theorem Anc.of_parent {a b c : α} (h : parent a = some b) (h' : Anc parent b c) :
    Anc parent a c := Relation.ReflTransGen.head h h'

theorem Anc.cases {a c : α} (h : Anc parent a c) :
    a = c ∨ ∃ b, parent a = some b ∧ Anc parent b c :=
  Relation.ReflTransGen.cases_head h

/-- Of two nodes above one node, one is above the other. -/
theorem Anc.total {a b c : α} (h : Anc parent a b) (h' : Anc parent a c) :
    Anc parent b c ∨ Anc parent c b := by
  apply Relation.ReflTransGen.total_of_right_unique _ h h'
  intro x y z hy hz
  exact Option.some.inj (hy.symm.trans hz)

namespace IsTree

theorem of_parent (ht : IsTree parent height mem root) {a p : α} (ha : mem a)
    (hp : parent a = some p) : mem p ∧ height a = height p+1 := by
  have hne : a ≠ root := by
    intro heq
    rw [heq, ht.root_parent] at hp
    cases hp
  obtain ⟨p',hp',hmem,hheight⟩ := ht.step a ha hne
  obtain rfl := Option.some.inj (hp'.symm.trans hp)
  exact ⟨hmem, hheight⟩

theorem anc_mem (ht : IsTree parent height mem root) {a b : α} (ha : mem a)
    (h : Anc parent a b) : mem b := by
  induction h with
  | refl => exact ha
  | tail _ hstep ih => exact (ht.of_parent ih hstep).1

theorem anc_height (ht : IsTree parent height mem root) {a b : α} (ha : mem a)
    (h : Anc parent a b) : height b ≤ height a := by
  induction h with
  | refl => exact Nat.le_refl _
  | tail hpre hstep ih =>
    have := (ht.of_parent (ht.anc_mem ha hpre) hstep).2
    omega

/-- A node above another one at the same height is that node. -/
theorem eq_of_anc_height (ht : IsTree parent height mem root) {a b : α} (ha : mem a)
    (h : Anc parent a b) (hh : height a ≤ height b) : a = b := by
  rcases h.cases with heq | ⟨p,hp,hrest⟩
  · exact heq
  · obtain ⟨hmem,hheight⟩ := ht.of_parent ha hp
    have := ht.anc_height hmem hrest
    omega

theorem anc_root (ht : IsTree parent height mem root) {a : α} (ha : mem a) :
    Anc parent a root := by
  induction hn : height a generalizing a with
  | zero =>
    by_cases hroot : a = root
    · rw [hroot]
      exact Anc.refl root
    · obtain ⟨p,-,-,hheight⟩ := ht.step a ha hroot
      omega
  | succ n ih =>
    by_cases hroot : a = root
    · rw [hroot]
      exact Anc.refl root
    · obtain ⟨p,hp,hmem,hheight⟩ := ht.step a ha hroot
      exact Anc.of_parent hp (ih hmem (by omega))

/-- A node above `a` and no higher than `b`, which is above `a` too, is above `b`. -/
theorem anc_of_height (ht : IsTree parent height mem root) {a b c : α} (ha : mem a)
    (hb : Anc parent a b) (hc : Anc parent a c) (hh : height c ≤ height b) : Anc parent b c := by
  rcases hb.total hc with h | h
  · exact h
  · obtain rfl := ht.eq_of_anc_height (ht.anc_mem ha hc) h hh
    exact Anc.refl c

/-- Climbing ends at a node of the height asked for, or at the node itself if it is not higher;
nothing low enough is lost on the way. -/
theorem climb_spec (ht : IsTree parent height mem root) {h fuel : ℕ} {a : α} (ha : mem a)
    (hfuel : height a < fuel) :
    ∃ b, climb parent height h fuel a = some b ∧ Anc parent a b ∧ height b ≤ h ∧
      (h ≤ height a → height b = h) := by
  induction fuel generalizing a with
  | zero => omega
  | succ fuel ih =>
    rw [climb]
    by_cases hgt : height a > h
    · have hne : a ≠ root := by
        intro heq
        rw [heq, ht.root_height] at hgt
        omega
      obtain ⟨p,hp,hmem,hheight⟩ := ht.step a ha hne
      obtain ⟨b,hb,hanc,hle,heq⟩ := ih hmem (by omega)
      rw [if_pos hgt, hp]
      exact ⟨b, hb, Anc.of_parent hp hanc, hle, fun _ => heq (by omega)⟩
    · rw [if_neg hgt]
      exact ⟨a, rfl, Anc.refl a, by omega, fun _ => by omega⟩

/-- The nodes meet at the last node the two branches share. -/
theorem findFork_spec [DecidableEq α] (ht : IsTree parent height mem root) {fuel : ℕ} {a b : α}
    (ha : mem a) (hb : mem b) (hfuel : height a < fuel) :
    ∃ f, findFork parent height fuel a b = some f ∧ Anc parent a f ∧ Anc parent b f ∧
      ∀ c, Anc parent a c → Anc parent b c → Anc parent f c := by
  induction fuel generalizing a b with
  | zero => omega
  | succ fuel ih =>
    rw [findFork]
    by_cases hab : a = b
    · rw [if_pos hab]
      exact ⟨a, rfl, Anc.refl a, hab ▸ Anc.refl a, fun c hc _ => hc⟩
    obtain ⟨b',hclimb,hanc,hle,heq⟩ := ht.climb_spec (h := height a) hb (Nat.lt_succ_self _)
    -- a common node is no higher than `a`, so the climb does not pass it
    have hkeep : ∀ c, Anc parent a c → Anc parent b c → Anc parent b' c := by
      intro c hac hbc
      have hca := ht.anc_height ha hac
      rcases hanc.total hbc with h | h
      · exact h
      · by_cases hlow : height a ≤ height b
        · exact ht.anc_of_height hb hanc hbc (by rw [heq hlow]; exact hca)
        · have hself : climb parent height (height a) (height b+1) b = some b := by
            rw [climb, if_neg (by omega)]
          obtain rfl := Option.some.inj (hself.symm.trans hclimb)
          exact hbc
    rw [if_neg hab, hclimb]
    dsimp only
    by_cases hab' : a = b'
    · rw [if_pos hab']
      exact ⟨a, rfl, Anc.refl a, hab' ▸ hanc, fun c hc _ => hc⟩
    rw [if_neg hab']
    -- `a` is not above `b'`, hence it is not the root and moving on loses nothing
    have hnot : ¬ Anc parent b' a := fun h =>
      hab' (ht.eq_of_anc_height (ht.anc_mem hb hanc) h hle).symm
    have hne : a ≠ root := by
      intro heq
      exact hnot (heq ▸ ht.anc_root (ht.anc_mem hb hanc))
    obtain ⟨p,hp,hmem,hheight⟩ := ht.step a ha hne
    obtain ⟨f,hf,hpf,hbf,hmax⟩ := ih hmem (ht.anc_mem hb hanc) (by omega)
    rw [hp, Option.bind_some]
    refine ⟨f, hf, Anc.of_parent hp hpf, hanc.trans hbf, fun c hac hbc => ?_⟩
    have hbc' := hkeep c hac hbc
    apply hmax c _ hbc'
    rcases hac.cases with heq | ⟨p',hp',hrest⟩
    · exact absurd (heq ▸ hbc') hnot
    · obtain rfl := Option.some.inj (hp.symm.trans hp')
      exact hrest

theorem pathTo_spec [DecidableEq α] (ht : IsTree parent height mem root) {fuel : ℕ} {a f : α}
    (ha : mem a) (h : Anc parent a f) (hfuel : height a < fuel) :
    ∃ l, pathTo parent (some f) fuel (some a) = some l ∧ Path parent a l f := by
  induction fuel generalizing a with
  | zero => omega
  | succ fuel ih =>
    rw [pathTo]
    by_cases haf : a = f
    · rw [if_pos (congrArg some haf)]
      exact ⟨[], rfl, haf ▸ Path.nil a⟩
    rcases h.cases with heq | ⟨p,hp,hrest⟩
    · exact absurd heq haf
    obtain ⟨hmem,hheight⟩ := ht.of_parent ha hp
    obtain ⟨l,hl,hpath⟩ := ih hmem hrest (by omega)
    rw [if_neg fun heq => haf (Option.some.inj heq), hp, hl]
    exact ⟨a :: l, rfl, Path.cons hp hpath⟩

end IsTree

/-- More nodes elsewhere do not change what is above a node of the tree. -/
theorem IsTree.anc_congr (ht : IsTree parent height mem root) {parent' : α → Option α}
    (hsame : ∀ a, mem a → parent' a = parent a) {a b : α} (ha : mem a) :
    Anc parent' a b ↔ Anc parent a b := by
  constructor
  · intro h
    induction h using Relation.ReflTransGen.head_induction_on with
    | refl => exact Anc.refl b
    | head hstep _ ih =>
      rw [hsame _ ha] at hstep
      exact Anc.of_parent hstep (ih (ht.of_parent ha hstep).1)
  · intro h
    induction h using Relation.ReflTransGen.head_induction_on with
    | refl => exact Anc.refl b
    | head hstep _ ih =>
      exact Anc.of_parent ((hsame _ ha).trans hstep) (ih (ht.of_parent ha hstep).1)

theorem Path.anc {a f : α} {l : List α} (h : Path parent a l f) : Anc parent a f := by
  induction h with
  | nil a => exact Anc.refl a
  | cons step _ ih => exact Anc.of_parent step ih

theorem Path.anc_of_mem {a f x : α} {l : List α} (h : Path parent a l f) (hx : x ∈ l) :
    Anc parent a x := by
  induction h with
  | nil a => cases hx
  | cons step _ ih =>
    rcases List.mem_cons.mp hx with heq | hmem
    · exact heq ▸ Anc.refl _
    · exact Anc.of_parent step (ih hmem)

/-- The end of a path is above what is on the path. -/
theorem Path.anc_end {a f x : α} {l : List α} (h : Path parent a l f) (hx : x ∈ l) :
    Anc parent x f := by
  induction h with
  | nil a => cases hx
  | cons step rest ih =>
    rcases List.mem_cons.mp hx with heq | hmem
    · exact heq ▸ Anc.of_parent step rest.anc
    · exact ih hmem

/-- What is above the start of a path is on the path or above its end. -/
theorem Path.mem_or_anc {a f x : α} {l : List α} (h : Path parent a l f)
    (hx : Anc parent a x) : x ∈ l ∨ Anc parent f x := by
  induction h with
  | nil a => exact Or.inr hx
  | cons step _ ih =>
    rcases hx.cases with heq | ⟨p,hp,hrest⟩
    · exact Or.inl (heq ▸ List.mem_cons_self)
    · obtain rfl := Option.some.inj (step.symm.trans hp)
      rcases ih hrest with hmem | hanc
      · exact Or.inl (List.mem_cons_of_mem _ hmem)
      · exact Or.inr hanc

/-- The end of a path has nothing of the path above it. -/
theorem Path.not_anc_of_mem (ht : IsTree parent height mem root) {a f x : α} {l : List α}
    (h : Path parent a l f) (ha : mem a) (hx : x ∈ l) : ¬ Anc parent f x := by
  induction h with
  | nil a => cases hx
  | @cons a b c l step rest ih =>
    obtain ⟨hmem,hheight⟩ := ht.of_parent ha step
    rcases List.mem_cons.mp hx with heq | hmem'
    · intro hanc
      rw [heq] at hanc
      have := ht.anc_height hmem (rest.anc.trans hanc)
      omega
    · exact ih hmem hmem'

/-- One path leads from a node to one above it. -/
theorem Path.unique (ht : IsTree parent height mem root) {a f : α} {l l' : List α}
    (h : Path parent a l f) (h' : Path parent a l' f) (ha : mem a) : l = l' := by
  induction h generalizing l' with
  | nil a =>
    cases h' with
    | nil a => rfl
    | cons step rest =>
      have hpath := Path.cons step rest
      exact absurd (Anc.refl _) (hpath.not_anc_of_mem ht ha List.mem_cons_self)
  | @cons a b c l step rest ih =>
    cases h' with
    | nil a =>
      have hpath := Path.cons step rest
      exact absurd (Anc.refl _) (hpath.not_anc_of_mem ht ha List.mem_cons_self)
    | @cons a b' c l' step' rest' =>
      obtain rfl := Option.some.inj (step.symm.trans step')
      rw [ih rest' (ht.of_parent ha step).1]

/-- A path goes on with the parent. -/
theorem Path.parent_mem {a f x y : α} {l : List α} (h : Path parent a l f) (hx : x ∈ l)
    (hy : parent x = some y) : y ∈ l ++ [f] := by
  induction h with
  | nil a => cases hx
  | @cons a b c l step rest ih =>
    rcases List.mem_cons.mp hx with rfl | hmem
    · obtain rfl := Option.some.inj (step.symm.trans hy)
      apply List.mem_cons_of_mem
      cases rest with
      | nil b => exact List.mem_singleton_self _
      | cons step rest => exact List.mem_cons_self
    · exact List.mem_cons_of_mem _ (ih hmem)

theorem Down.snoc {a b c : α} {l : List α} (h : Down parent a l b) (hstep : parent c = some b) :
    Down parent a (l ++ [c]) c := by
  induction h with
  | nil a => exact Down.cons hstep (Down.nil c)
  | cons step _ ih => exact Down.cons step (ih hstep)

theorem Path.reverse {a f : α} {l : List α} (h : Path parent a l f) :
    Down parent f l.reverse a := by
  induction h with
  | nil a => exact Down.nil a
  | cons step _ ih =>
    rw [List.reverse_cons]
    exact ih.snoc step

end Anc

end Candypool.Lib
