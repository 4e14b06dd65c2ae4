import Candypool.Lib.OrderMatching

/-! Elements that are handed out to keys: each goes to the first key that it fits and that has none
yet. When no element fits two keys, every key ends up with the first element that fits it. -/
namespace Candypool.Lib
variable {α κ : Type*} (fits : α → κ → Bool) (keys : List κ)

/-- What the keys have after one element more. -/
def assignFirst [BEq κ] (given : List (κ × α)) (a : α) : List (κ × α) :=
  match keys.find? fun k => (given.lookup k).isNone && fits a k with
  | none => given
  | some k => (k,a) :: given

/-- No element fits two keys. -/
def FitsOne (as : List α) : Prop :=
  ∀ a ∈ as, ∀ k ∈ keys, ∀ k' ∈ keys, fits a k = true → fits a k' = true → k = k'

def firstFit (as : List α) (k : κ) : Option α := as.find? fun a => fits a k

/-- The elements of the first `n` keys that have one, in the order of the keys. -/
def firstFits (as : List α) (n : ℕ) : List α := (keys.filterMap (firstFit fits as)).take n

variable {fits keys} {as : List α} {given : List (κ × α)} {k : κ} {a : α}

theorem FitsOne.subset {as' : List α} (h : FitsOne fits keys as) (hsub : as' ⊆ as) :
    FitsOne fits keys as' := fun a ha => h a (hsub ha)

theorem firstFit_eq_some (h : firstFit fits as k = some a) : a ∈ as ∧ fits a k = true :=
  ⟨List.mem_of_find?_eq_some h, List.find?_some (p := fun a => fits a k) h⟩

section Assign
variable [BEq κ] [LawfulBEq κ]

/-- An element changes what a key has only when the key has none and the element fits it. -/
theorem lookup_assignFirst (hone : FitsOne fits keys [a]) (hk : k ∈ keys) :
    (assignFirst fits keys given a).lookup k =
      (given.lookup k).or (if fits a k then some a else none) := by
  rw [assignFirst]
  cases hfound : keys.find? fun k => (given.lookup k).isNone && fits a k with
  | none =>
    have hpassed := List.find?_eq_none.mp hfound k hk
    cases hgiven : given.lookup k with
    | some b => rfl
    | none =>
      rw [hgiven, Option.isNone_none, Bool.true_and] at hpassed
      rw [if_neg hpassed]
      rfl
  | some k' =>
    have hk' : k' ∈ keys := List.mem_of_find?_eq_some hfound
    have hfree : ((given.lookup k').isNone && fits a k') = true := by
      simpa only using List.find?_some hfound
    obtain ⟨hfree,hfits⟩ := Bool.and_eq_true_iff.mp hfree
    change List.lookup k ((k',a) :: given) = _
    rw [List.lookup_cons]
    by_cases heq : k = k'
    · rw [heq, beq_self_eq_true, Option.isNone_iff_eq_none.mp hfree, if_pos hfits]
      rfl
    · have hother : ¬fits a k = true := fun hfits' =>
        heq (hone a List.mem_cons_self k hk k' hk' hfits' hfits)
      rw [beq_false_of_ne heq, if_neg hother, Option.or_none]

theorem lookup_foldl_assignFirst (hone : FitsOne fits keys as) (hk : k ∈ keys) :
    (as.foldl (assignFirst fits keys) given).lookup k = (given.lookup k).or (firstFit fits as k) := by
  induction as generalizing given with
  | nil => rw [List.foldl_nil, firstFit, List.find?_nil, Option.or_none]
  | cons a as ih =>
    have hfirst : FitsOne fits keys [a] :=
      hone.subset (List.cons_subset.mpr ⟨List.mem_cons_self, List.nil_subset _⟩)
    rw [List.foldl_cons, ih (hone.subset (List.subset_cons_self a as)), lookup_assignFirst hfirst hk,
      Option.or_assoc, firstFit, firstFit, List.find?_cons]
    cases fits a k with
    | true => rfl
    | false => rfl

/-- What every key ends up with. -/
theorem lookup_assigned (hone : FitsOne fits keys as) (hk : k ∈ keys) :
    (as.foldl (assignFirst fits keys) []).lookup k = firstFit fits as k := by
  rw [lookup_foldl_assignFirst hone hk, List.lookup_nil, Option.none_or]

end Assign

section FirstFits
variable {n : ℕ}

/-- The first `n` elements come from an initial part of the list. -/
theorem exists_prefix_of_take {β : Type*} (f : κ → Option β) (keys : List κ) (n : ℕ) :
    ∃ front back, keys = front ++ back ∧ front.filterMap f = (keys.filterMap f).take n := by
  induction keys generalizing n with
  | nil => exact ⟨[], [], rfl, by simp⟩
  | cons k keys ih =>
    cases n with
    | zero => exact ⟨[], k :: keys, rfl, by simp⟩
    | succ n =>
      cases hf : f k with
      | none =>
        obtain ⟨front,back,rfl,htake⟩ := ih (n+1)
        refine ⟨k :: front, back, rfl, ?_⟩
        rw [List.filterMap_cons_none hf, List.filterMap_cons_none hf, htake]
      | some b =>
        obtain ⟨front,back,rfl,htake⟩ := ih n
        refine ⟨k :: front, back, rfl, ?_⟩
        rw [List.filterMap_cons_some hf, List.filterMap_cons_some hf, List.take_succ_cons, htake]

theorem firstFits_length_le : (firstFits fits keys as n).length ≤ n := List.length_take_le _ _

theorem mem_of_mem_firstFits (h : a ∈ firstFits fits keys as n) :
    ∃ k ∈ keys, firstFit fits as k = some a := List.mem_filterMap.mp (List.mem_of_mem_take h)

theorem firstFits_subset : firstFits fits keys as n ⊆ as := by
  intro a ha
  obtain ⟨k,-,hfind⟩ := mem_of_mem_firstFits ha
  exact (firstFit_eq_some hfind).1

/-- There are `n` of them when `n` keys have an element that fits. -/
theorem firstFits_length_iff : (firstFits fits keys as n).length = n ↔
    n ≤ (keys.filter fun k => as.any fun a => fits a k).length := by
  have hcount : (keys.filterMap (firstFit fits as)).length =
      (keys.filter fun k => as.any fun a => fits a k).length := by
    rw [List.length_filterMap_eq_countP, ← List.countP_eq_length_filter]
    simp only [firstFit, List.isSome_find?]
  rw [firstFits, List.length_take, hcount]
  exact inf_eq_left

/-- They match keys in their order. -/
theorem firstFits_matching :
    List.SublistForall₂ (fun a k => fits a k = true) (firstFits fits keys as n) keys := by
  have hall : List.SublistForall₂ (fun a k => fits a k = true)
      (keys.filterMap (firstFit fits as)) keys := by
    induction keys with
    | nil => exact .nil
    | cons k keys ih =>
      cases hfind : firstFit fits as k with
      | none =>
        rw [List.filterMap_cons_none hfind]
        exact .cons_right ih
      | some a =>
        rw [List.filterMap_cons_some hfind]
        exact .cons (firstFit_eq_some hfind).2 ih
  rw [List.sublistForall₂_iff] at hall ⊢
  obtain ⟨partners,hpairs,hsub⟩ := hall
  exact ⟨partners.take n, List.forall₂_take n hpairs, (List.take_sublist n partners).trans hsub⟩

/-- Handing out again what the first keys got gives it to them again. -/
theorem firstFits_again (hkeys : keys.Nodup) (hone : FitsOne fits keys as) {as' : List α}
    (hmem : ∀ a, a ∈ as' ↔ a ∈ firstFits fits keys as n) :
    firstFits fits keys as' n = firstFits fits keys as n := by
  obtain ⟨front,back,heq,hfront⟩ := exists_prefix_of_take (firstFit fits as) keys n
  change _ = firstFits fits keys as n at hfront
  have hfrontMem : ∀ k ∈ front, k ∈ keys := fun k hk => heq ▸ List.mem_append_left _ hk
  -- an element that fits a key is the one that a key of the front part got, thus that key's
  have howner : ∀ a ∈ as', ∀ k ∈ keys, fits a k = true → k ∈ front ∧ firstFit fits as k = some a := by
    intro a ha k hk hfits
    rw [hmem, ← hfront, List.mem_filterMap] at ha
    obtain ⟨k',hk',hfind⟩ := ha
    obtain ⟨hin,hfits'⟩ := firstFit_eq_some hfind
    obtain rfl := hone a hin k hk k' (hfrontMem k' hk') hfits hfits'
    exact ⟨hk',hfind⟩
  have hsame : ∀ k ∈ front, firstFit fits as' k = firstFit fits as k := by
    intro k hk
    cases hfind' : firstFit fits as' k with
    | some a =>
      obtain ⟨hin,hfits⟩ := firstFit_eq_some hfind'
      exact (howner a hin k (hfrontMem k hk) hfits).2.symm
    | none =>
      cases hfind : firstFit fits as k with
      | none => rfl
      | some a =>
        have hgot : a ∈ as' := by
          rw [hmem, ← hfront]
          exact List.mem_filterMap.mpr ⟨k,hk,hfind⟩
        exact absurd (firstFit_eq_some hfind).2 (List.find?_eq_none.mp hfind' a hgot)
  have hnone : ∀ k ∈ back, firstFit fits as' k = none := by
    intro k hk
    refine List.find?_eq_none.mpr fun a ha hfits => ?_
    have hin : k ∈ keys := heq ▸ List.mem_append_right _ hk
    rw [heq] at hkeys
    exact List.disjoint_of_nodup_append hkeys (howner a ha k hin hfits).1 hk
  have hall : keys.filterMap (firstFit fits as') = firstFits fits keys as n := by
    calc keys.filterMap (firstFit fits as')
        = front.filterMap (firstFit fits as') ++ back.filterMap (firstFit fits as') := by
          rw [heq, List.filterMap_append]
      _ = front.filterMap (firstFit fits as) := by
          rw [List.filterMap_eq_nil_iff.mpr hnone, List.append_nil, List.filterMap_congr hsame]
      _ = firstFits fits keys as n := hfront
  rw [firstFits, hall, List.take_of_length_le firstFits_length_le]

end FirstFits

end Candypool.Lib
