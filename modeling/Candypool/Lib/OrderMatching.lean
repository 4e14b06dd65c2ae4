import Mathlib.Data.List.NodupEquivFin

/-! Matching the elements of one list with elements of another in the same order. Taking the first
partner that fits finds a matching whenever there is one. -/
namespace Candypool.Lib
variable {α β : Type*}

/-- Every element of `as` has a partner in `bs`, and the partners stand in the order of `as`. -/
def OrderMatching (R : α → β → Prop) (as : List α) (bs : List β) : Prop :=
  ∃ f : Fin as.length ↪o Fin bs.length, ∀ i, R (as.get i) (bs.get (f i))

/-- The elements of `bs` are offered in order to the first of `as` that is left. -/
def greedyMatch (valid : α → β → Bool) : List α → List β → Bool
  | [], _ => true
  | _ :: _, [] => false
  | a :: as, b :: bs => if valid a b then greedyMatch valid as bs else greedyMatch valid (a :: as) bs

theorem orderMatching_iff {R : α → β → Prop} {as : List α} {bs : List β} :
    OrderMatching R as bs ↔ List.SublistForall₂ R as bs := by
  rw [List.sublistForall₂_iff]
  constructor
  · rintro ⟨f,hf⟩
    let partners := List.ofFn fun i => bs.get (f i)
    have hlen : partners.length = as.length := List.length_ofFn
    refine ⟨partners, ?_, ?_⟩
    · apply List.forall₂_iff_get.mpr
      refine ⟨hlen.symm, fun i hi hi' => ?_⟩
      simpa [partners] using hf ⟨i,hi⟩
    · apply List.sublist_iff_exists_fin_orderEmbedding_get_eq.mpr
      refine ⟨(Fin.castOrderIso hlen).toOrderEmbedding.trans f, fun i => ?_⟩
      simp [partners]
      rfl
  · rintro ⟨partners,hpairs,hsub⟩
    obtain ⟨f,hf⟩ := List.sublist_iff_exists_fin_orderEmbedding_get_eq.mp hsub
    obtain ⟨hlen,hpairs⟩ := List.forall₂_iff_get.mp hpairs
    refine ⟨(Fin.castOrderIso hlen).toOrderEmbedding.trans f, fun i => ?_⟩
    have hpartner := hf (Fin.cast hlen i)
    have hpair := hpairs i.val i.isLt (hlen ▸ i.isLt)
    change R (as.get i) (bs.get (f (Fin.cast hlen i)))
    rw [← hpartner]
    exact hpair

/-- What can be matched with a list can be matched without its first element. -/
theorem sublistForall₂_of_cons {R : α → β → Prop} {a : α} {as : List α} {bs : List β}
    (h : List.SublistForall₂ R (a :: as) bs) : List.SublistForall₂ R as bs := by
  induction bs with
  | nil => cases h
  | cons b bs ih =>
    cases h with
    | cons _ h => exact .cons_right h
    | cons_right h => exact .cons_right (ih h)

theorem exists_partner {R : α → β → Prop} {a : α} {as : List α} {bs : List β}
    (h : List.SublistForall₂ R as bs) (ha : a ∈ as) : ∃ b ∈ bs, R a b := by
  induction h with
  | nil => cases ha
  | cons hab _ ih =>
    rcases List.mem_cons.mp ha with rfl | ha
    · exact ⟨_, List.mem_cons_self, hab⟩
    · obtain ⟨b,hb,hpair⟩ := ih ha
      exact ⟨b, List.mem_cons_of_mem _ hb, hpair⟩
  | cons_right _ ih =>
    obtain ⟨b,hb,hpair⟩ := ih ha
    exact ⟨b, List.mem_cons_of_mem _ hb, hpair⟩

/-- A relation that holds of the pairs of another one is matched as well. -/
theorem sublistForall₂_imp_mem {R S : α → β → Prop} {as : List α} {bs : List β}
    (h : List.SublistForall₂ R as bs) (himp : ∀ a ∈ as, ∀ b ∈ bs, R a b → S a b) :
    List.SublistForall₂ S as bs := by
  induction h with
  | nil => exact .nil
  | cons hab _ ih =>
    refine .cons (himp _ List.mem_cons_self _ List.mem_cons_self hab) (ih fun a ha b hb => ?_)
    exact himp a (List.mem_cons_of_mem _ ha) b (List.mem_cons_of_mem _ hb)
  | cons_right _ ih =>
    exact .cons_right (ih fun a ha b hb => himp a ha b (List.mem_cons_of_mem _ hb))

theorem sublistForall₂_reverse {R : α → β → Prop} {as : List α} {bs : List β}
    (h : List.SublistForall₂ R as bs) : List.SublistForall₂ R as.reverse bs.reverse := by
  rw [List.sublistForall₂_iff] at h ⊢
  obtain ⟨partners,hpairs,hsub⟩ := h
  exact ⟨partners.reverse, List.forall₂_reverse_iff.mpr hpairs, List.reverse_sublist.mpr hsub⟩

/-- The first partner that fits may be taken: a matching that passes it over leaves it free. -/
theorem greedyMatch_iff (valid : α → β → Bool) (as : List α) (bs : List β) :
    greedyMatch valid as bs = true ↔ List.SublistForall₂ (fun a b => valid a b = true) as bs := by
  induction bs generalizing as with
  | nil =>
    cases as with
    | nil => exact iff_of_true rfl .nil
    | cons a as => exact iff_of_false Bool.false_ne_true fun h => by cases h
  | cons b bs ih =>
    cases as with
    | nil => exact iff_of_true rfl .nil
    | cons a as =>
      rw [greedyMatch]
      by_cases hvalid : valid a b = true
      · rw [if_pos hvalid, ih]
        constructor
        · exact fun h => .cons hvalid h
        · intro h
          cases h with
          | cons _ h => exact h
          | cons_right h => exact sublistForall₂_of_cons h
      · rw [if_neg hvalid, ih]
        constructor
        · exact fun h => .cons_right h
        · intro h
          cases h with
          | cons hb _ => exact absurd hb hvalid
          | cons_right h => exact h

/-- More elements than partners. -/
theorem greedyMatch_of_length_lt {valid : α → β → Bool} {as : List α} {bs : List β}
    (h : bs.length < as.length) : greedyMatch valid as bs = false := by
  by_contra hmatch
  rw [Bool.not_eq_false, greedyMatch_iff, List.sublistForall₂_iff] at hmatch
  obtain ⟨partners,hpairs,hsub⟩ := hmatch
  have hle := hsub.length_le
  have heq := hpairs.length_eq
  omega

end Candypool.Lib
