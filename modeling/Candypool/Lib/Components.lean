import Mathlib.Data.Finset.Lattice.Fold
import Mathlib.Logic.Relation

/-! The connected components of some sets: two elements are joined if a chain of the sets leads from one
to the other. -/
namespace Candypool.Lib

variable {α : Type} {gs gs' : List (Finset α)} {P : Finset (Finset α)}

/-- A chain of the sets leads from `a` to `b`. -/
def Joined (gs : List (Finset α)) : α → α → Prop :=
  Relation.EqvGen fun a b => ∃ g ∈ gs, a ∈ g ∧ b ∈ g

theorem Joined.mono (hsub : ∀ g ∈ gs, g ∈ gs') {a b : α} (h : Joined gs a b) : Joined gs' a b := by
  apply Relation.EqvGen.mono _ a b h
  intro a b hlink
  obtain ⟨g,hg,hab⟩ := hlink
  exact ⟨g, hsub g hg, hab⟩

/-- The classes `P` of what is joined. -/
structure Components (gs : List (Finset α)) (P : Finset (Finset α)) : Prop where
  nonempty : ∀ h ∈ P, h.Nonempty
  disjoint : ∀ h ∈ P, ∀ k ∈ P, ∀ a ∈ h, a ∈ k → h = k
  covered : ∀ h ∈ P, ∀ a ∈ h, ∃ g ∈ gs, a ∈ g
  joined : ∀ h ∈ P, ∀ a ∈ h, ∀ b ∈ h, Joined gs a b
  contains : ∀ g ∈ gs, ∃ h ∈ P, g ⊆ h

theorem components_nil : Components ([] : List (Finset α)) ∅ := by
  constructor <;> simp

section Absorb
variable [DecidableEq α] {g : Finset α}

/-- Another set takes up the classes that it meets. -/
def absorb (P : Finset (Finset α)) (g : Finset α) : Finset (Finset α) :=
  let hits := P.filter fun h => ¬Disjoint h g
  insert (g ∪ hits.sup id) (P \ hits)

theorem mem_absorbed {a : α} : a ∈ g ∪ (P.filter fun h => ¬Disjoint h g).sup id ↔
    a ∈ g ∨ ∃ h ∈ P, ¬Disjoint h g ∧ a ∈ h := by
  simp only [Finset.mem_union, Finset.mem_sup, Finset.mem_filter, id_eq, and_assoc]

theorem mem_absorb {k : Finset α} : k ∈ absorb P g ↔
    k = g ∪ (P.filter fun h => ¬Disjoint h g).sup id ∨ k ∈ P ∧ Disjoint k g := by
  rw [absorb, Finset.mem_insert, Finset.mem_sdiff, Finset.mem_filter]
  refine or_congr_right ⟨fun ⟨hk,hnot⟩ => ⟨hk, ?_⟩, fun ⟨hk,hdisj⟩ => ⟨hk, fun hhit => hhit.2 hdisj⟩⟩
  by_contra hhit
  exact hnot ⟨hk, hhit⟩

/-- Every element of the new class is joined with one of `g`. -/
theorem joined_absorbed (h : Components gs P) {a : α}
    (ha : a ∈ g ∪ (P.filter fun h => ¬Disjoint h g).sup id) : ∃ b ∈ g, Joined (g :: gs) a b := by
  rcases mem_absorbed.mp ha with ha | ⟨k,hk,hmeet,ha⟩
  · exact ⟨a, ha, Relation.EqvGen.refl a⟩
  · obtain ⟨b,hbk,hbg⟩ := Finset.not_disjoint_iff.mp hmeet
    exact ⟨b, hbg, (h.joined k hk a ha b hbk).mono fun g' => List.mem_cons_of_mem g⟩

theorem Components.absorb (h : Components gs P) (hg : g.Nonempty) :
    Components (g :: gs) (Lib.absorb P g) where
  nonempty k hk := by
    rcases mem_absorb.mp hk with rfl | ⟨hk,-⟩
    · exact hg.mono Finset.subset_union_left
    · exact h.nonempty k hk
  disjoint k hk k' hk' a ha ha' := by
    -- a class that is left out does not meet the new one
    have hout (k : Finset α) (hk : k ∈ P) (hdisj : Disjoint k g) (ha : a ∈ k) :
        a ∉ g ∪ (P.filter fun h => ¬Disjoint h g).sup id := by
      intro hin
      rcases mem_absorbed.mp hin with hag | ⟨l,hl,hmeet,hal⟩
      · exact Finset.disjoint_left.mp hdisj ha hag
      · rw [h.disjoint l hl k hk a hal ha] at hmeet
        exact hmeet hdisj
    rcases mem_absorb.mp hk with rfl | ⟨hkP,hdisj⟩ <;>
    rcases mem_absorb.mp hk' with rfl | ⟨hkP',hdisj'⟩
    · rfl
    · exact absurd ha (hout k' hkP' hdisj' ha')
    · exact absurd ha' (hout k hkP hdisj ha)
    · exact h.disjoint k hkP k' hkP' a ha ha'
  covered k hk a ha := by
    have hold (k : Finset α) (hk : k ∈ P) (ha : a ∈ k) : ∃ g' ∈ g :: gs, a ∈ g' := by
      obtain ⟨g',hg',hag'⟩ := h.covered k hk a ha
      exact ⟨g', List.mem_cons_of_mem g hg', hag'⟩
    rcases mem_absorb.mp hk with rfl | ⟨hkP,-⟩
    · rcases mem_absorbed.mp ha with hag | ⟨l,hl,-,hal⟩
      · exact ⟨g, List.mem_cons_self, hag⟩
      · exact hold l hl hal
    · exact hold k hkP ha
  joined k hk a ha b hb := by
    rcases mem_absorb.mp hk with rfl | ⟨hkP,-⟩
    · -- through an element of `g` on each side
      obtain ⟨a',ha',hjoin⟩ := joined_absorbed h ha
      obtain ⟨b',hb',hjoin'⟩ := joined_absorbed h hb
      have hmid : Joined (g :: gs) a' b' := Relation.EqvGen.rel a' b' ⟨g, List.mem_cons_self, ha', hb'⟩
      exact (hjoin.trans _ _ _ hmid).trans _ _ _ (hjoin'.symm _ _)
    · exact (h.joined k hkP a ha b hb).mono fun g' => List.mem_cons_of_mem g
  contains g' hg' := by
    rcases List.mem_cons.mp hg' with rfl | hg'
    · exact ⟨_, mem_absorb.mpr (Or.inl rfl), Finset.subset_union_left⟩
    · obtain ⟨k,hk,hsub⟩ := h.contains g' hg'
      by_cases hdisj : Disjoint k g
      · exact ⟨k, mem_absorb.mpr (Or.inr ⟨hk, hdisj⟩), hsub⟩
      · refine ⟨_, mem_absorb.mpr (Or.inl rfl), hsub.trans fun a ha => ?_⟩
        exact mem_absorbed.mpr (Or.inr ⟨k, hk, hdisj, ha⟩)

end Absorb

/-- Elements of the sets are in one class if and only if they are joined. -/
theorem Components.same_iff (h : Components gs P) {a b : α} (ha : ∃ g ∈ gs, a ∈ g) :
    (∃ k ∈ P, a ∈ k ∧ b ∈ k) ↔ Joined gs a b := by
  refine ⟨fun ⟨k,hk,hak,hbk⟩ => h.joined k hk a hak b hbk, fun hjoin => ?_⟩
  -- being in the same classes is an equivalence that the sets respect
  have hsame : ∀ k ∈ P, a ∈ k ↔ b ∈ k := by
    clear ha
    induction hjoin with
    | rel a b hlink =>
      obtain ⟨g,hg,hag,hbg⟩ := hlink
      obtain ⟨l,hl,hsub⟩ := h.contains g hg
      intro k hk
      constructor
      · intro hak
        rw [h.disjoint k hk l hl a hak (hsub hag)]
        exact hsub hbg
      · intro hbk
        rw [h.disjoint k hk l hl b hbk (hsub hbg)]
        exact hsub hag
    | refl a => exact fun _ _ => Iff.rfl
    | symm a b _ ih => exact fun k hk => (ih k hk).symm
    | trans a b c _ _ ih ih' => exact fun k hk => (ih k hk).trans (ih' k hk)
  obtain ⟨g,hg,hag⟩ := ha
  obtain ⟨k,hk,hsub⟩ := h.contains g hg
  exact ⟨k, hk, hsub hag, (hsame k hk).mp (hsub hag)⟩

/-- The classes do not depend on the order of the sets, or on their repetition. -/
theorem Components.congr (h : Components gs P) (hmem : ∀ g, g ∈ gs ↔ g ∈ gs') : Components gs' P where
  nonempty := h.nonempty
  disjoint := h.disjoint
  covered k hk a ha := by
    obtain ⟨g,hg,hag⟩ := h.covered k hk a ha
    exact ⟨g, (hmem g).mp hg, hag⟩
  joined k hk a ha b hb := (h.joined k hk a ha b hb).mono fun g => (hmem g).mp
  contains g hg := h.contains g ((hmem g).mpr hg)

end Candypool.Lib
