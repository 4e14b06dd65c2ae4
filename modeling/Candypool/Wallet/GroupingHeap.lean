import Candypool.Lib.Components
import Mathlib.Data.Finset.Sort
import Mathlib.Data.Finset.Option
import Mathlib.Data.List.AList

/-! The merge loop of `GetAddressGroupings`, with its pointers. To follow or to delete a pointer whose group
was deleted has no value. -/
namespace Candypool.Wallet
open Candypool.Lib

variable {α : Type}

/-- The groups that were allocated and not deleted yet. -/
abbrev GroupHeap (α : Type) := AList fun _ : ℕ => Finset α

/-- `new` gives any address that is not in use. -/
structure Malloc (α : Type) where
  new : ℕ → GroupHeap α → ℕ
  fresh : ∀ turn heap, new turn heap ∉ heap

structure MergeState (α : Type) where
  heap : GroupHeap α
  uniqueGroupings : Finset ℕ
  setmap : α → Option ℕ

def GroupHeap.delete (heap : GroupHeap α) (p : ℕ) : Option (GroupHeap α) :=
  if p ∈ heap then some (heap.erase p) else none

section Loop
variable [DecidableEq α]

/-- The hit groups are added to the new one and deleted. -/
def mergeHits (merged : ℕ) : List ℕ → MergeState α → Option (MergeState α)
  | [], s => some s
  | hit :: hits, s => do
    let old ← s.heap.lookup merged
    let group ← s.heap.lookup hit
    let heap ← GroupHeap.delete (s.heap.insert merged (old ∪ group)) hit
    mergeHits merged hits
      { s with
        heap := heap
        uniqueGroupings := s.uniqueGroupings.erase hit }

/-- The groups that have an address of the new one. -/
def hitsOf (s : MergeState α) (grouping : Finset α) : Finset ℕ :=
  grouping.biUnion fun address => (s.setmap address).toFinset

/-- One turn of the merge loop. Sets of pointers are gone through in the order of the addresses. -/
def mergeGrouping (malloc : Malloc α) (turn : ℕ) (grouping : Finset α) (s : MergeState α) :
    Option (MergeState α) := do
  let merged := malloc.new turn s.heap
  let s ← mergeHits merged ((hitsOf s grouping).sort (· ≤ ·))
    { s with heap := s.heap.insert merged grouping }
  let group ← s.heap.lookup merged
  return { s with
    uniqueGroupings := insert merged s.uniqueGroupings
    setmap := fun element => if element ∈ group then some merged else s.setmap element }

def mergeAll (malloc : Malloc α) : List (Finset α) → MergeState α → Option (MergeState α)
  | [], s => some s
  | grouping :: groupings, s => do
    let s ← mergeGrouping malloc groupings.length grouping s
    mergeAll malloc groupings s

/-- The last loop: what is returned, and what is left on the heap. -/
def collectGroups : List ℕ → GroupHeap α → Finset (Finset α) → Option (Finset (Finset α) × GroupHeap α)
  | [], heap, ret => some (ret,heap)
  | p :: pointers, heap, ret => do
    let group ← heap.lookup p
    let heap ← GroupHeap.delete heap p
    collectGroups pointers heap (insert group ret)

end Loop

/-- The pointers stand for the classes `P`: each class has one, and the map finds it from every address
of the class. -/
structure Represents (s : MergeState α) (P : Finset (Finset α)) : Prop where
  groups : ∀ h, h ∈ P ↔ ∃ p, s.heap.lookup p = some h
  unique : ∀ p, p ∈ s.uniqueGroupings ↔ p ∈ s.heap
  setmap : ∀ a p, s.setmap a = some p ↔ ∃ h, s.heap.lookup p = some h ∧ a ∈ h

section Merge
variable {s : MergeState α} {P : Finset (Finset α)}

theorem GroupHeap.mem_iff {heap : GroupHeap α} {p : ℕ} : p ∈ heap ↔ ∃ k, heap.lookup p = some k := by
  rw [← AList.lookup_isSome, Option.isSome_iff_exists]

theorem GroupHeap.delete_eq {heap : GroupHeap α} {p : ℕ} {group : Finset α}
    (h : heap.lookup p = some group) : GroupHeap.delete heap p = some (heap.erase p) := by
  rw [GroupHeap.delete, if_pos]
  exact GroupHeap.mem_iff.mpr ⟨group, h⟩

/-- The hit pointers are those of the classes that meet the grouping. -/
theorem Represents.mem_hits (h : Represents s P) {grouping : Finset α} {p : ℕ} :
    p ∈ hitsOf s grouping ↔ ∃ k, s.heap.lookup p = some k ∧ ¬Disjoint k grouping := by
  rw [hitsOf, Finset.mem_biUnion]
  constructor
  · rintro ⟨a,ha,hp⟩
    obtain ⟨k,hk,hak⟩ := (h.setmap a p).mp (Option.mem_toFinset.mp hp)
    exact ⟨k, hk, Finset.not_disjoint_iff.mpr ⟨a, hak, ha⟩⟩
  · rintro ⟨k,hk,hmeet⟩
    obtain ⟨a,hak,ha⟩ := Finset.not_disjoint_iff.mp hmeet
    exact ⟨a, ha, Option.mem_toFinset.mpr ((h.setmap a p).mpr ⟨k, hk, hak⟩)⟩

theorem represents_empty : Represents (⟨∅, ∅, fun _ => none⟩ : MergeState α) ∅ := by
  constructor <;> simp

variable [DecidableEq α]

/-- What the inner loop leaves: the new group has all of the hit ones, and they are gone. -/
theorem mergeHits_spec (merged : ℕ) (hits : List ℕ) (hnodup : hits.Nodup) (hmerged : merged ∉ hits)
    (hlive : ∀ p ∈ hits, ∃ h, s.heap.lookup p = some h) {old : Finset α}
    (hold : s.heap.lookup merged = some old) :
    ∃ s' group, mergeHits merged hits s = some s' ∧ s'.heap.lookup merged = some group ∧
      (∀ a, a ∈ group ↔ a ∈ old ∨ ∃ p ∈ hits, ∃ h, s.heap.lookup p = some h ∧ a ∈ h) ∧
      (∀ p k, p ≠ merged → (s'.heap.lookup p = some k ↔ s.heap.lookup p = some k ∧ p ∉ hits)) ∧
      (∀ p, p ∈ s'.uniqueGroupings ↔ p ∈ s.uniqueGroupings ∧ p ∉ hits) ∧ s'.setmap = s.setmap := by
  -- the merged group grows along the hits, so the induction has to leave `old` open
  induction hits generalizing s old with
  | nil => exact ⟨s, old, rfl, hold, by simp, by simp, by simp, rfl⟩
  | cons hit hits ih =>
    rw [List.nodup_cons] at hnodup
    rw [List.mem_cons, not_or] at hmerged
    rw [List.forall_mem_cons] at hlive
    obtain ⟨⟨group,hgroup⟩,hlive⟩ := hlive
    let heap := (s.heap.insert merged (old ∪ group)).erase hit
    have hother : ∀ p, p ≠ merged → p ≠ hit → heap.lookup p = s.heap.lookup p := by
      intro p hp hphit
      rw [AList.lookup_erase_ne hphit, AList.lookup_insert_ne hp]
    have hnew : heap.lookup merged = some (old ∪ group) := by
      rw [AList.lookup_erase_ne hmerged.1, AList.lookup_insert]
    -- the groups still to be merged are neither changed nor freed by this round
    have hrest : ∀ p ∈ hits, heap.lookup p = s.heap.lookup p := by
      intro p hp
      apply hother
      · rintro rfl
        exact hmerged.2 hp
      · rintro rfl
        exact hnodup.1 hp
    obtain ⟨s',group',hrun,hlookup,hmem,hothers,hunique,hsetmap⟩ :=
      ih (s := { s with heap := heap, uniqueGroupings := s.uniqueGroupings.erase hit })
        hnodup.2 hmerged.2 (fun p hp => by rw [hrest p hp]; exact hlive p hp) hnew
    refine ⟨s', group', ?_, hlookup, fun a => ?_, fun p k hp => ?_, fun p => ?_, hsetmap⟩
    · have hhit : (s.heap.insert merged (old ∪ group)).lookup hit = some group := by
        rw [AList.lookup_insert_ne (Ne.symm hmerged.1), hgroup]
      rw [mergeHits, hold, hgroup]
      simp only [Option.bind_eq_bind, Option.bind_some, GroupHeap.delete_eq hhit]
      exact hrun
    · rw [hmem, Finset.mem_union, List.exists_mem_cons_iff, or_assoc]
      refine or_congr_right (or_congr ?_ ?_)
      · simp [hgroup]
      · refine exists_congr fun p => and_congr_right fun hp => ?_
        rw [hrest p hp]
    · rw [hothers p k hp, List.mem_cons, not_or]
      by_cases hhit : p = hit
      -- the group is freed once it is merged, so its pointer does not dangle
      · have hgone : heap.lookup hit = none := AList.lookup_erase _ _
        refine iff_of_false (fun h => ?_) fun h => h.2.1 hhit
        rw [hhit] at h
        cases hgone.symm.trans h.1
      · rw [hother p hp hhit]
        simp only [hhit, not_false_eq_true, true_and]
    · rw [hunique, Finset.mem_erase, List.mem_cons, not_or]
      constructor
      · exact fun ⟨⟨hne,hin⟩,hnot⟩ => ⟨hin, hne, hnot⟩
      · exact fun ⟨hin,hne,hnot⟩ => ⟨⟨hne, hin⟩, hnot⟩

/-- What the inner loop leaves in place of `s`: the new group, and the groups that it did not hit. -/
structure Merged (s : MergeState α) (grouping : Finset α) (merged : ℕ) (group : Finset α)
    (s' : MergeState α) : Prop where
  fresh : s.heap.lookup merged = none
  new : s'.heap.lookup merged = some group
  mem : ∀ a, a ∈ group ↔ a ∈ grouping ∨
    ∃ p k, s.heap.lookup p = some k ∧ ¬Disjoint k grouping ∧ a ∈ k
  others : ∀ p k, p ≠ merged →
    (s'.heap.lookup p = some k ↔ s.heap.lookup p = some k ∧ Disjoint k grouping)
  unique : ∀ p, p ≠ merged → (p ∈ s'.uniqueGroupings ↔ ∃ k, s'.heap.lookup p = some k)
  setmap : s'.setmap = s.setmap

omit [DecidableEq α] in
theorem Merged.ne {grouping group k : Finset α} {merged p : ℕ} {s' : MergeState α}
    (hm : Merged s grouping merged group s') (hk : s.heap.lookup p = some k) : p ≠ merged := by
  rintro rfl
  rw [hm.fresh] at hk
  cases hk

theorem Represents.mergeHits (h : Represents s P) {merged : ℕ} (hfresh : merged ∉ s.heap)
    (grouping : Finset α) :
    ∃ s' group, mergeHits merged ((hitsOf s grouping).sort (· ≤ ·))
      { s with heap := s.heap.insert merged grouping } = some s' ∧ Merged s grouping merged group s' := by
  -- the new pointer is not live, so no group of the state is lost when it is written
  have hdead : s.heap.lookup merged = none := AList.lookup_eq_none.mpr hfresh
  have hlookup (p : ℕ) (hp : p ≠ merged) : (s.heap.insert merged grouping).lookup p = s.heap.lookup p :=
    AList.lookup_insert_ne hp
  have hne {p : ℕ} {k : Finset α} (hk : s.heap.lookup p = some k) : p ≠ merged := by
    rintro rfl
    rw [hdead] at hk
    cases hk
  generalize hhits : (hitsOf s grouping).sort (· ≤ ·) = hits
  have hmem (p : ℕ) : p ∈ hits ↔ ∃ k, s.heap.lookup p = some k ∧ ¬Disjoint k grouping := by
    rw [← hhits, Finset.mem_sort, h.mem_hits]
  have hmerged : merged ∉ hits := by
    rw [hmem, hdead]
    simp
  -- every hit still points to a group after the new one is written
  have hlive : ∀ p ∈ hits, ∃ k, (s.heap.insert merged grouping).lookup p = some k := by
    intro p hp
    obtain ⟨k,hk,-⟩ := (hmem p).mp hp
    exact ⟨k, (hlookup p (hne hk)).trans hk⟩
  obtain ⟨s',group,hrun,hgroup,hin,hothers,hunique,hsetmap⟩ :=
    mergeHits_spec (s := { s with heap := s.heap.insert merged grouping }) merged hits
      (hhits ▸ Finset.sort_nodup _ _) hmerged hlive (AList.lookup_insert _)
  refine ⟨s', group, hrun, hdead, hgroup, fun a => ?_, fun p k hp => ?_, fun p hp => ?_, hsetmap⟩
  · rw [hin]
    refine or_congr_right ⟨?_, ?_⟩
    -- what the merged group gained is what the groups that meet the new one hold
    · rintro ⟨p,hp,k,hk,hak⟩
      obtain ⟨k',hk',hmeet⟩ := (hmem p).mp hp
      obtain rfl := Option.some.inj (((hlookup p (hne hk')).symm.trans hk).symm.trans hk')
      exact ⟨p, k, hk', hmeet, hak⟩
    · rintro ⟨p,k,hk,hmeet,hak⟩
      exact ⟨p, (hmem p).mpr ⟨k, hk, hmeet⟩, k, (hlookup p (hne hk)).trans hk, hak⟩
  · rw [hothers p k hp, hlookup p hp, hmem]
    refine and_congr_right fun hk => ?_
    rw [hk]
    simp
  · -- a group that stays keeps its pointer
    rw [hunique, h.unique, GroupHeap.mem_iff]
    constructor
    · rintro ⟨⟨k,hk⟩,hnot⟩
      exact ⟨k, (hothers p k hp).mpr ⟨(hlookup p hp).trans hk, hnot⟩⟩
    · rintro ⟨k,hk⟩
      obtain ⟨hk,hnot⟩ := (hothers p k hp).mp hk
      exact ⟨⟨k, (hlookup p hp).symm.trans hk⟩, hnot⟩

section Turn
variable {s' : MergeState α} {grouping group : Finset α} {merged : ℕ}

/-- The new group is the new class. -/
theorem Merged.group_eq (hm : Merged s grouping merged group s') (h : Represents s P) :
    group = grouping ∪ (P.filter fun k => ¬Disjoint k grouping).sup id := by
  ext a
  rw [hm.mem, mem_absorbed]
  refine or_congr_right ⟨?_, ?_⟩
  · rintro ⟨p,k,hk,hmeet,hak⟩
    exact ⟨k, (h.groups k).mpr ⟨p, hk⟩, hmeet, hak⟩
  · rintro ⟨k,hk,hmeet,hak⟩
    obtain ⟨p,hp⟩ := (h.groups k).mp hk
    exact ⟨p, k, hp, hmeet, hak⟩

omit [DecidableEq α] in
/-- A group that stays has none of the addresses of the new one: an address has one pointer. -/
theorem Merged.apart (hm : Merged s grouping merged group s') (h : Represents s P) {p : ℕ}
    {k : Finset α} {a : α} (hk : s.heap.lookup p = some k) (hdisj : Disjoint k grouping) (hak : a ∈ k) :
    a ∉ group := by
  rw [hm.mem]
  rintro (ha | ⟨q,l,hl,hmeet,hal⟩)
  · exact Finset.disjoint_left.mp hdisj hak ha
  · have hsame := ((h.setmap a q).mpr ⟨l, hl, hal⟩).symm.trans ((h.setmap a p).mpr ⟨k, hk, hak⟩)
    rw [Option.some.inj hsame, hk] at hl
    rw [← Option.some.inj hl] at hmeet
    exact hmeet hdisj

/-- With the new pointer in the set and in the map, the pointers stand for the classes again. -/
theorem Merged.represents (hm : Merged s grouping merged group s') (h : Represents s P) :
    Represents { s' with
      uniqueGroupings := insert merged s'.uniqueGroupings
      setmap := fun element => if element ∈ group then some merged else s'.setmap element }
      (absorb P grouping) where
  -- the merged group is the new component, and those apart from it stay
  groups k := by
    rw [mem_absorb, ← hm.group_eq h]
    constructor
    · rintro (rfl | ⟨hk,hdisj⟩)
      · exact ⟨merged, hm.new⟩
      · obtain ⟨p,hp⟩ := (h.groups k).mp hk
        exact ⟨p, (hm.others p k (hm.ne hp)).mpr ⟨hp, hdisj⟩⟩
    · rintro ⟨p,hp⟩
      by_cases hpm : p = merged
      · rw [hpm] at hp
        exact Or.inl (Option.some.inj (hp.symm.trans hm.new))
      · obtain ⟨hk,hdisj⟩ := (hm.others p k hpm).mp hp
        exact Or.inr ⟨(h.groups k).mpr ⟨p, hk⟩, hdisj⟩
  unique p := by
    dsimp only
    rw [Finset.mem_insert, GroupHeap.mem_iff]
    by_cases hpm : p = merged
    · exact iff_of_true (Or.inl hpm) ⟨group, hpm ▸ hm.new⟩
    · rw [or_iff_right hpm, hm.unique p hpm]
  -- the last loop moves the elements of the merged group, and no others, to the new pointer
  setmap a p := by
    dsimp only
    split_ifs with ha
    · constructor
      · intro hp
        obtain rfl := Option.some.inj hp
        exact ⟨group, hm.new, ha⟩
      -- an element of the merged group cannot be in a group that stays
      · rintro ⟨k,hk,hak⟩
        by_contra hpm
        obtain ⟨hk,hdisj⟩ := (hm.others p k fun heq => hpm (congrArg some heq.symm)).mp hk
        exact hm.apart h hk hdisj hak ha
    · rw [hm.setmap, h.setmap]
      constructor
      · rintro ⟨k,hk,hak⟩
        -- a group that met the new one would have put its elements in the merged one
        refine ⟨k, (hm.others p k (hm.ne hk)).mpr ⟨hk, ?_⟩, hak⟩
        by_contra hmeet
        exact ha ((hm.mem a).mpr (Or.inr ⟨p, k, hk, hmeet, hak⟩))
      · rintro ⟨k,hk,hak⟩
        by_cases hpm : p = merged
        · rw [hpm, hm.new] at hk
          rw [← Option.some.inj hk] at hak
          exact absurd hak ha
        · exact ⟨k, ((hm.others p k hpm).mp hk).1, hak⟩

end Turn

/-- A turn of the loop does what `absorb` says. -/
theorem Represents.mergeGrouping (h : Represents s P) (malloc : Malloc α) (turn : ℕ) (grouping : Finset α) :
    ∃ s', mergeGrouping malloc turn grouping s = some s' ∧ Represents s' (absorb P grouping) := by
  obtain ⟨s',group,hrun,hm⟩ := h.mergeHits (malloc.fresh turn s.heap) grouping
  refine ⟨_, ?_, hm.represents h⟩
  rw [Wallet.mergeGrouping]
  simp only [hrun, Option.bind_eq_bind, Option.bind_some, hm.new, Option.pure_def]

/-- The loop computes the components, whatever the order of the groupings. -/
theorem Represents.mergeAll (h : Represents s P) (malloc : Malloc α) (gs groupings : List (Finset α))
    (hcomp : Components gs P) (hne : ∀ grouping ∈ groupings, grouping.Nonempty) :
    ∃ s' P', mergeAll malloc groupings s = some s' ∧ Represents s' P' ∧
      Components (groupings.reverse ++ gs) P' := by
  induction groupings generalizing s P gs with
  | nil => exact ⟨s, P, rfl, h, hcomp⟩
  | cons grouping groupings ih =>
    rw [List.forall_mem_cons] at hne
    obtain ⟨next,hnext,hrep⟩ := h.mergeGrouping malloc groupings.length grouping
    obtain ⟨s',P',hrun,hrep',hcomp'⟩ := ih hrep (grouping :: gs) (hcomp.absorb hne.1) hne.2
    refine ⟨s', P', ?_, hrep', ?_⟩
    · rw [Wallet.mergeAll, hnext, Option.bind_eq_bind, Option.bind_some, hrun]
    · rwa [List.reverse_cons, List.append_assoc, List.singleton_append]

/-- The last loop follows and deletes every pointer once. -/
theorem collectGroups_spec (pointers : List ℕ) (hnodup : pointers.Nodup) (heap : GroupHeap α)
    (hlive : ∀ p ∈ pointers, p ∈ heap) (ret : Finset (Finset α)) :
    ∃ ret' heap', collectGroups pointers heap ret = some (ret',heap') ∧
      (∀ k, k ∈ ret' ↔ k ∈ ret ∨ ∃ p ∈ pointers, heap.lookup p = some k) ∧
      ∀ p, p ∈ heap' ↔ p ∈ heap ∧ p ∉ pointers := by
  -- a pointer is read once: each group is copied before it is freed
  induction pointers generalizing heap ret with
  | nil => exact ⟨ret, heap, rfl, by simp, by simp⟩
  | cons p pointers ih =>
    rw [List.nodup_cons] at hnodup
    rw [List.forall_mem_cons] at hlive
    obtain ⟨group,hgroup⟩ := GroupHeap.mem_iff.mp hlive.1
    have hne (q : ℕ) (hq : q ∈ pointers) : q ≠ p := by
      rintro rfl
      exact hnodup.1 hq
    obtain ⟨ret',heap',hrun,hret,hheap⟩ := ih hnodup.2 (heap.erase p)
      (fun q hq => AList.mem_erase.mpr ⟨hne q hq, hlive.2 q hq⟩) (insert group ret)
    refine ⟨ret', heap', ?_, fun k => ?_, fun q => ?_⟩
    · rw [collectGroups, hgroup]
      simp only [Option.bind_eq_bind, Option.bind_some, GroupHeap.delete_eq hgroup, hrun]
    · rw [hret, Finset.mem_insert, List.exists_mem_cons_iff, hgroup, Option.some_inj, eq_comm,
        or_comm (a := group = k), or_assoc]
      refine or_congr_right (or_congr_right (exists_congr fun q => and_congr_right fun hq => ?_))
      rw [AList.lookup_erase_ne (hne q hq)]
    · rw [hheap, AList.mem_erase, List.mem_cons, not_or]
      constructor
      · exact fun ⟨⟨hqp,hq⟩,hnot⟩ => ⟨hq, hqp, hnot⟩
      · exact fun ⟨hq,hqp,hnot⟩ => ⟨⟨hqp, hq⟩, hnot⟩

end Merge

end Candypool.Wallet
