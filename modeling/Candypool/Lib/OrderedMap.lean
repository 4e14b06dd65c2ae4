import Mathlib.Data.List.Basic
import Mathlib.Order.Lattice

/-! Maps as lists of entries in the order of their keys, and what it means that a map shows the entries
that were put into it. -/
namespace Candypool.Lib
namespace OrderedMap
variable {α β : Type}

section Set
variable [DecidableEq α] [LT α] [DecidableLT α]

/-- The entry of `k` is replaced, or comes before the first larger key. -/
def set (k : α) (v : β) : List (α × β) → List (α × β)
  | [] => [(k,v)]
  | entry :: m =>
    if k = entry.1 then (k,v) :: m
    else if k < entry.1 then (k,v) :: entry :: m
    else entry :: set k v m

theorem lookup_set [BEq α] [LawfulBEq α] (k a : α) (v : β) (m : List (α × β)) :
    (set k v m).lookup a = if a = k then some v else m.lookup a := by
  induction m with
  | nil =>
    rw [set, List.lookup_cons]
    by_cases ha : a = k
    · rw [if_pos ha, beq_iff_eq.mpr ha]
    · rw [if_neg ha, beq_eq_false_iff_ne.mpr ha]
  | cons entry m ih =>
    rw [set]
    by_cases ha : a = k
    · subst ha
      rw [if_pos rfl] at ih ⊢
      split_ifs with hk hlt
      · exact List.lookup_cons_self
      · exact List.lookup_cons_self
      · rw [List.lookup_cons, beq_eq_false_iff_ne.mpr hk]
        exact ih
    · rw [if_neg ha] at ih ⊢
      have hne : (a == k) = false := beq_eq_false_iff_ne.mpr ha
      split_ifs with hk hlt
      · rw [List.lookup_cons, List.lookup_cons, ← hk, hne]
      · rw [List.lookup_cons, hne]
      · rw [List.lookup_cons, List.lookup_cons, ih]

theorem mem_set {k : α} {v : β} {m : List (α × β)} {entry : α × β} (h : entry ∈ set k v m) :
    entry = (k,v) ∨ entry ∈ m := by
  induction m with
  | nil => exact Or.inl (List.mem_singleton.mp h)
  | cons first m ih =>
    rw [set] at h
    split_ifs at h
    · exact (List.mem_cons.mp h).imp_right (List.mem_cons_of_mem _)
    · exact List.mem_cons.mp h
    · rcases List.mem_cons.mp h with rfl | h
      · exact Or.inr List.mem_cons_self
      · exact (ih h).imp_right (List.mem_cons_of_mem _)

end Set

section Ordered
variable {α β : Type} [LinearOrder α] {m : List (α × β)}

/-- The keys increase. -/
def Ordered (m : List (α × β)) : Prop := m.Pairwise fun e e' => e.1 < e'.1

theorem Ordered.set (h : Ordered m) (k : α) (v : β) : Ordered (OrderedMap.set k v m) := by
  induction m with
  | nil => exact List.pairwise_singleton _ _
  | cons entry m ih =>
    obtain ⟨hfirst,hrest⟩ := List.pairwise_cons.mp h
    rw [OrderedMap.set]
    split_ifs with hk hlt
    · exact List.pairwise_cons.mpr ⟨fun e he => hk ▸ hfirst e he, hrest⟩
    · refine List.pairwise_cons.mpr ⟨fun e he => ?_, h⟩
      rcases List.mem_cons.mp he with rfl | he
      · exact hlt
      · exact lt_trans hlt (hfirst e he)
    · refine List.pairwise_cons.mpr ⟨fun e he => ?_, ih hrest⟩
      rcases mem_set he with rfl | he
      · exact lt_of_le_of_ne (not_lt.mp hlt) (Ne.symm hk)
      · exact hfirst e he

theorem Ordered.nodup (h : Ordered m) : m.Nodup :=
  h.imp fun hlt heq => ne_of_lt hlt (congrArg Prod.fst heq)

end Ordered

/-- Entries of one key are one entry. -/
def Functional (entries : List (α × β)) : Prop :=
  ∀ e ∈ entries, ∀ e' ∈ entries, e.1 = e'.1 → e = e'

variable [BEq α]

/-- The map finds each of the entries, and has no others. -/
structure Shows (m entries : List (α × β)) : Prop where
  finds : ∀ e ∈ entries, m.lookup e.1 = some e.2
  only : ∀ e ∈ m, e ∈ entries

namespace Shows
variable {m entries entries' : List (α × β)} {k : α} {v : β}

theorem nil : Shows ([] : List (α × β)) [] :=
  ⟨fun _ h => absurd h List.not_mem_nil, fun _ h => absurd h List.not_mem_nil⟩

theorem congr (h : Shows m entries) (heq : ∀ e, e ∈ entries ↔ e ∈ entries') : Shows m entries' :=
  ⟨fun e he => h.finds e ((heq e).mpr he), fun e he => (heq e).mp (h.only e he)⟩

variable [LawfulBEq α]

theorem mem_of_lookup {a : α} {b : β} (h : m.lookup a = some b) : (a,b) ∈ m := by
  obtain ⟨first,rest,rfl,-⟩ := List.lookup_eq_some_iff.mp h
  exact List.mem_append_right _ List.mem_cons_self

theorem lookup_mem (h : Shows m entries) {a : α} {b : β} (hlookup : m.lookup a = some b) :
    (a,b) ∈ entries := h.only _ (mem_of_lookup hlookup)

theorem lookup_none (h : Shows m entries) {a : α} (hnone : ∀ e ∈ entries, e.1 ≠ a) :
    m.lookup a = none := by
  cases hlookup : m.lookup a with
  | none => rfl
  | some b => exact absurd rfl (hnone _ (h.lookup_mem hlookup))

theorem mem (h : Shows m entries) {e : α × β} : e ∈ m ↔ e ∈ entries :=
  ⟨h.only e, fun he => mem_of_lookup (h.finds e he)⟩

theorem ne_nil (h : Shows m entries) (hne : entries ≠ []) : m ≠ [] := by
  obtain ⟨e,he⟩ := List.exists_mem_of_ne_nil _ hne
  exact List.ne_nil_of_mem (h.mem.mpr he)

/-- A record behind the others, of a key that has none. -/
theorem append (h : Shows m entries) (hnew : ∀ e ∈ entries, e.1 ≠ k) :
    Shows (m ++ [(k,v)]) (entries ++ [(k,v)]) := by
  constructor
  · intro e he
    rw [List.lookup_append]
    rcases List.mem_append.mp he with he | he
    · rw [h.finds e he]
      rfl
    · obtain rfl := List.mem_singleton.mp he
      rw [h.lookup_none hnew]
      exact List.lookup_cons_self
  · intro e he
    rcases List.mem_append.mp he with he | he
    · exact List.mem_append_left _ (h.only e he)
    · exact List.mem_append_right _ he

variable [DecidableEq α] [LT α] [DecidableLT α]

theorem set (h : Shows m entries) (hsame : ∀ e ∈ entries, e.1 = k → e.2 = v) :
    Shows (OrderedMap.set k v m) (entries ++ [(k,v)]) := by
  constructor
  · intro e he
    rw [lookup_set]
    rcases List.mem_append.mp he with he | he
    · split_ifs with hk
      · rw [hsame e he hk]
      · exact h.finds e he
    · obtain rfl := List.mem_singleton.mp he
      exact if_pos rfl
  · intro e he
    rcases mem_set he with rfl | he
    · exact List.mem_append_right _ (List.mem_singleton_self _)
    · exact List.mem_append_left _ (h.only e he)

/-- Putting entries into a map one after the other. -/
theorem foldl {later : List (α × β)} (h : Shows m entries) (hfun : Functional (entries ++ later)) :
    Shows (later.foldl (fun m e => OrderedMap.set e.1 e.2 m) m) (entries ++ later) := by
  induction later generalizing m entries with
  | nil =>
    rw [List.append_nil]
    exact h
  | cons e later ih =>
    have hsplit : entries ++ e :: later = (entries ++ [e]) ++ later := by
      rw [List.append_assoc]
      rfl
    rw [hsplit] at hfun ⊢
    refine ih (h.set fun e' he' hk => ?_) hfun
    have heq := hfun e' (List.mem_append_left _ (List.mem_append_left _ he')) e
      (List.mem_append_left _ (List.mem_append_right _ (List.mem_singleton_self e))) hk
    rw [heq]

end Shows
end OrderedMap
end Candypool.Lib
