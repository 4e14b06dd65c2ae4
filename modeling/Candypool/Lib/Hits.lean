import Mathlib.Data.List.Flatten
import Mathlib.Data.List.Nodup
import Mathlib.Tactic.Common

/-! Scanning an interval for the places where a predicate holds, and joining scans of several tables. -/
namespace Candypool.Lib

section Hits
variable {hit hit' : ℕ → Bool} {lo mid hi j : ℕ} {rest : List ℕ}

/-- The places from `lo` to `hi`, the end left out, in increasing order. -/
def hitsFrom (hit : ℕ → Bool) (lo hi : ℕ) : List ℕ := (List.range' lo (hi-lo)).filter hit

theorem hitsFrom_of_le (hle : hi ≤ lo) : hitsFrom hit lo hi = [] := by
  have hzero : hi-lo = 0 := by omega
  rw [hitsFrom, hzero]
  rfl

theorem hitsFrom_step (hlt : lo < hi) : hitsFrom hit lo hi =
    if hit lo then lo :: hitsFrom hit (lo+1) hi else hitsFrom hit (lo+1) hi := by
  have hsucc : hi-lo = (hi-(lo+1))+1 := by omega
  rw [hitsFrom, hsucc, List.range'_succ, List.filter_cons]
  rfl

theorem mem_hitsFrom : j ∈ hitsFrom hit lo hi ↔ lo ≤ j ∧ j < hi ∧ hit j = true := by
  rw [hitsFrom, List.mem_filter, List.mem_range'_1]
  constructor
  · intro h
    exact ⟨h.1.1, by omega, h.2⟩
  · intro h
    exact ⟨by omega, h.2.2⟩

theorem hitsFrom_congr (h : ∀ j, lo ≤ j → j < hi → hit j = hit' j) :
    hitsFrom hit lo hi = hitsFrom hit' lo hi := by
  apply List.filter_congr
  intro j hmem
  have hrange := List.mem_range'_1.mp hmem
  exact h j hrange.1 (by omega)

theorem hitsFrom_append (hlo : lo ≤ mid) (hhi : mid ≤ hi) :
    hitsFrom hit lo hi = hitsFrom hit lo mid ++ hitsFrom hit mid hi := by
  obtain ⟨m,rfl⟩ := Nat.exists_eq_add_of_le hlo
  obtain ⟨n,rfl⟩ := Nat.exists_eq_add_of_le hhi
  have h1 : lo+m+n-lo = m+n := by omega
  have h2 : lo+m-lo = m := by omega
  have h3 : lo+m+n-(lo+m) = n := by omega
  rw [hitsFrom, hitsFrom, hitsFrom, h1, h2, h3, ← List.filter_append, List.range'_append_1]

/-- A stretch without hits may be skipped. -/
theorem hitsFrom_skip (hlo : lo ≤ mid) (h : ∀ j, lo ≤ j → j < mid → hit j = false) :
    hitsFrom hit lo hi = hitsFrom hit mid hi := by
  induction hn : mid-lo generalizing lo with
  | zero =>
    have heq : lo = mid := by omega
    rw [heq]
  | succ n ih =>
    have hmiss := h lo (Nat.le_refl lo) (by omega)
    have hnext := @ih (lo+1) (by omega) (fun j hj => h j (by omega)) (by omega)
    by_cases hend : lo < hi
    · rw [hitsFrom_step hend, hmiss, if_neg Bool.false_ne_true, hnext]
    · rw [hitsFrom_of_le (by omega), hitsFrom_of_le (by omega)]

/-- After the first hit the scan goes on behind it. -/
theorem hitsFrom_tail (h : hitsFrom hit lo hi = j :: rest) :
    rest = hitsFrom hit (j+1) hi ∧ lo ≤ j ∧ j < hi ∧ hit j = true := by
  induction hn : hi-lo generalizing lo with
  | zero =>
    rw [hitsFrom_of_le (by omega)] at h
    cases h
  | succ n ih =>
    rw [hitsFrom_step (by omega)] at h
    by_cases hhit : hit lo = true
    · rw [if_pos hhit] at h
      obtain ⟨rfl,rfl⟩ := List.cons.inj h
      exact ⟨rfl, Nat.le_refl lo, by omega, hhit⟩
    · rw [if_neg hhit] at h
      obtain ⟨hrest,hle,hlt⟩ := ih h (by omega)
      exact ⟨hrest, by omega, hlt⟩

/-- What the first part finds first decides, as long as it is not found behind it. -/
theorem head?_append_iff {l l' r : List ℕ} {b : ℕ} (hl : ∀ x ∈ l, x < b) (hl' : ∀ x ∈ l', x < b)
    (hr : ∀ x ∈ r, b ≤ x) : (l ++ r).head? = (l' ++ r).head? ↔ l.head? = l'.head? := by
  cases l with
  | nil =>
    cases l' with
    | nil => simp
    | cons y l' =>
      have hy := hl' y List.mem_cons_self
      apply iff_of_false
      · intro h
        have hmem : y ∈ r := List.mem_of_mem_head? (by simpa using h)
        have := hr y hmem
        omega
      · simp
  | cons x l =>
    cases l' with
    | nil =>
      have hx := hl x List.mem_cons_self
      apply iff_of_false
      · intro h
        have hmem : x ∈ r := List.mem_of_mem_head? (by simpa using h.symm)
        have := hr x hmem
        omega
      · simp
    | cons y l' => simp

end Hits

section Join
variable {κ β : Type*} [DecidableEq κ] {tag : β → κ} {f g : κ → List β} {ks : List κ}

/-- The elements with one tag come from the list of that tag. -/
theorem filter_flatMap_tag (hnodup : ks.Nodup) (hf : ∀ k, ∀ x ∈ f k, tag x = k) {k : κ}
    (hk : k ∈ ks) : (ks.flatMap f).filter (fun x => tag x = k) = f k := by
  induction ks with
  | nil => cases hk
  | cons k' ks ih =>
    obtain ⟨hnot,hrest⟩ := List.nodup_cons.mp hnodup
    rw [List.flatMap_cons, List.filter_append]
    by_cases heq : k = k'
    · have hhere : (f k').filter (fun x => tag x = k) = f k' := by
        apply List.filter_eq_self.mpr
        intro x hx
        simp [hf k' x hx, heq]
      have hthere : (ks.flatMap f).filter (fun x => tag x = k) = [] := by
        apply List.filter_eq_nil_iff.mpr
        intro x hx
        obtain ⟨k1,hk1,hx1⟩ := List.mem_flatMap.mp hx
        rw [hf k1 x hx1, heq, decide_eq_true_eq]
        intro hsame
        exact hnot (hsame ▸ hk1)
      rw [hhere, hthere, List.append_nil, heq]
    · have hhere : (f k').filter (fun x => tag x = k) = [] := by
        apply List.filter_eq_nil_iff.mpr
        intro x hx
        rw [hf k' x hx, decide_eq_true_eq]
        exact Ne.symm heq
      rw [hhere, List.nil_append]
      exact ih hrest ((List.mem_cons.mp hk).resolve_left heq)

theorem flatMap_eq_iff_of_tag (hnodup : ks.Nodup) (hf : ∀ k, ∀ x ∈ f k, tag x = k)
    (hg : ∀ k, ∀ x ∈ g k, tag x = k) : ks.flatMap f = ks.flatMap g ↔ ∀ k ∈ ks, f k = g k := by
  constructor
  · intro h k hk
    rw [← filter_flatMap_tag hnodup hf hk, h, filter_flatMap_tag hnodup hg hk]
  · exact List.flatMap_congr

/-- Two maps that keep their index give one list only on one list of indexes. -/
theorem map_eq_map_iff_of_index {α γ : Type*} {index : γ → α} {p q : α → γ} {l l' : List α}
    (hp : ∀ a, index (p a) = a) (hq : ∀ a, index (q a) = a) :
    l.map p = l'.map q ↔ l = l' ∧ ∀ a ∈ l', p a = q a := by
  constructor
  · intro h
    have hl : l = l' := by
      have hindex := congrArg (List.map index) h
      rw [List.map_map, List.map_map, funext (f := index ∘ p) hp, funext (f := index ∘ q) hq,
        List.map_id', List.map_id'] at hindex
      exact hindex
    subst hl
    exact ⟨rfl, List.map_inj_left.mp h⟩
  · intro h
    rw [h.1]
    exact List.map_congr_left h.2

end Join

end Candypool.Lib
