import Mathlib.Data.List.Sort
import Mathlib.Algebra.Order.Group.Int

/-! The element of a rank, and the median. -/
namespace Candypool.Lib

section Rank
variable {α : Type*} [LinearOrder α]

/-- `v` has rank `k` in `l`: at most `k` elements are smaller, and more than `k` are not larger. -/
structure Rank (l : List α) (k : ℕ) (v : α) : Prop where
  below : l.countP (· < v) ≤ k
  upTo : k < l.countP (· ≤ v)

variable {l s : List α} {k : ℕ} {v w : α}

theorem Rank.le (hv : Rank l k v) (hw : Rank l k w) : v ≤ w := by
  by_contra hlt
  -- what is not larger than `w` is smaller than `v`
  have hmono : l.countP (· ≤ w) ≤ l.countP (· < v) := by
    apply List.countP_mono_left
    intro x _ hx
    exact decide_eq_true ((of_decide_eq_true hx).trans_lt (not_le.mp hlt))
  exact absurd (hw.upTo.trans_le hmono) (not_lt.mpr hv.below)

theorem Rank.unique (hv : Rank l k v) (hw : Rank l k w) : v = w := le_antisymm (hv.le hw) (hw.le hv)

theorem Rank.perm (h : Rank s k v) (hperm : s.Perm l) : Rank l k v := by
  refine ⟨?_, ?_⟩
  · rw [← hperm.countP_eq]
    exact h.below
  · rw [← hperm.countP_eq]
    exact h.upTo

/-- In a sorted list the place of an element is its rank. -/
theorem rank_of_sorted (hsorted : s.Pairwise (· ≤ ·)) (hk : s[k]? = some v) : Rank s k v := by
  obtain ⟨hlt,hget⟩ := List.getElem?_eq_some_iff.mp hk
  have hsplit : s = s.take k ++ v :: s.drop (k+1) := by
    rw [← hget, ← List.drop_eq_getElem_cons hlt, List.take_append_drop]
  have htake : (s.take k).length = k := by
    rw [List.length_take]
    omega
  have hpair := hsorted
  rw [hsplit, List.pairwise_append, List.pairwise_cons] at hpair
  obtain ⟨-,⟨hafter,-⟩,hbefore⟩ := hpair
  refine ⟨?_, ?_⟩
  · rw [hsplit, List.countP_append]
    have hnone : (v :: s.drop (k+1)).countP (· < v) = 0 := by
      rw [List.countP_eq_zero]
      intro x hx
      rcases List.mem_cons.mp hx with rfl | hx
      · simp
      · simpa using hafter x hx
    rw [hnone, Nat.add_zero]
    exact List.countP_le_length.trans_eq htake
  · rw [hsplit, List.countP_append]
    have hall : (s.take k).countP (· ≤ v) = k := by
      rw [List.countP_eq_length.mpr, htake]
      exact fun x hx => decide_eq_true (hbefore x hx v List.mem_cons_self)
    have hself : 0 < (v :: s.drop (k+1)).countP (· ≤ v) :=
      List.countP_pos_iff.mpr ⟨v, List.mem_cons_self, decide_eq_true le_rfl⟩
    omega

end Rank

/-- The median: the middle element, or the mean of the two in the middle, rounded towards zero. -/
def IsMedian (l : List ℤ) (m : ℤ) : Prop :=
  ∃ a b, Rank l ((l.length-1)/2) a ∧ Rank l (l.length/2) b ∧ m = (a+b).tdiv 2

theorem IsMedian.unique {l : List ℤ} {m n : ℤ} (hm : IsMedian l m) (hn : IsMedian l n) : m = n := by
  obtain ⟨a,b,ha,hb,rfl⟩ := hm
  obtain ⟨c,d,hc,hd,rfl⟩ := hn
  rw [ha.unique hc, hb.unique hd]

end Candypool.Lib
