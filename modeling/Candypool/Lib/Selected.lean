import Mathlib.Algebra.Order.BigOperators.Group.List
import Mathlib.Data.List.Basic
import Mathlib.Tactic.Common
import Mathlib.Tactic.Ring

/-! The entries of a list that flags select, and how their sum changes with a flag. -/
namespace Candypool.Lib

section Selected
variable {α : Type*}

def selected : List Bool → List α → List α
  | [], _ => []
  | _ :: _, [] => []
  | flag :: flags, x :: xs => if flag then x :: selected flags xs else selected flags xs

theorem selected_sublist (flags : List Bool) (xs : List α) : (selected flags xs).Sublist xs := by
  induction flags generalizing xs with
  | nil =>
    rw [selected]
    exact List.nil_sublist xs
  | cons flag flags ih =>
    cases xs with
    | nil =>
      rw [selected]
    | cons x xs =>
      rw [selected]
      split_ifs with hflag
      · exact (ih xs).cons_cons x
      · exact (ih xs).cons x

theorem selected_all (xs : List α) : selected (List.replicate xs.length true) xs = xs := by
  induction xs with
  | nil => rfl
  | cons x xs ih => rw [List.length_cons, List.replicate_succ, selected, if_pos rfl, ih]

theorem selected_none (n : ℕ) (xs : List α) : selected (List.replicate n false) xs = [] := by
  induction n generalizing xs with
  | zero => rw [List.replicate_zero, selected]
  | succ n ih =>
    cases xs with
    | nil =>
      rw [List.replicate_succ, selected]
    | cons x xs => rw [List.replicate_succ, selected, if_neg Bool.false_ne_true, ih]

/-- A flag that is raised adds its entry. -/
theorem sum_selected_raise {v : α → ℤ} {flags : List Bool} {xs : List α} {i : ℕ} {x : α}
    (hflag : flags[i]? = some false) (hx : xs[i]? = some x) :
    ((selected (flags.set i true) xs).map v).sum = ((selected flags xs).map v).sum+v x := by
  induction flags generalizing i xs with
  | nil => cases hflag
  | cons flag flags ih =>
    cases xs with
    | nil => cases hx
    | cons y xs =>
      cases i with
      | zero =>
        obtain rfl := Option.some.inj hflag
        obtain rfl := Option.some.inj hx
        rw [List.set_cons_zero, selected, selected, if_pos rfl, if_neg Bool.false_ne_true,
          List.map_cons, List.sum_cons, add_comm]
      | succ i =>
        rw [List.getElem?_cons_succ] at hflag hx
        have hrest := ih hflag hx
        rw [List.set_cons_succ, selected, selected]
        cases flag with
        | true =>
          rw [if_pos rfl, if_pos rfl, List.map_cons, List.map_cons, List.sum_cons, List.sum_cons,
            hrest, add_assoc]
        | false => rw [if_neg Bool.false_ne_true, if_neg Bool.false_ne_true, hrest]

theorem set_set_self {flags : List Bool} {i : ℕ} {flag : Bool} (hflag : flags[i]? = some flag)
    (other : Bool) : (flags.set i other).set i flag = flags := by
  obtain ⟨hi,rfl⟩ := List.getElem?_eq_some_iff.mp hflag
  rw [List.set_set, List.set_getElem_self]

end Selected

end Candypool.Lib
