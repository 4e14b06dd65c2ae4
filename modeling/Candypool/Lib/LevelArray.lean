import Candypool.Lib.PairTree
import Mathlib.Data.Nat.Bitwise

/-! The levels of a tree one after the other in an array: where a node stands, and how a walk from a
leaf to the root finds the neighbour of each node. -/
namespace Candypool.Lib

section Array
variable {α : Type*} {f : α → α → α} {leaves : List α}

/-- Where the level at height `h` begins. -/
def levelOffset (n : ℕ) : ℕ → ℕ
  | 0 => 0
  | h+1 => levelOffset n h+treeWidth n h

/-- The levels below height `h`, the leaves first. -/
def levelArray (f : α → α → α) (leaves : List α) : ℕ → List α
  | 0 => []
  | h+1 => levelArray f leaves h ++ levelAt f leaves h

theorem levelArray_length (leaves : List α) (h : ℕ) :
    (levelArray f leaves h).length = levelOffset leaves.length h := by
  induction h with
  | zero => rfl
  | succ h ih => rw [levelArray, List.length_append, ih, levelAt_length, levelOffset]

theorem levelOffset_eq_sum (n h : ℕ) :
    levelOffset n h = ((List.range h).map (treeWidth n)).sum := by
  induction h with
  | zero => rfl
  | succ h ih =>
    rw [levelOffset, ih, List.range_succ, List.map_append, List.sum_append, List.map_singleton,
      List.sum_singleton]

theorem levelArray_eq_flatten (leaves : List α) (h : ℕ) :
    levelArray f leaves h = ((List.range h).map (levelAt f leaves)).flatten := by
  induction h with
  | zero => rfl
  | succ h ih =>
    rw [levelArray, ih, List.range_succ, List.map_append, List.flatten_append, List.map_singleton,
      List.flatten_singleton]

/-- A node of a level stands behind the levels below. -/
theorem levelArray_getElem? {h i pos : ℕ} (hi : i < h) (hpos : pos < treeWidth leaves.length i) :
    (levelArray f leaves h)[levelOffset leaves.length i+pos]? = (levelAt f leaves i)[pos]? := by
  induction h with
  | zero => exact absurd hi (Nat.not_lt_zero i)
  | succ h ih =>
    have hlen := levelArray_length (f := f) leaves
    rw [levelArray]
    by_cases hlast : i = h
    · rw [hlast, List.getElem?_append_right (by rw [hlen]; exact Nat.le_add_right _ _), hlen,
        Nat.add_sub_cancel_left]
    · have hbelow : i < h := by omega
      have hshort : levelOffset leaves.length i+pos < (levelArray f leaves h).length := by
        have hsome : (levelAt f leaves i)[pos]? ≠ none := by
          rw [List.getElem?_eq_getElem (by rw [levelAt_length]; exact hpos)]
          exact Option.some_ne_none _
        rw [← ih hbelow] at hsome
        by_contra hlong
        exact hsome (List.getElem?_eq_none (not_lt.mp hlong))
      rw [List.getElem?_append_left hshort, ih hbelow]

/-- The neighbour of a node: the last node of an odd level is its own. -/
def neighbour (width pos : ℕ) : ℕ := min (pos ^^^ 1) (width-1)

theorem neighbour_lt {width pos : ℕ} (hpos : pos < width) : neighbour width pos < width := by
  rw [neighbour]
  omega

/-- From a node and its neighbour to the node above them. -/
theorem levelAt_parent {h pos : ℕ} {v otherside : α}
    (hv : (levelAt f leaves h)[pos]? = some v)
    (hother : (levelAt f leaves h)[neighbour (treeWidth leaves.length h) pos]? = some otherside) :
    (levelAt f leaves (h+1))[pos/2]? =
      some (if pos % 2 = 1 then f otherside v else f v otherside) := by
  have hlen := levelAt_length (f := f) leaves h
  have hpos : pos < treeWidth leaves.length h := by
    rw [← hlen]
    exact (List.getElem?_eq_some_iff.mp hv).1
  rw [levelAt_succ_getElem?]
  rcases Nat.even_or_odd' pos with ⟨k,rfl | rfl⟩
  · have hflip : 2*k ^^^ 1 = 2*k+1 := Nat.xor_one_of_even (even_two_mul k)
    have hhalf : 2*k/2 = k := by omega
    rw [neighbour, hflip] at hother
    rw [hhalf, hv, Option.map_some, if_neg (by omega)]
    by_cases hlast : 2*k+1 < treeWidth leaves.length h
    · rw [min_eq_left (by omega)] at hother
      rw [hother, Option.getD_some]
    · have hsame : min (2*k+1) (treeWidth leaves.length h-1) = 2*k := by omega
      rw [hsame, hv] at hother
      obtain rfl := Option.some.inj hother
      rw [List.getElem?_eq_none (by omega), Option.getD_none]
  · have hflip : 2*k+1 ^^^ 1 = 2*k := Nat.xor_one_of_odd ⟨k,rfl⟩
    have hhalf : (2*k+1)/2 = k := by omega
    rw [neighbour, hflip, min_eq_left (by omega)] at hother
    rw [hhalf, hother, Option.map_some, hv, Option.getD_some, if_pos (by omega)]

end Array

end Candypool.Lib
