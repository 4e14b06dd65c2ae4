import Mathlib.Data.Nat.ModEq
import Mathlib.Tactic.Common

/-! A ring that holds a window of a longer list: position `p` of the list lies at `p` modulo the size of
the ring, and new elements overwrite those that fall out of the window. -/
namespace Candypool.Lib

variable {α : Type}

def overwrite (buf : List α) (pos : ℕ) (new : List α) : List α :=
  buf.take pos ++ (new ++ buf.drop (pos+new.length))

/-- The ring holds the positions from `lo` on that are below `hi`. -/
def RingWindow (src buf : List α) (lo hi : ℕ) : Prop :=
  ∀ p, lo ≤ p → p < hi → buf[p % buf.length]? = src[p]?

section Overwrite
variable {buf new : List α} {pos i : ℕ}

theorem overwrite_length (h : pos+new.length ≤ buf.length) :
    (overwrite buf pos new).length = buf.length := by
  rw [overwrite, List.length_append, List.length_append, List.length_take, List.length_drop]
  omega

theorem overwrite_inside (h : pos ≤ buf.length) (hi : i < new.length) :
    (overwrite buf pos new)[pos+i]? = new[i]? := by
  have htaken : (buf.take pos).length = pos := List.length_take_of_le h
  rw [overwrite, List.getElem?_append_right (by omega), htaken, Nat.add_sub_cancel_left,
    List.getElem?_append_left hi]

theorem overwrite_outside (h : pos+new.length ≤ buf.length) (hi : i < pos ∨ pos+new.length ≤ i) :
    (overwrite buf pos new)[i]? = buf[i]? := by
  have htaken : (buf.take pos).length = pos := List.length_take_of_le (by omega)
  rw [overwrite]
  rcases hi with hi | hi
  · rw [List.getElem?_append_left (by omega), List.getElem?_take_of_lt hi]
  · rw [List.getElem?_append_right (by omega), List.getElem?_append_right (by omega), htaken,
      List.getElem?_drop]
    congr 1
    omega

end Overwrite

section Window
variable {src buf new : List α} {lo hi n p : ℕ}

/-- Positions that lie together in the ring are a whole turn apart. -/
theorem ring_apart {size p q : ℕ} (hlt : q < p) (hclose : p < q+size) : p % size ≠ q % size := by
  intro heq
  have hdvd : size ∣ p-q := (Nat.modEq_iff_dvd' hlt.le).mp heq.symm
  have hle := Nat.le_of_dvd (by omega) hdvd
  omega

theorem ring_ahead {size p k : ℕ} (h : p % size+k < size) : (p+k) % size = p % size+k := by
  have hk : k % size = k := Nat.mod_eq_of_lt (by omega)
  rw [Nat.add_mod_of_add_mod_lt (by omega), hk]

theorem RingWindow.mono {lo' hi' : ℕ} (h : RingWindow src buf lo hi) (hlo : lo ≤ lo')
    (hhi : hi' ≤ hi) : RingWindow src buf lo' hi' :=
  fun p hp hp' => h p (hlo.trans hp) (hp'.trans_le hhi)

/-- The window moves on over what is written behind it, and loses what that overwrites. -/
theorem RingWindow.fill (h : RingWindow src buf lo hi) (hnew : new = (src.drop hi).take n)
    (hroom : hi % buf.length+new.length ≤ buf.length) :
    RingWindow src (overwrite buf (hi % buf.length) new) (max lo (hi+new.length-buf.length))
      (hi+new.length) := by
  intro p hlo hhi
  rw [overwrite_length hroom]
  by_cases hp : hi ≤ p
  · obtain ⟨k,rfl⟩ := Nat.exists_eq_add_of_le hp
    have hk : k < new.length := by omega
    have hkn : k < n := by
      rw [hnew, List.length_take] at hk
      omega
    rw [ring_ahead (by omega), overwrite_inside (by omega) hk, hnew, List.getElem?_take_of_lt hkn,
      List.getElem?_drop]
  · rw [not_le] at hp
    -- an older position of the window is not under the new elements
    rw [overwrite_outside hroom, h p (le_trans (le_max_left _ _) hlo) hp]
    by_contra hunder
    rw [not_or, not_lt, not_le] at hunder
    obtain ⟨k,hk⟩ := Nat.exists_eq_add_of_le hunder.1
    have hsame : (hi+k) % buf.length = p % buf.length := by
      rw [ring_ahead (by omega), hk]
    exact ring_apart (by omega) (by omega) hsame

/-- What lies in one piece of the ring is copied out as it stands in the list. -/
theorem RingWindow.read (h : RingWindow src buf lo hi) (hlo : lo ≤ p) (hhi : p+n ≤ hi)
    (hpiece : p % buf.length+n ≤ buf.length) :
    (buf.drop (p % buf.length)).take n = (src.drop p).take n := by
  apply List.ext_getElem?
  intro k
  by_cases hk : k < n
  · have hwindow := h (p+k) (by omega) (by omega)
    rw [ring_ahead (by omega)] at hwindow
    rw [List.getElem?_take_of_lt hk, List.getElem?_take_of_lt hk, List.getElem?_drop,
      List.getElem?_drop, hwindow]
  · rw [List.getElem?_take_eq_none (not_lt.mp hk), List.getElem?_take_eq_none (not_lt.mp hk)]

end Window

end Candypool.Lib
