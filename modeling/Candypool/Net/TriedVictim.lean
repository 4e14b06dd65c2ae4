import Candypool.Net.AddrRun
import Mathlib.Data.List.MinMax

/-! Which entry of a full tried bucket makes room. `SelectTried` draws entries to the front of the bucket
and remembers the place from which it drew the oldest one, where another entry stands afterwards. -/
namespace Candypool.Net

namespace CAddrMan

section Draws
variable (rand : ℕ → ℕ)

/-- The place from which the entry for place `i` is drawn. -/
def choice (i size : ℕ) : ℕ := rand i % (size-i)+i

def swapEntries (vTried : List ℤ) (i nPos : ℕ) : List ℤ :=
  (vTried.set nPos (vTried.getD i 0)).set i (vTried.getD nPos 0)

/-- The shuffle alone: the entries that are inspected, each with the place it was drawn from, and the
bucket at the end. -/
def drawLoop : ℕ → ℕ → List ℤ → List (ℤ × ℕ) × List ℤ
  | 0, _, vTried => ([], vTried)
  | turns+1, i, vTried =>
    if i < vTried.length then
      let nPos := choice rand i vTried.length
      let (draws,final) := drawLoop turns (i+1) (swapEntries vTried i nPos)
      ((vTried.getD nPos 0,nPos) :: draws, final)
    else ([], vTried)

def draws (vTried : List ℤ) : List (ℤ × ℕ) :=
  (drawLoop rand addrmanTriedEntriesInspectOnEvict 0 vTried).1

/-- The entries `SelectTried` compares. -/
def inspected (vTried : List ℤ) : List ℤ := (draws rand vTried).map Prod.fst

variable {rand}

theorem choice_lt {i size : ℕ} (h : i < size) : choice rand i size < size := by
  have hmod := Nat.mod_lt (rand i) (show 0 < size-i by omega)
  rw [choice]
  omega

theorem le_choice (i size : ℕ) : i ≤ choice rand i size := Nat.le_add_left _ _

theorem swapEntries_perm {vTried : List ℤ} {i nPos : ℕ} (hi : i < vTried.length)
    (hpos : nPos < vTried.length) : (swapEntries vTried i nPos).Perm vTried := by
  have hfirst : vTried.getD i 0 = vTried[i] := by
    rw [List.getD_eq_getElem?_getD, List.getElem?_eq_getElem hi, Option.getD_some]
  have hdrawn : vTried.getD nPos 0 = vTried[nPos] := by
    rw [List.getD_eq_getElem?_getD, List.getElem?_eq_getElem hpos, Option.getD_some]
  rw [swapEntries, hfirst, hdrawn]
  exact List.set_set_perm hpos hi

/-- The places before `i` are left alone. -/
theorem swapEntries_before {vTried : List ℤ} {i nPos q : ℕ} (hq : q < i) (hle : i ≤ nPos) :
    (swapEntries vTried i nPos)[q]? = vTried[q]? := by
  rw [swapEntries, List.getElem?_set_ne (by omega), List.getElem?_set_ne (by omega)]

variable (rand) in
theorem drawLoop_perm (turns i : ℕ) (vTried : List ℤ) :
    (drawLoop rand turns i vTried).2.Perm vTried := by
  induction turns generalizing i vTried with
  | zero => exact List.Perm.refl _
  | succ turns ih =>
    rw [drawLoop]
    split_ifs with hi
    · exact (ih _ _).trans (swapEntries_perm hi (choice_lt hi))
    · exact List.Perm.refl _

theorem drawLoop_before (turns : ℕ) {i q : ℕ} (vTried : List ℤ) (hq : q < i) :
    (drawLoop rand turns i vTried).2[q]? = vTried[q]? := by
  induction turns generalizing i vTried with
  | zero => rfl
  | succ turns ih =>
    rw [drawLoop]
    split_ifs with hi
    · exact (ih _ (by omega)).trans (swapEntries_before hq (le_choice _ _))
    · rfl

/-- What is drawn for a place stays there. -/
theorem drawLoop_drawn (turns i : ℕ) (vTried : List ℤ) {j : ℕ} {e : ℤ × ℕ}
    (h : (drawLoop rand turns i vTried).1[j]? = some e) :
    (drawLoop rand turns i vTried).2[i+j]? = some e.1 := by
  induction turns generalizing i vTried j with
  | zero => simp [drawLoop] at h
  | succ turns ih =>
    rw [drawLoop] at h ⊢
    split_ifs at h ⊢ with hi
    · cases j with
      | zero =>
        obtain rfl := Option.some.inj h
        rw [Nat.add_zero]
        -- later turns only swap places behind this one
        apply (drawLoop_before turns _ (Nat.lt_succ_self i)).trans
        rw [swapEntries, List.getElem?_set_self (by rw [List.length_set]; exact hi)]
      | succ j =>
        have hnext := ih _ _ h
        rwa [show i+1+j = i+(j+1) by omega] at hnext
    · simp at h

/-- A drawn entry comes from the bucket. -/
theorem inspected_subset {vTried : List ℤ} {n : ℤ} (hn : n ∈ inspected rand vTried) : n ∈ vTried := by
  obtain ⟨⟨m,p⟩,he,rfl⟩ := List.mem_map.mp hn
  obtain ⟨j,hj⟩ := List.mem_iff_getElem?.mp he
  have hstay := drawLoop_drawn _ _ _ hj
  exact (drawLoop_perm _ _ _ _).mem_iff.mp (List.mem_of_getElem? hstay)

end Draws

section Oldest
variable {am : CAddrMan} {rand : ℕ → ℕ} {age : ℤ → ℤ}

end Oldest

section Evict
variable {env : AddrEnv} {am am' : CAddrMan} {rand : ℕ → ℕ}

end Evict

end CAddrMan

end Candypool.Net
