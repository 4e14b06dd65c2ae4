import Mathlib.Data.List.Pairwise

/-! Byte ranges handed out in several files. A range that starts at a bound of all ranges of its
file is apart from them, and the bound moves to its end. -/
namespace Candypool.Lib

/-- A range of bytes of a file. -/
structure Extent (κ : Type*) where
  file : κ
  start : ℕ
  size : ℕ
  deriving DecidableEq, Repr

section Extents
variable {κ : Type*}

def Extent.stop (e : Extent κ) : ℕ := e.start+e.size

/-- Two ranges share no byte. -/
def Extent.Apart (e e' : Extent κ) : Prop := e.file = e'.file → e.stop ≤ e'.start ∨ e'.stop ≤ e.start

/-- No two of the ranges share a byte. -/
def NoOverlap (l : List (Extent κ)) : Prop := l.Pairwise Extent.Apart

/-- Every range ends at or before the bound of its file. -/
def EndBy (bound : κ → ℕ) (l : List (Extent κ)) : Prop := ∀ e ∈ l, e.stop ≤ bound e.file

theorem endBy_nil (bound : κ → ℕ) : EndBy bound ([] : List (Extent κ)) :=
  fun _ h => absurd h List.not_mem_nil

theorem EndBy.mono {bound bound' : κ → ℕ} {l : List (Extent κ)} (h : EndBy bound l)
    (hle : ∀ e ∈ l, bound e.file ≤ bound' e.file) : EndBy bound' l :=
  fun e he => Nat.le_trans (h e he) (hle e he)

theorem EndBy.cons {bound : κ → ℕ} {l : List (Extent κ)} {e : Extent κ} (h : EndBy bound l)
    (he : e.stop ≤ bound e.file) : EndBy bound (e :: l) := by
  intro e' hmem
  rcases List.mem_cons.mp hmem with rfl | hmem
  · exact he
  · exact h e' hmem

/-- A range that starts at or behind the bound of its file is apart from the others. -/
theorem NoOverlap.append {bound : κ → ℕ} {l : List (Extent κ)} {e : Extent κ} (h : NoOverlap l)
    (hend : EndBy bound l) (hstart : bound e.file ≤ e.start) : NoOverlap (e :: l) := by
  refine List.pairwise_cons.mpr ⟨fun e' hmem hfile => Or.inr ?_, h⟩
  calc e'.stop ≤ bound e'.file := hend e' hmem
    _ = bound e.file := by rw [hfile]
    _ ≤ e.start := hstart

/-- A range that is found where it is, apart from the others. -/
theorem NoOverlap.report {l : List (Extent κ)} {e : Extent κ} (h : NoOverlap l)
    (hapart : ∀ e' ∈ l, e.Apart e') : NoOverlap (e :: l) := List.pairwise_cons.mpr ⟨hapart,h⟩

end Extents

end Candypool.Lib
