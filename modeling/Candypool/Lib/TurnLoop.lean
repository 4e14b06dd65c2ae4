import Mathlib.Logic.Relation
import Mathlib.Data.Nat.Notation
import Mathlib.Tactic.Common

/-! A loop whose turns decide whether there is another one. A turn gives either the state of the next
turn or what the loop leaves; fuel bounds the number of turns. -/
namespace Candypool.Lib

section TurnLoop
variable {σ ρ : Type*} {turn : σ → σ ⊕ ρ}

def turnLoop (turn : σ → σ ⊕ ρ) : ℕ → σ → Option ρ
  | 0, _ => none
  | fuel+1, s =>
    match turn s with
    | .inl s' => turnLoop turn fuel s'
    | .inr r => some r

/-- The states that turns lead to. -/
def Turns (turn : σ → σ ⊕ ρ) : σ → σ → Prop := Relation.ReflTransGen fun s s' => turn s = .inl s'

theorem Turns.refl (s : σ) : Turns turn s s := Relation.ReflTransGen.refl

/-- What each turn keeps holds in every state of the loop. -/
theorem Turns.induct {I : σ → Prop} {s s' : σ} (hturns : Turns turn s s') (h0 : I s)
    (hstep : ∀ t t', I t → turn t = .inl t' → I t') : I s' := by
  induction hturns with
  | refl => exact h0
  | tail _ hturn ih => exact hstep _ _ ih hturn

/-- A result is left by a turn of the loop. -/
theorem turnLoop_eq_some {fuel : ℕ} {s : σ} {r : ρ} (h : turnLoop turn fuel s = some r) :
    ∃ s', Turns turn s s' ∧ turn s' = .inr r := by
  induction fuel generalizing s with
  | zero => cases h
  | succ fuel ih =>
    rw [turnLoop] at h
    cases hturn : turn s with
    | inl t =>
      rw [hturn] at h
      obtain ⟨s',hturns,hlast⟩ := ih h
      exact ⟨s',Relation.ReflTransGen.head hturn hturns,hlast⟩
    | inr r' =>
      rw [hturn] at h
      obtain rfl := Option.some.inj h
      exact ⟨s,Turns.refl s,hturn⟩

/-- A measure that every turn lowers bounds the turns. -/
theorem turnLoop_halts (turn : σ → σ ⊕ ρ) {I : σ → Prop} (μ : σ → ℕ)
    (hstep : ∀ s s', I s → turn s = .inl s' → I s' ∧ μ s' < μ s) {fuel : ℕ} {s : σ} (h0 : I s)
    (hfuel : μ s < fuel) : ∃ r, turnLoop turn fuel s = some r := by
  induction fuel generalizing s with
  | zero => exact absurd hfuel (Nat.not_lt_zero _)
  | succ fuel ih =>
    rw [turnLoop]
    cases hturn : turn s with
    | inl t =>
      obtain ⟨hkept,hlt⟩ := hstep s t h0 hturn
      exact ih hkept (by omega)
    | inr r => exact ⟨r,rfl⟩

end TurnLoop

end Candypool.Lib
