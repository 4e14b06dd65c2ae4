import Candypool.Lib.Selected
import Candypool.Lib.TurnLoop
import Candypool.Prime.BigNum

/-! `ApproximateBestSubset`: random subsets of the coins, of which the one that exceeds a target by the
least is kept. Sums of coin values are taken to fit an `int64`. -/
namespace Candypool.Wallet
open Candypool.Prime Candypool.Lib

/-- Transactions of the wallet are pointed to by their keys in `mapWallet`. -/
abbrev WtxPtr := Uint256

abbrev Coin := WtxPtr × ℕ

section Solver

structure Solver where
  vfIncluded : List Bool
  nTotal : ℤ
  fReachedTarget : Bool
  vfBest : List Bool
  nBest : ℤ
  deriving Repr

/-- The body of the inner loop, for a coin that is taken. -/
def Solver.take (nTargetValue : ℤ) (i : ℕ) (n : ℤ) (s : Solver) : Solver :=
  let nTotal := s.nTotal+n
  let vfIncluded := s.vfIncluded.set i true
  if nTotal ≥ nTargetValue then
    let s := if nTotal < s.nBest then { s with nBest := nTotal, vfBest := vfIncluded } else s
    { s with fReachedTarget := true, nTotal := nTotal-n, vfIncluded := vfIncluded.set i false }
  else { s with nTotal := nTotal, vfIncluded := vfIncluded }

/-- The points of `ApproximateBestSubset` where one of its three loops decides. -/
inductive SolverPoint
  | rep (nRep : ℕ)
  | coin (nRep nPass i : ℕ)
  deriving DecidableEq, Repr

/-- One decision of a loop: `bit` are the random bits, of which each coin of a first pass draws one. -/
def solverTurn (bit : ℕ → ℕ → Bool) (vValue : List (ℤ × Coin)) (nTargetValue : ℤ) (iterations : ℕ) :
    SolverPoint × Solver → (SolverPoint × Solver) ⊕ Solver
  | (.rep nRep, s) =>
    if nRep < iterations ∧ s.nBest ≠ nTargetValue then
      .inl (.coin nRep 0 0, { s with
        vfIncluded := List.replicate vValue.length false, nTotal := 0, fReachedTarget := false })
    else .inr s
  | (.coin nRep nPass i, s) =>
    match vValue[i]? with
    | some coin =>
      if (if nPass = 0 then bit nRep i else !s.vfIncluded.getD i false) then
        .inl (.coin nRep nPass (i+1), s.take nTargetValue i coin.1)
      else .inl (.coin nRep nPass (i+1), s)
    | none =>
      if nPass+1 < 2 ∧ s.fReachedTarget = false then .inl (.coin nRep (nPass+1) 0, s)
      else .inl (.rep (nRep+1), s)

def Solver.start (vValue : List (ℤ × Coin)) (nTotalLower : ℤ) : SolverPoint × Solver :=
  (.rep 0, ⟨[], 0, false, List.replicate vValue.length true, nTotalLower⟩)

/-- Turns of the three loops that are left, at a point of `ApproximateBestSubset`. -/
def solverLeft (size iterations : ℕ) : SolverPoint → ℕ
  | .rep nRep => (iterations-nRep)*(2*size+3)
  | .coin nRep nPass i => (iterations-nRep-1)*(2*size+3)+(1-nPass)*(size+1)+(size-i)+1

def approximateBestSubset (bit : ℕ → ℕ → Bool) (vValue : List (ℤ × Coin))
    (nTotalLower nTargetValue : ℤ) (iterations : ℕ) : Option (List Bool × ℤ) :=
  (turnLoop (solverTurn bit vValue nTargetValue iterations)
    (solverLeft vValue.length iterations (.rep 0)+1) (Solver.start vValue nTotalLower)).map
    fun s => (s.vfBest,s.nBest)

/-- The sum of the coins that are flagged. -/
def flaggedSum (flags : List Bool) (vValue : List (ℤ × Coin)) : ℤ :=
  ((selected flags vValue).map Prod.fst).sum

/-- What the solver has found: the coins flagged in `vfBest` sum to `nBest`, which reaches the target. -/
structure Solver.Best (vValue : List (ℤ × Coin)) (nTargetValue : ℤ) (s : Solver) : Prop where
  sum : flaggedSum s.vfBest vValue = s.nBest
  reached : nTargetValue ≤ s.nBest

/-- The running total of a repetition; a first pass has not touched the coins ahead of it. -/
structure Solver.Counted (vValue : List (ℤ × Coin)) (nPass i : ℕ) (s : Solver) : Prop where
  length : s.vfIncluded.length = vValue.length
  total : flaggedSum s.vfIncluded vValue = s.nTotal
  ahead : nPass = 0 → ∀ j, i ≤ j → j < vValue.length → s.vfIncluded[j]? = some false

structure SolverOk (vValue : List (ℤ × Coin)) (nTargetValue : ℤ) (here : SolverPoint × Solver) :
    Prop where
  best : here.2.Best vValue nTargetValue
  counted : ∀ nRep nPass i, here.1 = .coin nRep nPass i → here.2.Counted vValue nPass i

section SolverRun
variable {bit : ℕ → ℕ → Bool} {vValue : List (ℤ × Coin)} {nTargetValue : ℤ} {iterations : ℕ}

theorem flaggedSum_raise {flags : List Bool} {i : ℕ} {coin : ℤ × Coin}
    (hflag : flags[i]? = some false) (hcoin : vValue[i]? = some coin) :
    flaggedSum (flags.set i true) vValue = flaggedSum flags vValue+coin.1 :=
  sum_selected_raise hflag hcoin

/-- A coin that is taken stays flagged only while the target is not reached. -/
theorem Solver.take_included (nTargetValue n : ℤ) (i : ℕ) (s : Solver) :
    (s.take nTargetValue i n).vfIncluded =
      if s.nTotal+n ≥ nTargetValue then (s.vfIncluded.set i true).set i false
      else s.vfIncluded.set i true := by
  rw [Solver.take]
  split_ifs <;> rfl

theorem Solver.take_total (nTargetValue n : ℤ) (i : ℕ) (s : Solver) :
    (s.take nTargetValue i n).nTotal =
      if s.nTotal+n ≥ nTargetValue then s.nTotal else s.nTotal+n := by
  rw [Solver.take]
  split_ifs
  · exact add_sub_cancel_right _ _
  · exact add_sub_cancel_right _ _
  · rfl

theorem Solver.take_best {s : Solver} {nPass i : ℕ} {coin : ℤ × Coin}
    (hbest : s.Best vValue nTargetValue) (hcounted : s.Counted vValue nPass i)
    (hflag : s.vfIncluded[i]? = some false) (hcoin : vValue[i]? = some coin) :
    (s.take nTargetValue i coin.1).Best vValue nTargetValue := by
  rw [Solver.take]
  dsimp only
  split_ifs with hreached hless
  · exact ⟨by rw [flaggedSum_raise hflag hcoin, hcounted.total],hreached⟩
  · exact ⟨hbest.sum,hbest.reached⟩
  · exact ⟨hbest.sum,hbest.reached⟩

theorem Solver.take_counted {s : Solver} {nPass i : ℕ} {coin : ℤ × Coin}
    (hcounted : s.Counted vValue nPass i) (hflag : s.vfIncluded[i]? = some false)
    (hcoin : vValue[i]? = some coin) :
    (s.take nTargetValue i coin.1).Counted vValue nPass (i+1) := by
  have hincluded := s.take_included nTargetValue coin.1 i
  have htotal := s.take_total nTargetValue coin.1 i
  refine ⟨?_,?_,?_⟩
  · rw [hincluded]
    split_ifs
    · rw [List.length_set, List.length_set, hcounted.length]
    · rw [List.length_set, hcounted.length]
  · rw [hincluded, htotal]
    split_ifs
    · rw [set_set_self hflag, hcounted.total]
    · rw [flaggedSum_raise hflag hcoin, hcounted.total]
  · intro hpass j hj hlt
    have hne : i ≠ j := by omega
    have hsame : (s.take nTargetValue i coin.1).vfIncluded[j]? = s.vfIncluded[j]? := by
      rw [hincluded]
      split_ifs
      · rw [List.getElem?_set_ne hne, List.getElem?_set_ne hne]
      · rw [List.getElem?_set_ne hne]
    rw [hsame]
    exact hcounted.ahead hpass j (by omega) hlt

/-- A coin that a pass takes was not flagged. -/
theorem Solver.Counted.not_flagged {s : Solver} {nRep nPass i : ℕ} (hcounted : s.Counted vValue nPass i)
    (hi : i < vValue.length)
    (htake : (if nPass = 0 then bit nRep i else !s.vfIncluded.getD i false) = true) :
    s.vfIncluded[i]? = some false := by
  by_cases hpass : nPass = 0
  · exact hcounted.ahead hpass i le_rfl hi
  · rw [if_neg hpass, Bool.not_eq_true'] at htake
    rw [← hcounted.length] at hi
    rw [List.getD_eq_getElem?_getD, List.getElem?_eq_getElem hi, Option.getD_some] at htake
    rw [List.getElem?_eq_getElem hi, htake]

theorem Solver.restart_counted (s : Solver) :
    ({ s with vfIncluded := List.replicate vValue.length false, nTotal := 0,
              fReachedTarget := false } : Solver).Counted vValue 0 0 := by
  refine ⟨List.length_replicate,?_,?_⟩
  · rw [flaggedSum, selected_none]
    rfl
  · intro _ j _ hlt
    rw [List.getElem?_replicate, if_pos hlt]

/-- What a turn of the solver can do. -/
inductive SolverStep (bit : ℕ → ℕ → Bool) (vValue : List (ℤ × Coin)) (nTargetValue : ℤ)
    (iterations : ℕ) : SolverPoint × Solver → SolverPoint × Solver → Prop
  | restart (nRep : ℕ) (s : Solver) : nRep < iterations →
      SolverStep bit vValue nTargetValue iterations (.rep nRep,s) (.coin nRep 0 0, { s with
        vfIncluded := List.replicate vValue.length false, nTotal := 0, fReachedTarget := false })
  | take (nRep nPass i : ℕ) (s : Solver) (coin : ℤ × Coin) : vValue[i]? = some coin →
      (if nPass = 0 then bit nRep i else !s.vfIncluded.getD i false) = true →
      SolverStep bit vValue nTargetValue iterations (.coin nRep nPass i,s)
        (.coin nRep nPass (i+1),s.take nTargetValue i coin.1)
  | leave (nRep nPass i : ℕ) (s : Solver) : i < vValue.length →
      SolverStep bit vValue nTargetValue iterations (.coin nRep nPass i,s)
        (.coin nRep nPass (i+1),s)
  | secondPass (nRep i : ℕ) (s : Solver) : vValue.length ≤ i →
      SolverStep bit vValue nTargetValue iterations (.coin nRep 0 i,s) (.coin nRep 1 0,s)
  | nextRep (nRep nPass i : ℕ) (s : Solver) :
      SolverStep bit vValue nTargetValue iterations (.coin nRep nPass i,s) (.rep (nRep+1),s)

theorem solverTurn_step {here next : SolverPoint × Solver}
    (hturn : solverTurn bit vValue nTargetValue iterations here = .inl next) :
    SolverStep bit vValue nTargetValue iterations here next := by
  obtain ⟨point,s⟩ := here
  cases point with
  | rep nRep =>
    rw [solverTurn] at hturn
    split_ifs at hturn with hagain
    obtain rfl := Sum.inl.inj hturn
    exact SolverStep.restart nRep s hagain.1
  | coin nRep nPass i =>
    rw [solverTurn] at hturn
    cases hcoin : vValue[i]? with
    | some coin =>
      rw [hcoin] at hturn
      dsimp only at hturn
      by_cases htake : (if nPass = 0 then bit nRep i else !s.vfIncluded.getD i false) = true
      · rw [if_pos htake] at hturn
        obtain rfl := Sum.inl.inj hturn
        exact SolverStep.take nRep nPass i s coin hcoin htake
      · rw [if_neg htake] at hturn
        obtain rfl := Sum.inl.inj hturn
        exact SolverStep.leave nRep nPass i s (List.getElem?_eq_some_iff.mp hcoin).1
    | none =>
      rw [hcoin] at hturn
      dsimp only at hturn
      split_ifs at hturn with hagain
      · obtain rfl := Sum.inl.inj hturn
        obtain rfl : nPass = 0 := by omega
        exact SolverStep.secondPass nRep i s (List.getElem?_eq_none_iff.mp hcoin)
      · obtain rfl := Sum.inl.inj hturn
        exact SolverStep.nextRep nRep nPass i s

theorem SolverOk.step {here next : SolverPoint × Solver} (hok : SolverOk vValue nTargetValue here)
    (hstep : SolverStep bit vValue nTargetValue iterations here next) :
    SolverOk vValue nTargetValue next := by
  obtain ⟨hbest,hcounted⟩ := hok
  cases hstep with
  | restart nRep s =>
    refine ⟨⟨hbest.sum,hbest.reached⟩,?_⟩
    intro _ _ _ hpoint
    cases hpoint
    exact s.restart_counted
  | take nRep nPass i s coin hcoin htake =>
    have hhere := hcounted nRep nPass i rfl
    have hflag := hhere.not_flagged (List.getElem?_eq_some_iff.mp hcoin).1 htake
    refine ⟨Solver.take_best hbest hhere hflag hcoin,?_⟩
    intro _ _ _ hpoint
    cases hpoint
    exact Solver.take_counted hhere hflag hcoin
  | leave nRep nPass i s =>
    have hhere := hcounted nRep nPass i rfl
    refine ⟨hbest,?_⟩
    intro _ _ _ hpoint
    cases hpoint
    exact ⟨hhere.length,hhere.total,fun h j hj => hhere.ahead h j (by omega)⟩
  | secondPass nRep i s =>
    have hhere := hcounted nRep 0 i rfl
    refine ⟨hbest,?_⟩
    intro _ _ _ hpoint
    cases hpoint
    -- the flags of the first pass stay
    exact ⟨hhere.length,hhere.total,fun h => absurd h Nat.one_ne_zero⟩
  | nextRep nRep nPass i s =>
    refine ⟨hbest,?_⟩
    intro _ _ _ hpoint
    cases hpoint

theorem start_ok {nTotalLower : ℤ} (hsum : (vValue.map Prod.fst).sum = nTotalLower)
    (hreach : nTargetValue ≤ nTotalLower) :
    SolverOk vValue nTargetValue (Solver.start vValue nTotalLower) := by
  refine ⟨⟨?_,hreach⟩,?_⟩
  · rw [← hsum]
    exact congrArg (fun coins => (List.map Prod.fst coins).sum) (selected_all vValue)
  · intro _ _ _ hpoint
    cases hpoint

/-- In every state of the solver the coins of `vfBest` sum to `nBest`. -/
theorem solver_best {nTotalLower : ℤ} (hsum : (vValue.map Prod.fst).sum = nTotalLower)
    (hreach : nTargetValue ≤ nTotalLower) {here : SolverPoint × Solver}
    (hturns : Turns (solverTurn bit vValue nTargetValue iterations)
      (Solver.start vValue nTotalLower) here) : here.2.Best vValue nTargetValue :=
  (hturns.induct (start_ok hsum hreach) fun _ _ hok hturn => hok.step (solverTurn_step hturn)).best

theorem SolverStep.left {here next : SolverPoint × Solver}
    (hstep : SolverStep bit vValue nTargetValue iterations here next) :
    solverLeft vValue.length iterations next.1 < solverLeft vValue.length iterations here.1 := by
  cases hstep with
  | restart nRep s hlt =>
    obtain ⟨k,hk⟩ : ∃ k, iterations-nRep = k+1 := ⟨iterations-nRep-1,by omega⟩
    have hmul : (k+1)*(2*vValue.length+3) = k*(2*vValue.length+3)+(2*vValue.length+3) :=
      Nat.succ_mul k _
    rw [solverLeft, solverLeft, hk, hmul, Nat.add_sub_cancel]
    omega
  | take nRep nPass i s coin hcoin _ =>
    have hi := (List.getElem?_eq_some_iff.mp hcoin).1
    rw [solverLeft, solverLeft]
    omega
  | leave nRep nPass i s hi =>
    rw [solverLeft, solverLeft]
    omega
  | secondPass nRep i s hi =>
    rw [solverLeft, solverLeft]
    omega
  | nextRep nRep nPass i s =>
    rw [solverLeft, solverLeft, Nat.sub_sub]
    omega

/-- The solver ends between two repetitions. -/
theorem solverTurn_inr {here : SolverPoint × Solver} {s : Solver}
    (hlast : solverTurn bit vValue nTargetValue iterations here = .inr s) : s = here.2 := by
  obtain ⟨point,last⟩ := here
  cases point with
  | rep nRep =>
    rw [solverTurn] at hlast
    split_ifs at hlast
    exact (Sum.inr.inj hlast).symm
  | coin nRep nPass i =>
    rw [solverTurn] at hlast
    cases hcoin : vValue[i]? with
    | some coin =>
      rw [hcoin] at hlast
      dsimp only at hlast
      split_ifs at hlast
    | none =>
      rw [hcoin] at hlast
      dsimp only at hlast
      split_ifs at hlast

theorem approximateBestSubset_isSome (bit : ℕ → ℕ → Bool) (vValue : List (ℤ × Coin))
    (nTotalLower nTargetValue : ℤ) (iterations : ℕ) :
    ∃ best, approximateBestSubset bit vValue nTotalLower nTargetValue iterations = some best := by
  obtain ⟨s,hrun⟩ := turnLoop_halts (solverTurn bit vValue nTargetValue iterations)
    (I := fun _ => True) (fun here => solverLeft vValue.length iterations here.1)
    (fun _ _ _ hturn => ⟨trivial,(solverTurn_step hturn).left⟩) trivial
    (Nat.lt_succ_self (solverLeft vValue.length iterations
      (Solver.start vValue nTotalLower).1))
  exact ⟨_,congrArg (Option.map fun s : Solver => (s.vfBest,s.nBest)) hrun⟩

/-- What `ApproximateBestSubset` leaves. -/
theorem approximateBestSubset_reached {nTotalLower : ℤ}
    (hsum : (vValue.map Prod.fst).sum = nTotalLower) (hreach : nTargetValue ≤ nTotalLower)
    {best : List Bool × ℤ}
    (h : approximateBestSubset bit vValue nTotalLower nTargetValue iterations = some best) :
    nTargetValue ≤ flaggedSum best.1 vValue := by
  obtain ⟨s,hrun,rfl⟩ := Option.map_eq_some_iff.mp h
  obtain ⟨here,hturns,hlast⟩ := turnLoop_eq_some hrun
  have hbest := solver_best hsum hreach hturns
  rw [solverTurn_inr hlast]
  exact hbest.sum ▸ hbest.reached

end SolverRun

end Solver

end Candypool.Wallet
