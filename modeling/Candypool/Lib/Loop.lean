import Mathlib.Algebra.Order.Group.Nat
import Mathlib.Data.Nat.ModEq
import Mathlib.Tactic.Ring

/-! Counting loops: by one with a break, and by a stride. An invariant is proved for one turn and
holds after the loop; what a strided loop marks is the progression it runs through. -/
namespace Candypool.Lib

section RangeLoop
variable {σ : Type*}

/-- `for (i = lo; i < hi; i++) { if (stop(i)) break; s = f(s,i); }` -/
def rangeLoop (stop : ℕ → Bool) (f : σ → ℕ → σ) (lo hi : ℕ) (s : σ) : σ :=
  if lo < hi then
    if stop lo then s else rangeLoop stop f (lo+1) hi (f s lo)
  else s
termination_by hi-lo

/-- The loop that nothing leaves early. -/
def never (_ : ℕ) : Bool := false

theorem never_eq_false (i : ℕ) : never i = false := rfl

theorem rangeLoop_induct (I : ℕ → σ → Prop) {stop : ℕ → Bool} {f : σ → ℕ → σ} {lo hi : ℕ} {s : σ}
    (hle : lo ≤ hi) (hstop : ∀ i, stop i = false)
    (hstep : ∀ i t, lo ≤ i → i < hi → I i t → I (i+1) (f t i)) (h0 : I lo s) :
    I hi (rangeLoop stop f lo hi s) := by
  induction lo, s using rangeLoop.induct stop f hi with
  | case1 lo s hlt hs => simp [hstop] at hs
  | case2 lo s hlt _ ih =>
    rw [rangeLoop, if_pos hlt, if_neg (by simp [hstop])]
    apply ih hlt
    · intro i t hi
      exact hstep i t (by omega)
    · exact hstep lo s le_rfl hlt h0
  | case3 lo s hlt =>
    rw [rangeLoop, if_neg hlt]
    rwa [show hi = lo by omega]

theorem rangeLoop_congr {stop : ℕ → Bool} {f g : σ → ℕ → σ} {lo hi : ℕ} (s : σ)
    (h : ∀ i t, lo ≤ i → i < hi → f t i = g t i) :
    rangeLoop stop f lo hi s = rangeLoop stop g lo hi s := by
  induction lo, s using rangeLoop.induct stop f hi with
  | case1 lo s hlt hs =>
    rw [rangeLoop.eq_def stop f, rangeLoop.eq_def stop g, if_pos hlt, if_pos hlt, if_pos hs,
      if_pos hs]
  | case2 lo s hlt hs ih =>
    rw [rangeLoop.eq_def stop f, rangeLoop.eq_def stop g, if_pos hlt, if_pos hlt, if_neg hs,
      if_neg hs, ← h lo s le_rfl hlt]
    exact ih fun i t hi => h i t (by omega)
  | case3 lo s hlt =>
    rw [rangeLoop.eq_def stop f, rangeLoop.eq_def stop g, if_neg hlt, if_neg hlt]

/-- Wherever the loop is left, the invariant of that turn holds. -/
theorem rangeLoop_reaches (I : ℕ → σ → Prop) {stop : ℕ → Bool} {f : σ → ℕ → σ} {lo hi : ℕ} {s : σ}
    (hle : lo ≤ hi) (hstep : ∀ i t, lo ≤ i → i < hi → I i t → I (i+1) (f t i)) (h0 : I lo s) :
    ∃ i, lo ≤ i ∧ i ≤ hi ∧ I i (rangeLoop stop f lo hi s) := by
  induction lo, s using rangeLoop.induct stop f hi with
  | case1 lo s hlt hs =>
    rw [rangeLoop, if_pos hlt, if_pos hs]
    exact ⟨lo, le_rfl, hle, h0⟩
  | case2 lo s hlt hs ih =>
    rw [rangeLoop, if_pos hlt, if_neg hs]
    obtain ⟨i,hlo,hhi,h⟩ := ih hlt (fun i t hi => hstep i t (by omega)) (hstep lo s le_rfl hlt h0)
    exact ⟨i, by omega, hhi, h⟩
  | case3 lo s hlt =>
    rw [rangeLoop, if_neg hlt]
    exact ⟨lo, le_rfl, hle, h0⟩

/-- Two loops that run side by side and are left together. -/
theorem rangeLoop_rel {τ : Type*} (R : σ → τ → Prop) {stop : ℕ → Bool} {f : σ → ℕ → σ}
    {g : τ → ℕ → τ} {lo hi : ℕ} {s : σ} {t : τ}
    (hstep : ∀ i s t, R s t → R (f s i) (g t i)) (h0 : R s t) :
    R (rangeLoop stop f lo hi s) (rangeLoop stop g lo hi t) := by
  induction lo, s using rangeLoop.induct stop f hi generalizing t with
  | case1 lo s hlt hs =>
    rw [rangeLoop.eq_def stop f, rangeLoop.eq_def stop g, if_pos hlt, if_pos hlt, if_pos hs,
      if_pos hs]
    exact h0
  | case2 lo s hlt hs ih =>
    rw [rangeLoop.eq_def stop f, rangeLoop.eq_def stop g, if_pos hlt, if_pos hlt, if_neg hs,
      if_neg hs]
    exact ih (hstep lo s t h0)
  | case3 lo s hlt =>
    rw [rangeLoop.eq_def stop f, rangeLoop.eq_def stop g, if_neg hlt, if_neg hlt]
    exact h0

end RangeLoop

section StrideLoop
variable {σ τ : Type*} {p hi : ℕ}

/-- `for (; v < hi; v += p) s = f(s,v);` with the counter it ends with. -/
def strideLoop (p hi : ℕ) (f : σ → ℕ → σ) (s : σ) (v : ℕ) : σ × ℕ :=
  if 0 < p ∧ v < hi then strideLoop p hi f (f s v) (v+p) else (s,v)
termination_by hi-v

/-- `v'` is reached from `v` by steps of `p`, and by no step that starts at `b` or later. -/
structure Strides (p b v v' : ℕ) : Prop where
  le : v ≤ v'
  dvd : p ∣ v'-v
  near : v' = v ∨ v' < b+p

theorem strideLoop_counter (hp : 0 < p) (f : σ → ℕ → σ) (s : σ) (v : ℕ) :
    Strides p hi v (strideLoop p hi f s v).2 ∧ hi ≤ (strideLoop p hi f s v).2 := by
  induction s, v using strideLoop.induct p hi f with
  | case1 s v hlt ih =>
    rw [strideLoop, if_pos hlt]
    obtain ⟨⟨hle,hdvd,hnear⟩,hhi⟩ := ih
    refine ⟨⟨by omega,?_,?_⟩,hhi⟩
    · obtain ⟨t,ht⟩ := hdvd
      refine ⟨t+1,?_⟩
      rw [mul_add, mul_one, ← ht]
      omega
    · rcases hnear with heq | hlt'
      · exact Or.inr (by omega)
      · exact Or.inr hlt'
  | case2 s v hlt =>
    rw [strideLoop, if_neg hlt]
    exact ⟨⟨le_rfl,⟨0,by simp⟩,Or.inl rfl⟩,by omega⟩

theorem strideLoop_induct (I : σ → Prop) {f : σ → ℕ → σ} {s : σ} {v : ℕ}
    (hstep : ∀ t u, u < hi → I t → I (f t u)) (h0 : I s) : I (strideLoop p hi f s v).1 := by
  induction s, v using strideLoop.induct p hi f with
  | case1 s v hlt ih =>
    rw [strideLoop, if_pos hlt]
    exact ih (hstep s v hlt.2 h0)
  | case2 s v hlt => rwa [strideLoop, if_neg hlt]

/-- One turn of the progression taken off its front. -/
theorem progression_cons {v j : ℕ} (hp : 0 < p) (hlt : v < hi) :
    (v ≤ j ∧ j < hi ∧ p ∣ j-v) ↔ j = v ∨ (v+p ≤ j ∧ j < hi ∧ p ∣ j-(v+p)) := by
  constructor
  · rintro ⟨hle,hj,t,ht⟩
    cases t with
    | zero => exact Or.inl (by omega)
    | succ t =>
      rw [mul_add, mul_one] at ht
      exact Or.inr ⟨by omega,hj,t,by omega⟩
  · rintro (rfl | ⟨hle,hj,t,ht⟩)
    · exact ⟨le_rfl,hlt,0,by simp⟩
    · exact ⟨by omega,hj,t+1,by rw [mul_add, mul_one]; omega⟩

/-- Where each turn marks its own counter, the loop marks the progression from `v` by `p`. -/
theorem strideLoop_marks (I : σ → Prop) (M : σ → ℕ → Prop) {f : σ → ℕ → σ} {s : σ} {v : ℕ}
    (hp : 0 < p) (hinv : ∀ t u, u < hi → I t → I (f t u))
    (hstep : ∀ t u j, u < hi → I t → (M (f t u) j ↔ M t j ∨ j = u)) (h0 : I s) (j : ℕ) :
    M (strideLoop p hi f s v).1 j ↔ M s j ∨ (v ≤ j ∧ j < hi ∧ p ∣ j-v) := by
  induction s, v using strideLoop.induct p hi f with
  | case1 s v hlt ih =>
    rw [strideLoop, if_pos hlt, ih (hinv s v hlt.2 h0), hstep s v j hlt.2 h0,
      progression_cons hp hlt.2, or_assoc]
  | case2 s v hlt =>
    rw [strideLoop, if_neg hlt]
    have hnone : ¬ (v ≤ j ∧ j < hi ∧ p ∣ j-v) := by omega
    simp [hnone]

/-- Two loops with the same counter stay related by a relation that each turn keeps. -/
theorem strideLoop_simulates (R : ℕ → σ → τ → Prop) {f : σ → ℕ → σ} {g : τ → ℕ → τ} {s : σ} {t : τ}
    {v : ℕ} (hstep : ∀ u s t, u < hi → R u s t → R (u+p) (f s u) (g t u)) (h0 : R v s t) :
    R (strideLoop p hi f s v).2 (strideLoop p hi f s v).1 (strideLoop p hi g t v).1 ∧
      (strideLoop p hi f s v).2 = (strideLoop p hi g t v).2 := by
  induction s, v using strideLoop.induct p hi f generalizing t with
  | case1 s v hlt ih =>
    rw [strideLoop, strideLoop.eq_def p hi g, if_pos hlt, if_pos hlt]
    exact ih (hstep v s t hlt.2 h0)
  | case2 s v hlt =>
    rw [strideLoop, strideLoop.eq_def p hi g, if_neg hlt, if_neg hlt]
    exact ⟨h0,rfl⟩

end StrideLoop

section Progression
variable {H : ℕ → Prop} {p n m m' v v' : ℕ}

/-- From `m` on and below `n`, the members of `H` are the terms of the progression from `v` by
`p`. -/
def Progression (H : ℕ → Prop) (p n m v : ℕ) : Prop :=
  ∀ i, m ≤ i → i < n → (H i ↔ v ≤ i ∧ p ∣ i-v)

theorem Progression.mono (h : Progression H p n m v) (hm : m ≤ m') : Progression H p n m' v :=
  fun i hi => h i (hm.trans hi)

/-- A progression may be resumed at any term of it that lies less than a step behind `m'`. -/
theorem Progression.resume (h : Progression H p n m v) (hm : m ≤ m') (hs : Strides p m' v v') :
    Progression H p n m' v' := by
  intro i hi hin
  rw [h i (hm.trans hi) hin]
  obtain ⟨hle,⟨t,ht⟩,hnear⟩ := hs
  have hsum : v' = v+p*t := by omega
  constructor
  · rintro ⟨hvi,u,hu⟩
    -- A term of the progression from `m'` on is not before `v'`.
    have hle' : v' ≤ i := by
      rcases hnear with heq | hlt
      · omega
      · by_contra hnot
        have htu : u < t := by
          apply lt_of_mul_lt_mul_left (a := p) _ (Nat.zero_le p)
          omega
        have hstep : p*(u+1) ≤ p*t := Nat.mul_le_mul_left p htu
        rw [mul_add, mul_one] at hstep
        omega
    refine ⟨hle',?_⟩
    have hsub : i-v' = p*u-p*t := by omega
    rw [hsub, ← Nat.mul_sub]
    exact Dvd.intro _ rfl
  · rintro ⟨hvi,u,hu⟩
    refine ⟨by omega,u+t,?_⟩
    rw [mul_add]
    omega

/-- The first term at or after `m`, for a progression that starts before. -/
def catchUp (p m v : ℕ) : ℕ := if v < m then v+(m-v+p-1)/p*p else v

theorem catchUp_strides : Strides p m v (catchUp p m v) := by
  unfold catchUp
  split_ifs with hlt
  · have h := Nat.div_mul_le_self (m-v+p-1) p
    refine ⟨by omega,?_,Or.inr ?_⟩
    · rw [Nat.add_sub_cancel_left]
      exact Dvd.intro_left _ rfl
    · omega
  · exact ⟨le_rfl,⟨0,by simp⟩,Or.inl rfl⟩

end Progression

section Slots
variable {α : Type*}

/-- What a write to a slot of an array does to the reads. -/
theorem getD_setIfInBounds {a : Array α} {i : ℕ} (hi : i < a.size) (x d : α) (j : ℕ) :
    (a.setIfInBounds i x).getD j d = if j = i then x else a.getD j d := by
  simp only [Array.getD_eq_getD_getElem?, Array.getElem?_setIfInBounds]
  by_cases h : j = i
  · simp [h, hi]
  · simp [h, Ne.symm h]

variable {s s' k k' l N : ℕ}

/-- The slots of a table with rows of `l` entries. -/
theorem slot_lt (hs : s < N) (hk : k < l) : s*l+k < N*l := by
  have h := Nat.mul_le_mul_right l hs
  rw [Nat.succ_mul] at h
  omega

theorem slot_inj (hk : k < l) (hk' : k' < l) (h : s*l+k = s'*l+k') : s = s' ∧ k = k' := by
  have hs : s = s' := by
    rcases Nat.lt_trichotomy s s' with hlt | heq | hgt
    · have := slot_lt hlt hk
      omega
    · exact heq
    · have := slot_lt hgt hk'
      omega
  subst hs
  exact ⟨rfl,by omega⟩

end Slots

end Candypool.Lib
