import Mathlib.Tactic.SplitIfs

/-! Programs that thread a state and may fail, the state surviving the failure, with the rules of
their weakest preconditions. -/
namespace Candypool.Lib

abbrev Fallible (σ ε α : Type) := ExceptT ε (StateM σ) α

section Wp
variable {σ ε α β : Type}

/-- From the state `s` the program ends with a value that satisfies `post`, or fails with an error
that satisfies `err`. -/
def wp (m : Fallible σ ε α) (post : α → σ → Prop) (err : ε → σ → Prop) (s : σ) : Prop :=
  match m.run.run s with
  | (.ok a,s') => post a s'
  | (.error e,s') => err e s'

variable {post : α → σ → Prop} {err : ε → σ → Prop} {s : σ}

@[simp] theorem wp_pure (a : α) : wp (pure a : Fallible σ ε α) post err s ↔ post a s := Iff.rfl

@[simp] theorem wp_throw (e : ε) : wp (throw e : Fallible σ ε α) post err s ↔ err e s := Iff.rfl

@[simp] theorem wp_modify (f : σ → σ) {post : PUnit → σ → Prop} :
    wp (modify f : Fallible σ ε PUnit) post err s ↔ post ⟨⟩ (f s) := Iff.rfl

@[simp] theorem wp_bind (m : Fallible σ ε β) (f : β → Fallible σ ε α) :
    wp (m >>= f) post err s ↔ wp m (fun b s' => wp (f b) post err s') err s := by
  rcases h : m.run.run s with ⟨r,s'⟩
  cases r with
  | error e =>
    simp only [wp, ExceptT.run_bind, StateT.run_bind, h]
    rfl
  | ok b =>
    simp only [wp, ExceptT.run_bind, StateT.run_bind, h]
    rfl

@[simp] theorem wp_map (m : Fallible σ ε β) (f : β → α) :
    wp (f <$> m) post err s ↔ wp m (fun b s' => post (f b) s') err s := by
  rw [map_eq_pure_bind, wp_bind]
  rfl

@[simp] theorem wp_tryCatch (m : Fallible σ ε α) (f : ε → Fallible σ ε α) :
    wp (tryCatch m f) post err s ↔ wp m post (fun e s' => wp (f e) post err s') s := by
  rcases h : m.run.run s with ⟨r,s'⟩
  cases r with
  | error e =>
    simp only [wp, ExceptT.run_tryCatch, StateT.run_bind, h]
    rfl
  | ok b =>
    simp only [wp, ExceptT.run_tryCatch, StateT.run_bind, h]
    rfl

@[simp] theorem wp_ite (P : Prop) [Decidable P] (m m' : Fallible σ ε α) :
    wp (if P then m else m') post err s ↔ if P then wp m post err s else wp m' post err s := by
  split_ifs <;> rfl

theorem wp_mono {post' : α → σ → Prop} {err' : ε → σ → Prop} {m : Fallible σ ε α}
    (h : wp m post err s) (hpost : ∀ a s', post a s' → post' a s')
    (herr : ∀ e s', err e s' → err' e s') : wp m post' err' s := by
  unfold wp at *
  split at h
  · exact hpost _ _ h
  · exact herr _ _ h

theorem wp_and {post' : α → σ → Prop} {err' : ε → σ → Prop} {m : Fallible σ ε α}
    (h : wp m post err s) (h' : wp m post' err' s) :
    wp m (fun a s' => post a s' ∧ post' a s') (fun e s' => err e s' ∧ err' e s') s := by
  unfold wp at *
  split at h
  · rename_i heq
    rw [heq] at h'
    exact ⟨h,h'⟩
  · rename_i heq
    rw [heq] at h'
    exact ⟨h,h'⟩

/-- The strongest condition: the result is the one of the run. -/
theorem wp_run (m : Fallible σ ε α) (s : σ) : wp m (fun a s' => m.run.run s = (.ok a,s'))
    (fun e s' => m.run.run s = (.error e,s')) s := by
  unfold wp
  split
  · assumption
  · assumption

theorem post_of_wp {m : Fallible σ ε α} {a : α} {s' : σ} (h : wp m post err s)
    (hrun : m.run.run s = (.ok a,s')) : post a s' := by
  rw [wp, hrun] at h
  exact h

theorem err_of_wp {m : Fallible σ ε α} {e : ε} {s' : σ} (h : wp m post err s)
    (hrun : m.run.run s = (.error e,s')) : err e s' := by
  rw [wp, hrun] at h
  exact h

/-- A program that cannot fail ends with a value. -/
theorem run_of_wp {m : Fallible σ ε α} (h : wp m post (fun _ _ => False) s) :
    ∃ a s', m.run.run s = (.ok a,s') ∧ post a s' := by
  rw [wp] at h
  split at h
  · exact ⟨_,_,by assumption,h⟩
  · exact h.elim

/-- A program that cannot end with a value fails. -/
theorem fails_of_wp {m : Fallible σ ε α} (h : wp m (fun _ _ => False) err s) :
    ∃ e s', m.run.run s = (.error e,s') ∧ err e s' := by
  rw [wp] at h
  split at h
  · exact h.elim
  · exact ⟨_,_,by assumption,h⟩

/-- What holds of the state however the program ends. -/
theorem state_of_wp {I : σ → Prop} {m : Fallible σ ε α}
    (h : wp m (fun _ s' => I s') (fun _ s' => I s') s) : I (m.run.run s).2 := by
  rw [wp] at h
  split at h
  · rename_i heq
    rwa [heq]
  · rename_i heq
    rwa [heq]

attribute [irreducible] wp

end Wp

end Candypool.Lib
