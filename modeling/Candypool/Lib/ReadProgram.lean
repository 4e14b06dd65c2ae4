import Mathlib.Data.Nat.Basic
import Mathlib.Order.MinMax

/-! Programs that read a stream: what a format asks for, one read after the other, whatever the stream
is. The same program runs on a list, on a buffer and on a file. -/
namespace Candypool.Lib

/-- `read n next` takes `n` elements and goes on with them. -/
inductive ReadProgram (β α : Type) where
  | done (a : α)
  | throw
  | read (n : ℕ) (next : List β → ReadProgram β α)

/-- A stream answers a read, or throws; both may move it. -/
abbrev StreamRead (β σ : Type) := ℕ → σ → Option (List β) × σ

namespace ReadProgram

section Defs
variable {β α γ σ : Type}

def bind : ReadProgram β α → (α → ReadProgram β γ) → ReadProgram β γ
  | .done a, f => f a
  | .throw, _ => .throw
  | .read n next, f => .read n fun bytes => (next bytes).bind f

instance : Monad (ReadProgram β) where
  pure := .done
  bind := bind

def run (rd : StreamRead β σ) : ReadProgram β α → σ → Option α × σ
  | .done a, s => (some a, s)
  | .throw, s => (none, s)
  | .read n next, s => match rd n s with
    | (some bytes, s) => (next bytes).run rd s
    | (none, s) => (none, s)

/-- The stream that is a list, and is left alone by a read it cannot answer. -/
def listRead : StreamRead β (List β) := fun n bytes =>
  if bytes.length < n then (none, bytes) else (some (bytes.take n), bytes.drop n)

/-- The program reads exactly these elements, at most `limit` at a time, and gives `a`. -/
def Reads (limit : ℕ) : ReadProgram β α → List β → α → Prop
  | .done b, bytes, a => bytes = [] ∧ b = a
  | .throw, _, _ => False
  | .read n next, bytes, a => n ≤ limit ∧ n ≤ bytes.length ∧
      (next (bytes.take n)).Reads limit (bytes.drop n) a

end Defs

section Laws
variable {β α γ σ : Type} {limit : ℕ}

/-- The invariant rule for one stream. -/
theorem run_invariant {rd : StreamRead β σ} {I : σ → Prop} (hread : ∀ n s, I s → I (rd n s).2)
    (p : ReadProgram β α) {s : σ} (h : I s) : I (p.run rd s).2 := by
  induction p generalizing s with
  | done a => exact h
  | throw => exact h
  | read n next ih =>
    have hafter := hread n s h
    rw [run]
    generalize rd n s = r at hafter
    obtain ⟨answer,s'⟩ := r
    cases answer with
    | none => exact hafter
    | some bytes => exact ih bytes hafter

theorem reads_done {a b : α} {bytes : List β} :
    (ReadProgram.done b).Reads limit bytes a ↔ bytes = [] ∧ b = a := Iff.rfl

theorem Reads.mono {limit' : ℕ} {p : ReadProgram β α} {bytes : List β} {a : α}
    (h : p.Reads limit bytes a) (hle : limit ≤ limit') : p.Reads limit' bytes a := by
  induction p generalizing bytes with
  | done b => exact h
  | throw => exact h
  | read n next ih =>
    obtain ⟨hn,hlen,hrest⟩ := h
    exact ⟨hn.trans hle, hlen, ih _ hrest⟩

/-- No read takes more than all that is read. -/
theorem Reads.bounded {limit' : ℕ} {p : ReadProgram β α} {bytes : List β} {a : α}
    (h : p.Reads limit bytes a) (hle : bytes.length ≤ limit') : p.Reads limit' bytes a := by
  induction p generalizing bytes with
  | done b => exact h
  | throw => exact h
  | read n next ih =>
    obtain ⟨-,hlen,hrest⟩ := h
    refine ⟨hlen.trans hle, hlen, ih _ hrest ?_⟩
    rw [List.length_drop]
    omega

/-- What two programs in a row read. -/
theorem Reads.bind {p : ReadProgram β α} {f : α → ReadProgram β γ} {bytes rest : List β} {a : α}
    {c : γ} (h : p.Reads limit bytes a) (hf : (f a).Reads limit rest c) :
    (p.bind f).Reads limit (bytes ++ rest) c := by
  induction p generalizing bytes with
  | done b =>
    obtain ⟨rfl,rfl⟩ := h
    exact hf
  | throw => exact h.elim
  | read n next ih =>
    obtain ⟨hn,hlen,hrest⟩ := h
    refine ⟨hn, ?_, ?_⟩
    · rw [List.length_append]
      omega
    · rw [List.take_append_of_le_length hlen, List.drop_append_of_le_length hlen]
      exact ih _ hrest

theorem Reads.split {p : ReadProgram β α} {f : α → ReadProgram β γ} {bytes : List β} {c : γ}
    (h : (p.bind f).Reads limit bytes c) :
    ∃ first a rest, bytes = first ++ rest ∧ p.Reads limit first a ∧ (f a).Reads limit rest c := by
  induction p generalizing bytes with
  | done b => exact ⟨[], b, bytes, rfl, ⟨rfl, rfl⟩, h⟩
  | throw => exact h.elim
  | read n next ih =>
    obtain ⟨hn,hlen,hrest⟩ := h
    obtain ⟨first,a,rest,hsplit,hfirst,hf⟩ := ih _ hrest
    have htaken : (bytes.take n).length = n := List.length_take_of_le hlen
    refine ⟨bytes.take n ++ first, a, rest, ?_, ⟨hn, ?_, ?_⟩, hf⟩
    · rw [List.append_assoc, ← hsplit, List.take_append_drop]
    · rw [List.length_append]
      omega
    · rw [List.take_left' htaken, List.drop_left' htaken]
      exact hfirst

/-- A last step that only makes a value of what was read. -/
theorem Reads.map {p : ReadProgram β α} {make : α → γ} {bytes : List β} {a : α} {c : γ}
    (h : p.Reads limit bytes a) (hc : make a = c) :
    (p.bind fun a => .done (make a)).Reads limit bytes c := by
  have hreads := h.bind (f := fun a => ReadProgram.done (make a)) (reads_done.mpr ⟨rfl, hc⟩)
  rwa [List.append_nil] at hreads

theorem Reads.of_map {p : ReadProgram β α} {make : α → γ} {bytes : List β} {c : γ}
    (h : (p.bind fun a => .done (make a)).Reads limit bytes c) :
    ∃ a, p.Reads limit bytes a ∧ make a = c := by
  obtain ⟨first,a,rest,rfl,hread,rfl,hc⟩ := h.split
  rw [List.append_nil]
  exact ⟨a, hread, hc⟩

/-- What a program reads is the start of no other input: formats are free of prefixes. -/
theorem Reads.unique {p : ReadProgram β α} {bytes bytes' rest rest' : List β} {a a' : α}
    {limit' : ℕ} (h : p.Reads limit bytes a) (h' : p.Reads limit' bytes' a')
    (heq : bytes ++ rest = bytes' ++ rest') : bytes = bytes' ∧ rest = rest' ∧ a = a' := by
  induction p generalizing bytes bytes' with
  | done b =>
    obtain ⟨rfl,rfl⟩ := h
    obtain ⟨rfl,rfl⟩ := h'
    exact ⟨rfl, heq, rfl⟩
  | throw => exact h.elim
  | read n next ih =>
    obtain ⟨-,hlen,hrest⟩ := h
    obtain ⟨-,hlen',hrest'⟩ := h'
    have htake := congrArg (List.take n) heq
    have hdrop := congrArg (List.drop n) heq
    rw [List.take_append_of_le_length hlen, List.take_append_of_le_length hlen'] at htake
    rw [List.drop_append_of_le_length hlen, List.drop_append_of_le_length hlen'] at hdrop
    rw [← htake] at hrest'
    obtain ⟨hsame,hleft,hvalue⟩ := ih _ hrest hrest' hdrop
    refine ⟨?_, hleft, hvalue⟩
    rw [← List.take_append_drop n bytes, ← List.take_append_drop n bytes', htake, hsame]

/-- A stream that answers from the list `ahead s`: always, as far as reads of at most `limit` go. -/
structure Follows (rd : StreamRead β σ) (limit : ℕ) (I : σ → Prop) (ahead : σ → List β) : Prop where
  answers : ∀ n s, I s → n ≤ limit → n ≤ (ahead s).length → ∃ bytes, (rd n s).1 = some bytes
  answer : ∀ n s bytes, I s → (rd n s).1 = some bytes → I (rd n s).2 ∧
    n ≤ (ahead s).length ∧ bytes = (ahead s).take n ∧ ahead (rd n s).2 = (ahead s).drop n

/-- A program that reads what is ahead runs through it. -/
theorem Follows.run {rd : StreamRead β σ} {I : σ → Prop} {ahead : σ → List β}
    (hrd : Follows rd limit I ahead) {p : ReadProgram β α} {bytes rest : List β} {a : α} {s : σ}
    (h : p.Reads limit bytes a) (hs : I s) (hahead : ahead s = bytes ++ rest) :
    (p.run rd s).1 = some a ∧ I (p.run rd s).2 ∧ ahead (p.run rd s).2 = rest := by
  induction p generalizing s bytes with
  | done b =>
    obtain ⟨rfl,rfl⟩ := h
    exact ⟨rfl, hs, hahead⟩
  | throw => exact h.elim
  | read n next ih =>
    obtain ⟨hn,hlen,hrest⟩ := h
    obtain ⟨taken,htaken⟩ := hrd.answers n s hs hn (by
      rw [hahead, List.length_append]
      omega)
    obtain ⟨hkept,-,rfl,hahead'⟩ := hrd.answer n s taken hs htaken
    rw [hahead, List.take_append_of_le_length hlen] at htaken
    rw [hahead, List.drop_append_of_le_length hlen] at hahead'
    rw [ReadProgram.run]
    generalize rd n s = r at htaken hkept hahead'
    obtain ⟨answer,s'⟩ := r
    obtain rfl : answer = some (bytes.take n) := htaken
    exact ih _ hrest hkept hahead'

/-- What a run gave a value for, it has read. -/
theorem Follows.of_run {rd : StreamRead β σ} {I : σ → Prop} {ahead : σ → List β}
    (hrd : Follows rd limit I ahead) {p : ReadProgram β α} {a : α} {s : σ} (hs : I s)
    (h : (p.run rd s).1 = some a) :
    I (p.run rd s).2 ∧
      ∃ limit' first, ahead s = first ++ ahead (p.run rd s).2 ∧ p.Reads limit' first a := by
  induction p generalizing s with
  | done b => exact ⟨hs, 0, [], rfl, rfl, Option.some.inj h⟩
  | throw => cases h
  | read n next ih =>
    have hanswer := hrd.answer n s
    rw [ReadProgram.run] at h ⊢
    generalize rd n s = r at h hanswer ⊢
    obtain ⟨answer,s'⟩ := r
    cases answer with
    | none => cases h
    | some bytes =>
      obtain ⟨hkept,hlen,rfl,hahead⟩ := hanswer bytes hs rfl
      obtain ⟨hkept',limit',first,hsplit,hreads⟩ := ih _ hkept h
      dsimp only at hsplit hahead ⊢
      have htaken : ((ahead s).take n).length = n := List.length_take_of_le hlen
      refine ⟨hkept', max limit' n, (ahead s).take n ++ first, ?_, le_max_right _ _, ?_, ?_⟩
      · rw [List.append_assoc, ← hsplit, hahead, List.take_append_drop]
      · rw [List.length_append]
        omega
      · rw [List.take_left' htaken, List.drop_left' htaken]
        exact hreads.mono (le_max_left _ _)

theorem listRead_follows : Follows (@listRead β) limit (fun _ => True) id := by
  constructor
  · intro n bytes _ _ hlen
    have hread : listRead n bytes = (some (bytes.take n), bytes.drop n) := if_neg (not_lt.mpr hlen)
    exact ⟨bytes.take n, by rw [hread]⟩
  · intro n bytes taken _ h
    rw [listRead] at h ⊢
    by_cases hlen : bytes.length < n
    · rw [if_pos hlen] at h
      cases h
    · rw [if_neg hlen] at h ⊢
      exact ⟨trivial, not_lt.mp hlen, (Option.some.inj h).symm, rfl⟩

/-- A list is read exactly by the programs that read one of its starts. -/
theorem run_listRead_iff {p : ReadProgram β α} {bytes rest : List β} {a : α} :
    p.run listRead bytes = (some a, rest) ↔
      ∃ limit first, bytes = first ++ rest ∧ p.Reads limit first a := by
  constructor
  · intro h
    have hlist : Follows (@listRead β) 0 (fun _ => True) id := listRead_follows
    obtain ⟨-,limit,first,hsplit,hreads⟩ := hlist.of_run (s := bytes) trivial (congrArg Prod.fst h)
    rw [h] at hsplit
    exact ⟨limit, first, hsplit, hreads⟩
  · rintro ⟨limit,first,hsplit,hreads⟩
    obtain ⟨hvalue,-,hrest⟩ := listRead_follows.run hreads trivial hsplit
    exact Prod.ext hvalue hrest

end Laws

section Format
variable {β α : Type} {read : ReadProgram β α} {write : α → List β} {fits : α → Prop}

/-- A reader and a writer of one format: what is written is read back, and what is read fits and is
not written any longer than it was read. -/
structure Format (read : ReadProgram β α) (write : α → List β) (fits : α → Prop) : Prop where
  reads : ∀ a, fits a → ∀ limit, (write a).length ≤ limit → read.Reads limit (write a) a
  accepts : ∀ limit bytes a, read.Reads limit bytes a → fits a ∧ (write a).length ≤ bytes.length

theorem Format.roundTrip (h : Format read write fits) {a : α} (ha : fits a) (rest : List β) :
    read.run listRead (write a ++ rest) = (some a, rest) :=
  run_listRead_iff.mpr ⟨_, write a, rfl, h.reads a ha _ le_rfl⟩

/-- No value is written as the start of another one. -/
theorem Format.prefixFree (h : Format read write fits) {a b : α} (ha : fits a) (hb : fits b)
    {rest rest' : List β} (heq : write a ++ rest = write b ++ rest') : a = b ∧ rest = rest' := by
  obtain ⟨-,hrest,hvalue⟩ := (h.reads a ha _ le_rfl).unique (h.reads b hb _ le_rfl) heq
  exact ⟨hvalue, hrest⟩

theorem Format.accepted (h : Format read write fits) {bytes rest : List β} {a : α}
    (hrun : read.run listRead bytes = (some a, rest)) :
    fits a ∧ ∃ first, bytes = first ++ rest ∧ (write a).length ≤ first.length := by
  obtain ⟨limit,first,hsplit,hreads⟩ := run_listRead_iff.mp hrun
  obtain ⟨hfits,hlen⟩ := h.accepts limit first a hreads
  exact ⟨hfits, first, hsplit, hlen⟩

end Format

end ReadProgram

end Candypool.Lib
