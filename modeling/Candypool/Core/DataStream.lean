import Candypool.Lib.ReadProgram
import Mathlib.Algebra.Group.Nat.Defs

/-! `CDataStream`: a vector with a reading position, which is a queue of bytes that keeps some of what was
taken from it. -/
namespace Candypool.Core
open Candypool.Lib

structure CDataStream where
  vch : List UInt8
  nReadPos : ℕ

namespace CDataStream

/-- What lies from `begin()` to `end()`. -/
def contents (s : CDataStream) : List UInt8 := s.vch.drop s.nReadPos

def size (s : CDataStream) : ℕ := s.vch.length-s.nReadPos

/-- `read`: `nSize` is an `int` that an assertion keeps from being negative, and the end of the data is
found by an exception, since the mask holds `failbit`. At the end the vector is cleared. -/
def read : StreamRead UInt8 CDataStream := fun nSize s =>
  if nSize ≥ 2^31 then (none, s)
  else
    let nReadPosNext := (s.nReadPos+nSize) % 2^32
    if nReadPosNext ≥ s.vch.length then
      if nReadPosNext > s.vch.length then (none, s)
      else (some ((s.vch.drop s.nReadPos).take nSize), ⟨[],0⟩)
    else (some ((s.vch.drop s.nReadPos).take nSize), { s with nReadPos := nReadPosNext })

def ignore (nSize : ℕ) (s : CDataStream) : Option Unit × CDataStream :=
  if nSize ≥ 2^31 then (none, s)
  else
    let nReadPosNext := (s.nReadPos+nSize) % 2^32
    if nReadPosNext ≥ s.vch.length then
      if nReadPosNext > s.vch.length then (none, s) else (some (), ⟨[],0⟩)
    else (some (), { s with nReadPos := nReadPosNext })

def write (bytes : List UInt8) (s : CDataStream) : CDataStream := { s with vch := s.vch ++ bytes }

/-- `insert` of a range before `begin()+it`: at the front it goes over what was read, if that is long
enough. -/
def insert (it : ℕ) (bytes : List UInt8) (s : CDataStream) : CDataStream :=
  if it = 0 ∧ bytes.length ≤ s.nReadPos then
    ⟨s.vch.take (s.nReadPos-bytes.length) ++ (bytes ++ s.vch.drop s.nReadPos),
      s.nReadPos-bytes.length⟩
  else ⟨s.vch.take (s.nReadPos+it) ++ (bytes ++ s.vch.drop (s.nReadPos+it)), s.nReadPos⟩

/-- `erase` from `begin()+first` to `begin()+last`. -/
def erase (first last : ℕ) (s : CDataStream) : CDataStream :=
  if first = 0 then
    if s.nReadPos+last = s.vch.length then ⟨[],0⟩ else { s with nReadPos := s.nReadPos+last }
  else { s with vch := s.vch.take (s.nReadPos+first) ++ s.vch.drop (s.nReadPos+last) }

def compact (s : CDataStream) : CDataStream := ⟨s.vch.drop s.nReadPos, 0⟩

def rewind (n : ℕ) (s : CDataStream) : Bool × CDataStream :=
  if n > s.nReadPos then (false, s) else (true, { s with nReadPos := s.nReadPos-n })

def clear (_ : CDataStream) : CDataStream := ⟨[],0⟩

def resize (n : ℕ) (s : CDataStream) : CDataStream :=
  { s with vch := s.vch.take (n+s.nReadPos) ++ List.replicate (n+s.nReadPos-s.vch.length) 0 }

/-- The calls of the stream. -/
inductive Call
  | read (nSize : ℕ)
  | ignore (nSize : ℕ)
  | write (bytes : List UInt8)
  | insert (it : ℕ) (bytes : List UInt8)
  | erase (first last : ℕ)
  | compact
  | rewind (n : ℕ)
  | clear
  | resize (n : ℕ)

/-- A call with its answer: the bytes read, or none when it throws or returns `false`. -/
def exec (s : CDataStream) : Call → Option (List UInt8) × CDataStream
  | .read nSize => s.read nSize
  | .ignore nSize => let (answer,s) := s.ignore nSize; (answer.map fun _ => [], s)
  | .write bytes => (some [], s.write bytes)
  | .insert it bytes => (some [], s.insert it bytes)
  | .erase first last => (some [], s.erase first last)
  | .compact => (some [], s.compact)
  | .rewind n => let (done,s) := s.rewind n; (if done then some [] else none, s)
  | .clear => (some [], s.clear)
  | .resize n => (some [], s.resize n)

def execAll : CDataStream → List Call → List (Option (List UInt8)) × CDataStream
  | s, [] => ([], s)
  | s, call :: calls =>
    let (answer,s) := s.exec call
    let (answers,s) := execAll s calls
    (answer :: answers, s)

end CDataStream

/-- A queue of bytes with what it still has of those taken from it, the last of them last. -/
structure ByteQueue where
  kept : List UInt8
  queue : List UInt8

namespace ByteQueue

/-- Bytes leave the front; with the last of them all is forgotten. -/
def take (n : ℕ) (q : ByteQueue) : ByteQueue :=
  if n = q.queue.length then ⟨[],[]⟩ else ⟨q.kept ++ q.queue.take n, q.queue.drop n⟩

def exec (q : ByteQueue) : CDataStream.Call → Option (List UInt8) × ByteQueue
  | .read nSize => if nSize ≤ q.queue.length then (some (q.queue.take nSize), q.take nSize) else (none, q)
  | .ignore nSize => if nSize ≤ q.queue.length then (some [], q.take nSize) else (none, q)
  | .write bytes => (some [], { q with queue := q.queue ++ bytes })
  | .insert it bytes =>
    -- room for what is put at the front comes from what was kept
    let kept := if it = 0 ∧ bytes.length ≤ q.kept.length then
      q.kept.take (q.kept.length-bytes.length) else q.kept
    (some [], ⟨kept, q.queue.take it ++ (bytes ++ q.queue.drop it)⟩)
  | .erase first last =>
    (some [], if first = 0 then q.take last
      else { q with queue := q.queue.take first ++ q.queue.drop last })
  | .compact => (some [], { q with kept := [] })
  | .rewind n =>
    if n ≤ q.kept.length then
      (some [], ⟨q.kept.take (q.kept.length-n), q.kept.drop (q.kept.length-n) ++ q.queue⟩)
    else (none, q)
  | .clear => (some [], ⟨[],[]⟩)
  | .resize n => (some [], { q with queue := q.queue.take n ++ List.replicate (n-q.queue.length) 0 })

def execAll : ByteQueue → List CDataStream.Call → List (Option (List UInt8)) × ByteQueue
  | q, [] => ([], q)
  | q, call :: calls =>
    let (answer,q) := q.exec call
    let (answers,q) := execAll q calls
    (answer :: answers, q)

/-- A call with iterators inside the queue, and sizes that an `int` holds. -/
def InRange (q : ByteQueue) : CDataStream.Call → Prop
  | .read nSize => nSize < 2^31 ∧ q.kept.length+q.queue.length < 2^31
  | .ignore nSize => nSize < 2^31 ∧ q.kept.length+q.queue.length < 2^31
  | .insert it _ => it ≤ q.queue.length
  | .erase first last => first ≤ last ∧ last ≤ q.queue.length
  | _ => True

end ByteQueue

namespace CDataStream

section Refinement
variable {s : CDataStream} {q : ByteQueue}

/-- The vector is what was kept and then the queue. -/
structure Shows (s : CDataStream) (q : ByteQueue) : Prop where
  vch : s.vch = q.kept ++ q.queue
  nReadPos : s.nReadPos = q.kept.length

theorem Shows.contents (h : Shows s q) : s.contents = q.queue := by
  rw [CDataStream.contents, h.vch, h.nReadPos, List.drop_left]

/-- Taking from the front, as `read`, `ignore` and `erase` do it. -/
theorem Shows.take (h : Shows s q) {n : ℕ} (hn : n ≤ q.queue.length) :
    Shows (if s.nReadPos+n = s.vch.length then ⟨[],0⟩ else { s with nReadPos := s.nReadPos+n })
      (q.take n) := by
  have hlen : s.vch.length = q.kept.length+q.queue.length := by rw [h.vch, List.length_append]
  have hpos := h.nReadPos
  rw [ByteQueue.take]
  by_cases hall : n = q.queue.length
  · rw [if_pos (by omega), if_pos hall]
    exact ⟨rfl, rfl⟩
  · rw [if_neg (by omega), if_neg hall]
    refine ⟨?_, ?_⟩
    · rw [h.vch, List.append_assoc, List.take_append_drop]
    · rw [List.length_append, List.length_take_of_le hn, ← hpos]

theorem Shows.read (h : Shows s q) {nSize : ℕ} (hsize : nSize < 2^31)
    (hlen : q.kept.length+q.queue.length < 2^31) :
    (s.read nSize).1 = (q.exec (.read nSize)).1 ∧ Shows (s.read nSize).2 (q.exec (.read nSize)).2 := by
  have hvch : s.vch.length = q.kept.length+q.queue.length := by rw [h.vch, List.length_append]
  have hpos := h.nReadPos
  have hmod : (s.nReadPos+nSize) % 2^32 = s.nReadPos+nSize := Nat.mod_eq_of_lt (by omega)
  have hcontents := h.contents
  rw [CDataStream.contents] at hcontents
  rw [CDataStream.read, if_neg (not_le.mpr hsize), hmod, ByteQueue.exec, hcontents]
  dsimp only
  by_cases hn : nSize ≤ q.queue.length
  · have htake := h.take hn
    rw [if_pos hn]
    by_cases hend : s.nReadPos+nSize = s.vch.length
    · rw [if_pos hend] at htake
      rw [if_pos hend.ge, if_neg (by omega)]
      exact ⟨rfl, htake⟩
    · rw [if_neg hend] at htake
      rw [if_neg (by omega)]
      exact ⟨rfl, htake⟩
  · rw [if_neg hn, if_pos (by omega), if_pos (by omega)]
    exact ⟨rfl, h⟩

theorem Shows.ignore (h : Shows s q) {nSize : ℕ} (hsize : nSize < 2^31)
    (hlen : q.kept.length+q.queue.length < 2^31) :
    (s.exec (.ignore nSize)).1 = (q.exec (.ignore nSize)).1 ∧
      Shows (s.exec (.ignore nSize)).2 (q.exec (.ignore nSize)).2 := by
  have hvch : s.vch.length = q.kept.length+q.queue.length := by rw [h.vch, List.length_append]
  have hpos := h.nReadPos
  have hmod : (s.nReadPos+nSize) % 2^32 = s.nReadPos+nSize := Nat.mod_eq_of_lt (by omega)
  rw [CDataStream.exec, CDataStream.ignore, if_neg (not_le.mpr hsize), hmod, ByteQueue.exec]
  dsimp only
  by_cases hn : nSize ≤ q.queue.length
  · have htake := h.take hn
    rw [if_pos hn]
    by_cases hend : s.nReadPos+nSize = s.vch.length
    · rw [if_pos hend] at htake
      rw [if_pos hend.ge, if_neg (by omega)]
      exact ⟨rfl, htake⟩
    · rw [if_neg hend] at htake
      rw [if_neg (by omega)]
      exact ⟨rfl, htake⟩
  · rw [if_neg hn, if_pos (by omega), if_pos (by omega)]
    exact ⟨rfl, h⟩

theorem Shows.insert (h : Shows s q) {it : ℕ} {bytes : List UInt8} (hit : it ≤ q.queue.length) :
    Shows (s.insert it bytes) (q.exec (.insert it bytes)).2 := by
  have hpos := h.nReadPos
  rw [CDataStream.insert, ByteQueue.exec]
  dsimp only
  by_cases hfront : it = 0 ∧ bytes.length ≤ s.nReadPos
  · rw [if_pos hfront, if_pos (by omega)]
    obtain ⟨rfl,hroom⟩ := hfront
    refine ⟨?_, ?_⟩
    · rw [h.vch, hpos, List.take_append_of_le_length (by omega), List.drop_left]
      rfl
    · dsimp only
      rw [List.length_take]
      omega
  · rw [if_neg hfront, if_neg (by omega)]
    refine ⟨?_, hpos⟩
    rw [h.vch, hpos, List.take_length_add_append, List.drop_length_add_append, List.append_assoc]

theorem Shows.erase (h : Shows s q) {first last : ℕ}
    (hlast : last ≤ q.queue.length) : Shows (s.erase first last) (q.exec (.erase first last)).2 := by
  rw [CDataStream.erase, ByteQueue.exec]
  dsimp only
  by_cases hfront : first = 0
  · rw [if_pos hfront, if_pos hfront]
    exact h.take hlast
  · rw [if_neg hfront, if_neg hfront]
    refine ⟨?_, h.nReadPos⟩
    rw [h.vch, h.nReadPos, List.take_length_add_append, List.drop_length_add_append, List.append_assoc]

theorem Shows.rewind (h : Shows s q) (n : ℕ) :
    (s.exec (.rewind n)).1 = (q.exec (.rewind n)).1 ∧
      Shows (s.exec (.rewind n)).2 (q.exec (.rewind n)).2 := by
  have hpos := h.nReadPos
  rw [CDataStream.exec, CDataStream.rewind, ByteQueue.exec]
  by_cases hn : n ≤ q.kept.length
  · rw [if_neg (by omega), if_pos hn]
    refine ⟨rfl, ?_, ?_⟩
    · rw [h.vch, ← List.append_assoc, List.take_append_drop]
    · dsimp only
      rw [List.length_take]
      omega
  · rw [if_pos (by omega), if_neg hn]
    exact ⟨rfl, h⟩

theorem Shows.resize (h : Shows s q) (n : ℕ) : Shows (s.resize n) (q.exec (.resize n)).2 := by
  have hvch : s.vch.length = q.kept.length+q.queue.length := by rw [h.vch, List.length_append]
  have hpos := h.nReadPos
  rw [CDataStream.resize, ByteQueue.exec]
  refine ⟨?_, hpos⟩
  dsimp only
  rw [show n+s.nReadPos-s.vch.length = n-q.queue.length by omega, h.vch, hpos, Nat.add_comm n,
    List.take_length_add_append, List.append_assoc]

/-- Each call answers as the queue does. -/
theorem Shows.exec (h : Shows s q) {call : Call} (hcall : q.InRange call) :
    (s.exec call).1 = (q.exec call).1 ∧ Shows (s.exec call).2 (q.exec call).2 := by
  cases call with
  | read nSize => exact h.read hcall.1 hcall.2
  | ignore nSize => exact h.ignore hcall.1 hcall.2
  | write bytes => exact ⟨rfl, by rw [CDataStream.exec, CDataStream.write, h.vch, ByteQueue.exec,
      List.append_assoc], h.nReadPos⟩
  | insert it bytes => exact ⟨rfl, h.insert hcall⟩
  | erase first last => exact ⟨rfl, h.erase hcall.2⟩
  | compact => exact ⟨rfl, by rw [CDataStream.exec, CDataStream.compact]; exact h.contents, rfl⟩
  | rewind n => exact h.rewind n
  | clear => exact ⟨rfl, rfl, rfl⟩
  | resize n => exact ⟨rfl, h.resize n⟩

end Refinement

section Reading

/-- A stream whose bytes an `int` can count. -/
def Small (s : CDataStream) : Prop := s.nReadPos ≤ s.vch.length ∧ s.vch.length < 2^31

theorem shows_self {s : CDataStream} (h : s.nReadPos ≤ s.vch.length) :
    Shows s ⟨s.vch.take s.nReadPos, s.contents⟩ :=
  ⟨(List.take_append_drop _ _).symm, (List.length_take_of_le h).symm⟩

/-- The stream is read like the list of its bytes. -/
theorem read_follows : ReadProgram.Follows CDataStream.read (2^31-1) Small contents := by
  have hshown : ∀ n s, Small s → n < 2^31 → (s.read n).1 = (ByteQueue.exec ⟨s.vch.take s.nReadPos,
      s.contents⟩ (.read n)).1 ∧ Shows (s.read n).2 (ByteQueue.exec ⟨s.vch.take s.nReadPos,
      s.contents⟩ (.read n)).2 := by
    intro n s hs hn
    refine (shows_self hs.1).read hn ?_
    rw [← List.length_append, contents, List.take_append_drop]
    exact hs.2
  constructor
  · intro n s hs hn hlen
    obtain ⟨hanswer,-⟩ := hshown n s hs (by omega)
    rw [ByteQueue.exec] at hanswer
    dsimp only at hanswer
    rw [if_pos hlen] at hanswer
    exact ⟨_, hanswer⟩
  · intro n s bytes hs hsome
    by_cases hn : n < 2^31
    swap
    · rw [CDataStream.read, if_pos (not_lt.mp hn)] at hsome
      cases hsome
    obtain ⟨hanswer,hshows⟩ := hshown n s hs hn
    rw [hsome, ByteQueue.exec] at hanswer
    rw [ByteQueue.exec] at hshows
    dsimp only at hanswer hshows
    split_ifs at hanswer hshows with hlen
    have hkept : (s.vch.take s.nReadPos).length = s.nReadPos := List.length_take_of_le hs.1
    have hsmall := hs.2
    have hcontents := hshows.contents
    have hsize : s.contents.length = s.vch.length-s.nReadPos := List.length_drop
    have hpos := hshows.nReadPos
    have hvch := congrArg List.length hshows.vch
    rw [ByteQueue.take] at hcontents hpos hvch
    refine ⟨?_, hlen, Option.some.inj hanswer, ?_⟩
    · split_ifs at hpos hvch with hall
      · simp only [List.length_nil, List.append_nil] at hpos hvch
        exact ⟨by omega, by omega⟩
      · simp only [List.length_append, List.length_take, List.length_drop] at hpos hvch
        exact ⟨by omega, by omega⟩
    · rw [hcontents]
      split_ifs with hall
      · exact (List.drop_of_length_le hall.ge).symm
      · rfl

/-- A program run on the stream comes to what it comes to on the list of the bytes. -/
theorem run_iff {α : Type} (p : ReadProgram UInt8 α) {s : CDataStream} (hs : Small s) {a : α}
    {rest : List UInt8} :
    (∃ s', p.run CDataStream.read s = (some a, s') ∧ s'.contents = rest) ↔
      p.run ReadProgram.listRead s.contents = (some a, rest) := by
  constructor
  · rintro ⟨s',hrun,rfl⟩
    obtain ⟨-,limit,first,hsplit,hreads⟩ := read_follows.of_run hs (congrArg Prod.fst hrun)
    rw [hrun] at hsplit
    exact ReadProgram.run_listRead_iff.mpr ⟨limit, first, hsplit, hreads⟩
  · intro hrun
    obtain ⟨limit,first,hsplit,hreads⟩ := ReadProgram.run_listRead_iff.mp hrun
    have hlen : first.length ≤ 2^31-1 := by
      have hle := congrArg List.length hsplit
      have hsmall := hs.2
      rw [contents, List.length_drop, List.length_append] at hle
      omega
    obtain ⟨hvalue,-,hrest⟩ := read_follows.run (hreads.bounded hlen) hs hsplit
    exact ⟨_, Prod.ext hvalue rfl, hrest⟩

end Reading

end CDataStream

end Candypool.Core
