import Candypool.Lib.ReadProgram
import Candypool.Lib.RingWindow

/-! `CBufferedFile`: a file read through a ring buffer, which keeps some of what was read so that the
reader can go back. Positions are below `2^63`, as those of `ftell` are. -/
namespace Candypool.Core
open Candypool.Lib

/-- The file with its end-of-file flag, and the buffer. The file stands at `nSrcPos`. -/
structure CBufferedFile where
  src : List UInt8
  feof : Bool
  nSrcPos : ℕ
  nReadPos : ℕ
  nReadLimit : ℕ
  nRewind : ℕ
  vchBuf : List UInt8
  failbit : Bool

namespace CBufferedFile

/-- `(uint64)(-1)`. -/
def noLimit : ℕ := 2^64-1

def ofFile (fileIn : List UInt8) (nBufSize nRewindIn : ℕ) : CBufferedFile :=
  ⟨fileIn, false, 0, 0, noLimit, nRewindIn, List.replicate nBufSize 0, false⟩

/-- What `Fill` asks the file for. -/
def readNow (f : CBufferedFile) : ℕ :=
  min (f.vchBuf.length-f.nSrcPos % f.vchBuf.length)
    (f.vchBuf.length-(f.nSrcPos-f.nReadPos)-f.nRewind)

/-- `fread` of `n` bytes into the buffer. -/
def fread (f : CBufferedFile) (n : ℕ) : CBufferedFile :=
  let bytes := (f.src.drop f.nSrcPos).take n
  { f with
    feof := f.feof || decide (bytes.length < n)
    nSrcPos := f.nSrcPos+bytes.length
    vchBuf := overwrite f.vchBuf (f.nSrcPos % f.vchBuf.length) bytes }

/-- The exception mask holds `failbit`, so that a file that gives nothing throws. -/
def fill (f : CBufferedFile) : Option Unit × CBufferedFile :=
  if f.readNow = 0 then (some (), f)
  else
    let filled := f.fread f.readNow
    if filled.nSrcPos = f.nSrcPos then (none, { filled with failbit := true })
    else (some (), filled)

def good (f : CBufferedFile) : Bool := !f.failbit

def eof (f : CBufferedFile) : Bool := decide (f.nReadPos = f.nSrcPos) && f.feof

/-- The buffer is filled when all of it has been read. -/
def fillIfRead (f : CBufferedFile) : Option Unit × CBufferedFile :=
  if f.nReadPos = f.nSrcPos then f.fill else (some (), f)

/-- How much of a read one turn of the loop copies. -/
def nNow (f : CBufferedFile) (nSize : ℕ) : ℕ :=
  let pos := f.nReadPos % f.vchBuf.length
  let nNow := if nSize+pos > f.vchBuf.length then f.vchBuf.length-pos else nSize
  if nNow+f.nReadPos > f.nSrcPos then f.nSrcPos-f.nReadPos else nNow

/-- The bytes that one turn copies. -/
def taken (f : CBufferedFile) (nSize : ℕ) : List UInt8 :=
  (f.vchBuf.drop (f.nReadPos % f.vchBuf.length)).take (f.nNow nSize)

def advance (f : CBufferedFile) (n : ℕ) : CBufferedFile := { f with nReadPos := f.nReadPos+n }

/-- The loop of `read`: a turn copies a byte or throws, so that `nSize` turns do. -/
def readLoop : ℕ → ℕ → CBufferedFile → Option (List UInt8) × CBufferedFile
  | 0, nSize, f => (if nSize = 0 then some [] else none, f)
  | fuel+1, nSize, f =>
    if nSize = 0 then (some [], f)
    else match f.fillIfRead with
      | (none, f) => (none, f)
      | (some (), f) =>
        let rest := readLoop fuel (nSize-f.nNow nSize) (f.advance (f.nNow nSize))
        (rest.1.map (f.taken nSize ++ ·), rest.2)

/-- `read`: past the limit, or more than the buffer can hold beside what is kept, it throws. -/
def read : StreamRead UInt8 CBufferedFile := fun nSize f =>
  if nSize+f.nReadPos > f.nReadLimit then (none, f)
  else if nSize+f.nRewind > f.vchBuf.length then (none, f)
  else readLoop nSize nSize f

def getPos (f : CBufferedFile) : ℕ := f.nReadPos

def setPos (f : CBufferedFile) (nPos : ℕ) : Bool × CBufferedFile :=
  if nPos+f.nRewind < f.nSrcPos then (false, { f with nReadPos := f.nSrcPos-f.nRewind })
  else if nPos > f.nSrcPos then (false, { f with nReadPos := f.nSrcPos })
  else (true, { f with nReadPos := nPos })

/-- `fseek` goes past the end of the file too, and clears the end-of-file flag. -/
def seek (f : CBufferedFile) (nPos : ℕ) : Bool × CBufferedFile :=
  if nPos ≥ 2^63 then (false, f)
  else (true, { f with feof := false, nSrcPos := nPos, nReadPos := nPos, failbit := false })

def setLimit (f : CBufferedFile) (nPos : ℕ) : Bool × CBufferedFile :=
  if nPos < f.nReadPos then (false, f) else (true, { f with nReadLimit := nPos })

/-- The search of `FindByte`, which the end of the file ends by an exception. -/
def findByteLoop (ch : UInt8) : ℕ → CBufferedFile → Option Unit × CBufferedFile
  | 0, f => (none, f)
  | fuel+1, f => match f.fillIfRead with
    | (none, f) => (none, f)
    | (some (), f) =>
      if f.vchBuf[f.nReadPos % f.vchBuf.length]? = some ch then (some (), f)
      else findByteLoop ch fuel (f.advance 1)

def findByte (ch : UInt8) (f : CBufferedFile) : Option Unit × CBufferedFile :=
  findByteLoop ch (f.src.length+1) f

section Invariant

/-- How far ahead of the reader `Fill` reads the file. -/
def avail (f : CBufferedFile) : ℕ := f.vchBuf.length-f.nRewind

/-- What the reader does not change. -/
structure Same (f g : CBufferedFile) : Prop where
  src : g.src = f.src
  nReadLimit : g.nReadLimit = f.nReadLimit
  nRewind : g.nRewind = f.nRewind
  size : g.vchBuf.length = f.vchBuf.length

theorem Same.refl (f : CBufferedFile) : Same f f := ⟨rfl, rfl, rfl, rfl⟩

theorem Same.trans {f g h : CBufferedFile} (hfg : Same f g) (hgh : Same g h) : Same f h :=
  ⟨hgh.src.trans hfg.src, hgh.nReadLimit.trans hfg.nReadLimit, hgh.nRewind.trans hfg.nRewind,
    hgh.size.trans hfg.size⟩

theorem Same.advance (f : CBufferedFile) (n : ℕ) : Same f (f.advance n) := ⟨rfl, rfl, rfl, rfl⟩

/-- The buffer holds the last of what was read from the file since it was positioned at `start`, and
the reader stands in it or at its end, with the file read no further than `avail` ahead or than `M`. -/
structure Holds (f : CBufferedFile) (start M : ℕ) : Prop where
  rewind : f.nRewind < f.vchBuf.length
  window : RingWindow f.src f.vchBuf (max start (f.nSrcPos-f.vchBuf.length)) f.nSrcPos
  start_le : start ≤ f.nReadPos
  read_le : f.nReadPos ≤ f.nSrcPos
  kept : f.nSrcPos ≤ f.nReadPos+f.vchBuf.length
  src_le : f.nSrcPos ≤ max start f.src.length
  ended : f.feof = true → f.src.length ≤ f.nSrcPos
  bound : f.nSrcPos ≤ max M (f.nReadPos+f.avail)

theorem Same.avail {f g : CBufferedFile} (h : Same f g) : g.avail = f.avail := by
  rw [CBufferedFile.avail, h.size, h.nRewind, CBufferedFile.avail]

variable {f : CBufferedFile} {start M n : ℕ}

theorem Holds.advance (h : Holds f start M) (hn : f.nReadPos+n ≤ f.nSrcPos) :
    Holds (f.advance n) start M := by
  have hkept := h.kept
  have hbound := h.bound
  refine ⟨h.rewind, h.window, ?_, hn, ?_, h.src_le, h.ended, ?_⟩
  · exact h.start_le.trans (Nat.le_add_right _ _)
  · show f.nSrcPos ≤ f.nReadPos+n+f.vchBuf.length
    omega
  · show f.nSrcPos ≤ max M (f.nReadPos+n+f.avail)
    omega

/-- `Fill` at the end of the buffer: the file gives up to `avail` bytes, or throws at its end. -/
theorem Holds.fill (h : Holds f start M) (hread : f.nReadPos = f.nSrcPos) :
    Same f f.fill.2 ∧ f.fill.2.nReadPos = f.nReadPos ∧ Holds f.fill.2 start M ∧
      if f.nSrcPos < f.src.length then
        f.fill.1 = some () ∧ f.fill.2.failbit = f.failbit ∧ f.nSrcPos < f.fill.2.nSrcPos
      else f.fill.1 = none ∧ f.fill.2.failbit = true := by
  have hrewind := h.rewind
  have hpos : f.nSrcPos % f.vchBuf.length < f.vchBuf.length := Nat.mod_lt _ (by omega)
  have hnow : f.readNow = min (f.vchBuf.length-f.nSrcPos % f.vchBuf.length) f.avail := by
    rw [CBufferedFile.readNow, CBufferedFile.avail, hread, Nat.sub_self, Nat.sub_zero]
  have havail : f.avail = f.vchBuf.length-f.nRewind := rfl
  have hnonzero : f.readNow ≠ 0 := by omega
  generalize hbytes : (f.src.drop f.nSrcPos).take f.readNow = bytes
  have hlen : bytes.length = min f.readNow (f.src.length-f.nSrcPos) := by
    rw [← hbytes, List.length_take, List.length_drop]
  have hroom : f.nSrcPos % f.vchBuf.length+bytes.length ≤ f.vchBuf.length := by omega
  have hfread : f.fread f.readNow = { f with
      feof := f.feof || decide (bytes.length < f.readNow)
      nSrcPos := f.nSrcPos+bytes.length
      vchBuf := overwrite f.vchBuf (f.nSrcPos % f.vchBuf.length) bytes } := by
    rw [CBufferedFile.fread, hbytes]
  have hsize : (f.fread f.readNow).vchBuf.length = f.vchBuf.length := by
    rw [hfread]
    exact overwrite_length hroom
  have hsrc := h.src_le
  have hsrcPos : (f.fread f.readNow).nSrcPos = f.nSrcPos+bytes.length := by rw [hfread]
  have hsame : Same f (f.fread f.readNow) :=
    ⟨by rw [hfread], by rw [hfread], by rw [hfread], hsize⟩
  have hheld : Holds (f.fread f.readNow) start M := by
    have hwindow := h.window.fill hbytes.symm hroom
    refine ⟨hsize ▸ hrewind, ?_, ?_, ?_, ?_, ?_, ?_, ?_⟩
    · rw [hsize, hfread]
      exact hwindow.mono (by dsimp only; omega) le_rfl
    · rw [hfread]
      exact h.start_le
    · rw [hfread]
      dsimp only
      omega
    · rw [hsize, hfread]
      dsimp only
      omega
    · rw [hfread]
      dsimp only
      omega
    · rw [hfread]
      intro hended
      rw [Bool.or_eq_true, decide_eq_true_eq] at hended
      dsimp only
      rcases hended with hended | hshort
      · exact (h.ended hended).trans (Nat.le_add_right _ _)
      · omega
    · rw [hsame.avail, hfread]
      dsimp only
      omega
  rw [CBufferedFile.fill, if_neg hnonzero]
  dsimp only
  by_cases hsome : f.nSrcPos < f.src.length
  · rw [if_neg (by omega), if_pos hsome]
    refine ⟨hsame, by rw [hfread], hheld, rfl, by rw [hfread], ?_⟩
    exact hsrcPos ▸ (by omega)
  · rw [if_pos (by omega), if_neg hsome]
    refine ⟨⟨hsame.src, hsame.nReadLimit, hsame.nRewind, hsame.size⟩, by rw [hfread],
      ⟨hheld.rewind, hheld.window, hheld.start_le, hheld.read_le, hheld.kept, hheld.src_le,
        hheld.ended, hheld.bound⟩, rfl, rfl⟩

/-- Before a byte is taken there is one in the buffer, unless the file has ended. -/
theorem Holds.fillIfRead (h : Holds f start M) :
    Same f f.fillIfRead.2 ∧ f.fillIfRead.2.nReadPos = f.nReadPos ∧ Holds f.fillIfRead.2 start M ∧
      if f.nReadPos < f.src.length then
        f.fillIfRead.1 = some () ∧ f.fillIfRead.2.failbit = f.failbit ∧
          f.nReadPos < f.fillIfRead.2.nSrcPos
      else f.fillIfRead.1 = none ∧ f.fillIfRead.2.failbit = true := by
  have hle := h.read_le
  have hstart := h.start_le
  have hsrc := h.src_le
  rw [CBufferedFile.fillIfRead]
  by_cases hread : f.nReadPos = f.nSrcPos
  · obtain ⟨hsame,hpos,hheld,hrest⟩ := h.fill hread
    rw [if_pos hread]
    refine ⟨hsame, hpos, hheld, ?_⟩
    by_cases hsome : f.nReadPos < f.src.length
    · rw [if_pos (hread ▸ hsome)] at hrest
      obtain ⟨hok,hbit,hmore⟩ := hrest
      rw [if_pos hsome]
      exact ⟨hok, hbit, by omega⟩
    · rw [if_neg (hread ▸ hsome)] at hrest
      rw [if_neg hsome]
      exact hrest
  · rw [if_neg hread, if_pos (by omega)]
    exact ⟨Same.refl f, rfl, h, rfl, rfl, lt_of_le_of_ne hle hread⟩

/-- A turn copies at least one byte, and no more than lie in the buffer in one piece. -/
theorem Holds.nNow (h : Holds f start M) (hn : 0 < n) (hmore : f.nReadPos < f.nSrcPos) :
    0 < f.nNow n ∧ f.nNow n ≤ n ∧ f.nReadPos+f.nNow n ≤ f.nSrcPos ∧
      f.taken n = (f.src.drop f.nReadPos).take (f.nNow n) := by
  have hpos : f.nReadPos % f.vchBuf.length < f.vchBuf.length :=
    Nat.mod_lt _ (by have := h.rewind; omega)
  have hbounds : 0 < f.nNow n ∧ f.nNow n ≤ n ∧ f.nReadPos+f.nNow n ≤ f.nSrcPos ∧
      f.nReadPos % f.vchBuf.length+f.nNow n ≤ f.vchBuf.length := by
    rw [CBufferedFile.nNow]
    split_ifs <;> omega
  obtain ⟨hone,hle,hhi,hpiece⟩ := hbounds
  have hkept := h.kept
  exact ⟨hone, hle, hhi, h.window.read (max_le h.start_le (by omega)) hhi hpiece⟩

/-- The loop gives the bytes of the file, or throws where the file ends. -/
theorem Holds.readLoop {fuel : ℕ} (h : Holds f start M) (hfuel : n ≤ fuel) :
    Same f (f.readLoop fuel n).2 ∧ Holds (f.readLoop fuel n).2 start M ∧
      f.nReadPos ≤ (f.readLoop fuel n).2.nReadPos ∧
      if n = 0 ∨ f.nReadPos+n ≤ f.src.length then
        (f.readLoop fuel n).1 = some ((f.src.drop f.nReadPos).take n) ∧
          (f.readLoop fuel n).2.failbit = f.failbit ∧
          (f.readLoop fuel n).2.nReadPos = f.nReadPos+n
      else (f.readLoop fuel n).1 = none ∧ (f.readLoop fuel n).2.failbit = true := by
  induction fuel generalizing f n with
  | zero =>
    obtain rfl : n = 0 := Nat.le_zero.mp hfuel
    exact ⟨Same.refl f, h, le_rfl, rfl, rfl, rfl⟩
  | succ fuel ih =>
    rw [CBufferedFile.readLoop]
    by_cases hzero : n = 0
    · rw [if_pos hzero, if_pos (Or.inl hzero), hzero]
      exact ⟨Same.refl f, h, le_rfl, rfl, rfl, rfl⟩
    rw [if_neg hzero]
    have hn : 0 < n := Nat.pos_of_ne_zero hzero
    obtain ⟨hsame,hpos,hheld,hrest⟩ := h.fillIfRead
    generalize f.fillIfRead = r at hsame hpos hheld hrest ⊢
    obtain ⟨filled,g⟩ := r
    dsimp only at hsame hpos hheld hrest
    by_cases hsome : f.nReadPos < f.src.length
    · rw [if_pos hsome] at hrest
      obtain ⟨rfl,hbit,hmore⟩ := hrest
      obtain ⟨hone,hle,hhi,htaken⟩ := hheld.nNow hn (hpos ▸ hmore)
      have hleft : n-g.nNow n ≤ fuel := by omega
      obtain ⟨hsame',hheld',hmove,hrest⟩ := ih (hheld.advance hhi) hleft
      have hstep : (g.advance (g.nNow n)).nReadPos = f.nReadPos+g.nNow n := congrArg (·+_) hpos
      have hgsrc : (g.advance (g.nNow n)).src = f.src := hsame.src
      have hgbit : (g.advance (g.nNow n)).failbit = f.failbit := hbit
      rw [hstep, hgsrc, hgbit] at hrest
      dsimp only
      rw [htaken, hsame.src, hpos]
      refine ⟨hsame.trans ((Same.advance g _).trans hsame'), hheld', by omega, ?_⟩
      by_cases hin : f.nReadPos+n ≤ f.src.length
      · rw [if_pos (by omega)] at hrest
        obtain ⟨hbytes,hbit',hpos'⟩ := hrest
        rw [if_pos (Or.inr hin)]
        refine ⟨?_, hbit', by omega⟩
        -- the rest starts where this turn ended
        rw [hbytes, Option.map_some, ← List.drop_drop, ← List.take_add, Nat.add_sub_cancel' hle]
      · have hle' : f.nReadPos+g.nNow n ≤ f.src.length := by
          have hsrc := hheld.src_le
          have hstart := h.start_le
          rw [hsame.src] at hsrc
          omega
        rw [if_neg (by omega)] at hrest
        rw [if_neg (by omega), hrest.1]
        exact ⟨rfl, hrest.2⟩
    · rw [if_neg hsome] at hrest
      obtain ⟨rfl,hbit⟩ := hrest
      rw [if_neg (by omega)]
      exact ⟨hsame, hheld, hpos.ge, rfl, hbit⟩

end Invariant

section Reading
variable {f : CBufferedFile} {start M n : ℕ}

/-- A read within the limit and the file gives the next bytes. -/
theorem Holds.read (h : Holds f start M) (n : ℕ) :
    Same f (CBufferedFile.read n f).2 ∧ Holds (CBufferedFile.read n f).2 start M ∧
      f.nReadPos ≤ (CBufferedFile.read n f).2.nReadPos ∧
      if n+f.nReadPos ≤ f.nReadLimit ∧ n ≤ f.avail ∧ (n = 0 ∨ f.nReadPos+n ≤ f.src.length) then
        (CBufferedFile.read n f).1 = some ((f.src.drop f.nReadPos).take n) ∧
          (CBufferedFile.read n f).2.failbit = f.failbit ∧
          (CBufferedFile.read n f).2.nReadPos = f.nReadPos+n
      else (CBufferedFile.read n f).1 = none := by
  have hrewind := h.rewind
  have havail : f.avail = f.vchBuf.length-f.nRewind := rfl
  rw [CBufferedFile.read]
  by_cases hlimit : n+f.nReadPos > f.nReadLimit
  · rw [if_pos hlimit, if_neg (by omega)]
    exact ⟨Same.refl f, h, le_rfl, rfl⟩
  rw [if_neg hlimit]
  by_cases hlarge : n+f.nRewind > f.vchBuf.length
  · rw [if_pos hlarge, if_neg (by omega)]
    exact ⟨Same.refl f, h, le_rfl, rfl⟩
  rw [if_neg hlarge]
  obtain ⟨hsame,hheld,hmove,hrest⟩ := h.readLoop (le_refl n)
  refine ⟨hsame, hheld, hmove, ?_⟩
  by_cases hin : n = 0 ∨ f.nReadPos+n ≤ f.src.length
  · rw [if_pos ⟨not_lt.mp hlimit, by omega, hin⟩]
    rwa [if_pos hin] at hrest
  · rw [if_neg fun hall => hin hall.2.2]
    rw [if_neg hin] at hrest
    exact hrest.1

/-- Within the limit the file gives the bytes, or has too few left. -/
theorem Holds.read_or (h : Holds f start M) (hn : 0 < n) (hroom : n ≤ f.avail)
    (hlimit : n+f.nReadPos ≤ f.nReadLimit) :
    (f.nReadPos+n ≤ f.src.length ∧ ∃ g,
      CBufferedFile.read n f = (some ((f.src.drop f.nReadPos).take n), g) ∧ Same f g ∧
        Holds g start M ∧ g.failbit = f.failbit ∧ g.nReadPos = f.nReadPos+n) ∨
      (f.src.length < f.nReadPos+n ∧ (CBufferedFile.read n f).1 = none) := by
  obtain ⟨hsame,hheld,-,hanswer⟩ := h.read n
  by_cases hin : f.nReadPos+n ≤ f.src.length
  · rw [if_pos ⟨hlimit, hroom, Or.inr hin⟩] at hanswer
    obtain ⟨hbytes,hbit,hpos⟩ := hanswer
    exact Or.inl ⟨hin, _, Prod.ext hbytes rfl, hsame, hheld, hbit, hpos⟩
  · rw [if_neg (by omega)] at hanswer
    exact Or.inr ⟨not_le.mp hin, hanswer⟩

/-- `FindByte` stops at the next place of the byte, or throws at the end of the file. -/
theorem Holds.findByteLoop (ch : UInt8) {fuel : ℕ} (h : Holds f start M)
    (hfuel : f.src.length < fuel+f.nReadPos) :
    Same f (f.findByteLoop ch fuel).2 ∧ Holds (f.findByteLoop ch fuel).2 start M ∧
      ((∃ q, f.nReadPos ≤ q ∧ f.src[q]? = some ch ∧
          (∀ p, f.nReadPos ≤ p → p < q → f.src[p]? ≠ some ch) ∧
          (f.findByteLoop ch fuel).1 = some () ∧
          (f.findByteLoop ch fuel).2.failbit = f.failbit ∧
          (f.findByteLoop ch fuel).2.nReadPos = q) ∨
        ((∀ p, f.nReadPos ≤ p → f.src[p]? ≠ some ch) ∧ (f.findByteLoop ch fuel).1 = none)) := by
  induction fuel generalizing f with
  | zero =>
    refine ⟨Same.refl f, h, Or.inr ⟨?_, rfl⟩⟩
    intro p hp hbyte
    rw [List.getElem?_eq_none (by omega)] at hbyte
    cases hbyte
  | succ fuel ih =>
    obtain ⟨hsame,hpos,hheld,hrest⟩ := h.fillIfRead
    rw [CBufferedFile.findByteLoop]
    generalize f.fillIfRead = r at hsame hpos hheld hrest ⊢
    obtain ⟨filled,g⟩ := r
    dsimp only at hsame hpos hheld hrest
    by_cases hsome : f.nReadPos < f.src.length
    · rw [if_pos hsome] at hrest
      obtain ⟨rfl,hbit,hmore⟩ := hrest
      have hkept := hheld.kept
      have hbyte : g.vchBuf[g.nReadPos % g.vchBuf.length]? = f.src[f.nReadPos]? := by
        rw [hheld.window _ (max_le hheld.start_le (by omega)) (by omega), hsame.src, hpos]
      dsimp only
      rw [hbyte]
      by_cases hfound : f.src[f.nReadPos]? = some ch
      · rw [if_pos hfound]
        exact ⟨hsame, hheld, Or.inl ⟨f.nReadPos, le_rfl, hfound, fun p hp hp' => by omega, rfl, hbit,
          hpos⟩⟩
      · rw [if_neg hfound]
        have hnext : (g.advance 1).nReadPos = f.nReadPos+1 := congrArg (·+1) hpos
        have hsrc : (g.advance 1).src = f.src := hsame.src
        have hgbit : (g.advance 1).failbit = f.failbit := hbit
        have hone : g.nReadPos+1 ≤ g.nSrcPos := by omega
        obtain ⟨hsame',hheld',hrest⟩ := ih (hheld.advance hone) (by rw [hnext, hsrc]; omega)
        refine ⟨hsame.trans ((Same.advance g 1).trans hsame'), hheld', ?_⟩
        rw [hsrc, hnext, hgbit] at hrest
        -- the byte that was passed is not the one looked for
        have hpassed : ∀ p, f.nReadPos ≤ p → (f.nReadPos+1 ≤ p → f.src[p]? ≠ some ch) →
            f.src[p]? ≠ some ch := by
          intro p hp hlater
          rcases Nat.eq_or_lt_of_le hp with rfl | hp
          · exact hfound
          · exact hlater hp
        rcases hrest with ⟨q,hq,hat,hbefore,hdone⟩ | ⟨hnone,hdone⟩
        · exact Or.inl ⟨q, by omega, hat, fun p hp hpq => hpassed p hp fun hp' => hbefore p hp' hpq,
            hdone⟩
        · exact Or.inr ⟨fun p hp => hpassed p hp fun hp' => hnone p hp', hdone⟩
    · rw [if_neg hsome] at hrest
      obtain ⟨rfl,hbit⟩ := hrest
      refine ⟨hsame, hheld, Or.inr ⟨?_, rfl⟩⟩
      intro p hp hbyte
      rw [List.getElem?_eq_none (by omega)] at hbyte
      cases hbyte

/-- Going back is exact as far as the file has not been read too far ahead. -/
theorem Holds.setPos {M' nPos : ℕ} (h : Holds f start M) (hstart : start ≤ nPos)
    (hread : nPos ≤ f.nSrcPos) (hM : f.nSrcPos ≤ M') :
    Same f (f.setPos nPos).2 ∧ Holds (f.setPos nPos).2 start M' ∧
      (f.setPos nPos).2.nReadPos = max nPos (f.nSrcPos-f.nRewind) ∧
      (f.setPos nPos).2.nSrcPos = f.nSrcPos ∧ (f.setPos nPos).2.failbit = f.failbit := by
  have hrewind := h.rewind
  have hset : (f.setPos nPos).2 = { f with nReadPos := max nPos (f.nSrcPos-f.nRewind) } := by
    rw [CBufferedFile.setPos]
    split_ifs with hfar hpast
    · rw [max_eq_right (by omega)]
    · omega
    · rw [max_eq_left (by omega)]
  rw [hset]
  refine ⟨⟨rfl, rfl, rfl, rfl⟩, ?_, rfl, rfl, rfl⟩
  exact ⟨h.rewind, h.window, by dsimp only; omega, by dsimp only; omega, by dsimp only; omega,
    h.src_le, h.ended, by dsimp only; omega⟩

/-- A limit that lies ahead is set. -/
theorem Holds.setLimit {nPos : ℕ} (h : Holds f start M) (hahead : f.nReadPos ≤ nPos) :
    (f.setLimit nPos).2 = { f with nReadLimit := nPos } ∧
      Holds { f with nReadLimit := nPos } start M := by
  rw [CBufferedFile.setLimit, if_neg (not_lt.mpr hahead)]
  exact ⟨rfl, h.rewind, h.window, h.start_le, h.read_le, h.kept, h.src_le, h.ended, h.bound⟩

/-- What may be read: the file up to the limit. -/
def ahead (f : CBufferedFile) : List UInt8 := (f.src.take f.nReadLimit).drop f.nReadPos

/-- The state of a reader that has thrown nothing since it was `f`. -/
structure Reader (f : CBufferedFile) (start M : ℕ) (g : CBufferedFile) : Prop where
  same : Same f g
  holds : Holds g start M
  failbit : g.failbit = f.failbit
  limit : g.nReadPos ≤ g.nReadLimit

/-- The reader stands behind the bytes that are no longer ahead. -/
theorem Reader.position {g : CBufferedFile} {k : ℕ} (h : Reader f start M g)
    (hstart : start ≤ f.src.length) (hread : f.nReadPos ≤ f.src.length)
    (hlimit : f.nReadPos ≤ f.nReadLimit) (hahead : f.ahead.length = k+g.ahead.length) :
    g.nReadPos = f.nReadPos+k := by
  have hle := h.holds.read_le
  have hsrc := h.holds.src_le
  have hlimit' := h.limit
  rw [ahead, ahead, List.length_drop, List.length_drop, List.length_take, List.length_take,
    h.same.src, h.same.nReadLimit] at hahead
  rw [h.same.src] at hsrc
  rw [h.same.nReadLimit] at hlimit'
  omega

/-- A run leaves the file as it is and the reader no further back, whatever it comes to. -/
theorem Holds.run {α : Type} (h : Holds f start M) (p : ReadProgram UInt8 α) :
    Same f (p.run CBufferedFile.read f).2 ∧ Holds (p.run CBufferedFile.read f).2 start M ∧
      f.nReadPos ≤ (p.run CBufferedFile.read f).2.nReadPos := by
  refine ReadProgram.run_invariant (I := fun g => Same f g ∧ Holds g start M ∧
    f.nReadPos ≤ g.nReadPos) ?_ p ⟨Same.refl f, h, le_rfl⟩
  rintro n g ⟨hsame,hheld,hmove⟩
  obtain ⟨hsame',hheld',hmove',-⟩ := hheld.read n
  exact ⟨hsame.trans hsame', hheld', hmove.trans hmove'⟩

/-- The file is read like the list of its bytes, by reads that the buffer has room for. -/
theorem read_follows (f : CBufferedFile) (start M : ℕ) :
    ReadProgram.Follows CBufferedFile.read f.avail (Reader f start M) ahead := by
  constructor
  · intro n g hg hn hlen
    obtain ⟨-,-,-,hanswer⟩ := hg.holds.read n
    have hlimit := hg.limit
    rw [ahead, List.length_drop, List.length_take] at hlen
    rw [if_pos ⟨by omega, hg.same.avail ▸ hn, by omega⟩] at hanswer
    exact ⟨_, hanswer.1⟩
  · intro n g bytes hg hsome
    obtain ⟨hsame,hheld,-,hanswer⟩ := hg.holds.read n
    split_ifs at hanswer with hin
    · obtain ⟨hbytes,hbit,hpos⟩ := hanswer
      obtain ⟨hlimit,-,hsrc⟩ := hin
      refine ⟨⟨hg.same.trans hsame, hheld, hbit.trans hg.failbit, ?_⟩, ?_, ?_, ?_⟩
      · rw [hpos, hsame.nReadLimit]
        omega
      · rw [ahead, List.length_drop, List.length_take]
        omega
      · rw [hbytes] at hsome
        rw [← Option.some.inj hsome, ahead, List.drop_take, List.take_take, min_eq_left (by omega)]
      · rw [ahead, ahead, hpos, hsame.src, hsame.nReadLimit, List.drop_drop]
    · rw [hanswer] at hsome
      cases hsome

end Reading

end CBufferedFile

end Candypool.Core
