import Candypool.Lib.Extents
import Mathlib.Tactic.Ring

/-! Where blocks and undo data go on disk: `FindBlockPos` and `FindUndoPos` with their counters, the
records of `pblocktree`, and runs of the two functions. -/
namespace Candypool.Chain
open Candypool.Lib

def maxBlockFileSize : ℕ := 0x8000000
def blockFileChunkSize : ℕ := 0x1000000
def undoFileChunkSize : ℕ := 0x100000

/-- Addition of `unsigned int`. -/
def add32 (a b : ℕ) : ℕ := (a+b) % 2^32

structure CBlockFileInfo where
  nBlocks : ℕ
  nSize : ℕ
  nUndoSize : ℕ
  nHeightFirst : ℕ
  nHeightLast : ℕ
  nTimeFirst : ℕ
  nTimeLast : ℕ
  deriving DecidableEq, Repr

def CBlockFileInfo.null : CBlockFileInfo := ⟨0,0,0,0,0,0,0⟩

def CBlockFileInfo.addBlock (info : CBlockFileInfo) (nHeightIn nTimeIn : ℕ) : CBlockFileInfo :=
  let nHeightFirst := if info.nBlocks = 0 ∨ info.nHeightFirst > nHeightIn then nHeightIn
    else info.nHeightFirst
  { info with
    nHeightFirst := nHeightFirst
    nTimeFirst := if info.nBlocks = 0 ∨ info.nTimeFirst > nTimeIn then nTimeIn else info.nTimeFirst
    nBlocks := add32 info.nBlocks 1
    nHeightLast := if nHeightIn > nHeightFirst then nHeightIn else info.nHeightLast
    nTimeLast := if nTimeIn > info.nTimeLast then nTimeIn else info.nTimeLast }

structure CDiskBlockPos where
  nFile : ℕ
  nPos : ℕ
  deriving DecidableEq, Repr

/-- The globals of the block files and the records `pblocktree` keeps of them. -/
structure BlockFiles where
  nLastBlockFile : ℕ
  infoLastBlockFile : CBlockFileInfo
  fileInfo : ℕ → Option CBlockFileInfo
  lastFile : Option ℕ

def BlockFiles.init : BlockFiles := ⟨0, .null, fun _ => none, none⟩

/-- What the disk answers during a call. -/
structure DiskOutcome where
  fDiskSpace : Bool
  fInfoWritten : Bool
  deriving DecidableEq, Repr

def BlockFiles.writeInfo (st : BlockFiles) (nFile : ℕ) (info : CBlockFileInfo) : BlockFiles :=
  { st with fileInfo := fun n => if n = nFile then some info else st.fileInfo n }

/-- `SetNull` and `ReadBlockFileInfo`, which can fail. -/
def BlockFiles.readInfo (st : BlockFiles) (nFile : ℕ) : CBlockFileInfo :=
  (st.fileInfo nFile).getD .null

/-- Whether the file has to grow by a chunk. -/
def needsChunk (nChunkSize nPos nNewSize : ℕ) : Bool :=
  decide (add32 nNewSize (nChunkSize-1)/nChunkSize > add32 nPos (nChunkSize-1)/nChunkSize)

/-- The `while` loop that leaves the files without room; it has no value when the fuel runs out. -/
def BlockFiles.leaveFullFiles (st : BlockFiles) (nAddSize : ℕ) :
    ℕ → ℕ → CBlockFileInfo → Option (ℕ × CBlockFileInfo)
  | 0, _, _ => none
  | fuel+1, nFile, info =>
    if add32 info.nSize nAddSize ≥ maxBlockFileSize then
      st.leaveFullFiles nAddSize fuel (nFile+1) (st.readInfo (nFile+1))
    else some (nFile, info)

/-- The end of `FindBlockPos`, with the file it has chosen: the counter moves on, and the position
is returned if there is room on the disk and the record is written. -/
def BlockFiles.advance (st : BlockFiles) (disk : DiskOutcome) (pos : CDiskBlockPos)
    (info : CBlockFileInfo) (nAddSize nHeight nTime : ℕ) (fKnown : Bool) :
    BlockFiles × Option CDiskBlockPos :=
  let fUpdatedLast := decide (st.nLastBlockFile ≠ pos.nFile)
  let info := { info with nSize := add32 info.nSize nAddSize }.addBlock nHeight nTime
  let st := { st with nLastBlockFile := pos.nFile, infoLastBlockFile := info }
  if !fKnown && needsChunk blockFileChunkSize pos.nPos info.nSize && !disk.fDiskSpace then (st, none)
  else if !disk.fInfoWritten then (st, none)
  else
    let st := st.writeInfo pos.nFile info
    (if fUpdatedLast then { st with lastFile := some pos.nFile } else st, some pos)

/-- `FindBlockPos`; `pos` is what a known block is found at. -/
def BlockFiles.findBlockPos (st : BlockFiles) (fuel : ℕ) (disk : DiskOutcome) (pos : CDiskBlockPos)
    (nAddSize nHeight nTime : ℕ) (fKnown : Bool) : Option (BlockFiles × Option CDiskBlockPos) :=
  if fKnown then
    let info := if st.nLastBlockFile ≠ pos.nFile then st.readInfo pos.nFile
      else st.infoLastBlockFile
    some (st.advance disk pos info nAddSize nHeight nTime true)
  else do
    let (nFile,info) ← st.leaveFullFiles nAddSize fuel st.nLastBlockFile st.infoLastBlockFile
    return st.advance disk ⟨nFile,info.nSize⟩ info nAddSize nHeight nTime false

/-- `FindUndoPos`. -/
def BlockFiles.findUndoPos (st : BlockFiles) (disk : DiskOutcome) (nFile nAddSize : ℕ) :
    BlockFiles × Option CDiskBlockPos :=
  let finish (st : BlockFiles) (nPos nNewSize : ℕ) : BlockFiles × Option CDiskBlockPos :=
    if needsChunk undoFileChunkSize nPos nNewSize && !disk.fDiskSpace then (st, none)
    else (st, some ⟨nFile,nPos⟩)
  if nFile = st.nLastBlockFile then
    let nPos := st.infoLastBlockFile.nUndoSize
    let info := { st.infoLastBlockFile with nUndoSize := add32 nPos nAddSize }
    let st := { st with infoLastBlockFile := info }
    if !disk.fInfoWritten then (st, none) else finish (st.writeInfo nFile info) nPos info.nUndoSize
  else match st.fileInfo nFile with
    | none => (st, none)
    | some info =>
      let nPos := info.nUndoSize
      let info := { info with nUndoSize := add32 nPos nAddSize }
      if !disk.fInfoWritten then (st, none)
      else finish (st.writeInfo nFile info) nPos info.nUndoSize

section Runs

/-- The calls of the two functions. A block has a header of eight bytes before it, and a known one
is found at its first byte behind the header; undo data has the header and a checksum. -/
inductive StorageCall
  | knownBlock (pos : CDiskBlockPos) (nBlockSize nHeight nTime : ℕ)
  | newBlock (nBlockSize nHeight nTime : ℕ)
  | undo (nFile nUndoSize : ℕ)

/-- The files with the ranges recorded in the `blk` and in the `rev` files. -/
structure Storage where
  files : BlockFiles
  blocks : List (Extent ℕ)
  undos : List (Extent ℕ)

def Storage.init : Storage := ⟨.init, [], []⟩

def blockExtent (pos : CDiskBlockPos) (nBlockSize : ℕ) : Extent ℕ :=
  ⟨pos.nFile, pos.nPos, nBlockSize+8⟩

/-- The range of a block that is found at `pos`. -/
def knownExtent (pos : CDiskBlockPos) (nBlockSize : ℕ) : Extent ℕ :=
  ⟨pos.nFile, pos.nPos-8, nBlockSize+8⟩

def undoExtent (pos : CDiskBlockPos) (nUndoSize : ℕ) : Extent ℕ :=
  ⟨pos.nFile, pos.nPos, nUndoSize+40⟩

/-- A call of `FindBlockPos` or `FindUndoPos` and what is recorded when it returns true. -/
def Storage.call (s : Storage) (fuel : ℕ) (disk : DiskOutcome) : StorageCall → Option Storage
  | .knownBlock pos nBlockSize nHeight nTime => do
    let (files,r) ← s.files.findBlockPos fuel disk pos (nBlockSize+8) nHeight nTime true
    return { s with
      files := files, blocks := (r.map (knownExtent · nBlockSize)).toList ++ s.blocks }
  | .newBlock nBlockSize nHeight nTime => do
    let (files,r) ← s.files.findBlockPos fuel disk ⟨0,0⟩ (nBlockSize+8) nHeight nTime false
    return { s with
      files := files, blocks := (r.map (blockExtent · nBlockSize)).toList ++ s.blocks }
  | .undo nFile nUndoSize =>
    let (files,r) := s.files.findUndoPos disk nFile (nUndoSize+40)
    some { s with files := files, undos := (r.map (undoExtent · nUndoSize)).toList ++ s.undos }

/-- A known block is where the file holds it: behind its header, apart from what is recorded. -/
def Storage.HeldAt (s : Storage) : StorageCall → Prop
  | .knownBlock pos nBlockSize _ _ =>
    8 ≤ pos.nPos ∧ ∀ e ∈ s.blocks, (knownExtent pos nBlockSize).Apart e
  | _ => True

/-- The states reached by calls that each satisfy `P`. -/
inductive StorageRun (P : Storage → StorageCall → Prop) : Storage → Prop
  | init : StorageRun P .init
  | call {s s' : Storage} {fuel : ℕ} {disk : DiskOutcome} {c : StorageCall} (h : StorageRun P s)
      (hc : P s c) (hcall : s.call fuel disk c = some s') : StorageRun P s'

/-- No two recorded ranges of a file overlap, and the counters of the current file are at or behind
the end of every range recorded in it. -/
structure Storage.Safe (s : Storage) : Prop where
  blocks : NoOverlap s.blocks
  undos : NoOverlap s.undos
  nSize : ∀ e ∈ s.blocks, e.file = s.files.nLastBlockFile → e.stop ≤ s.files.infoLastBlockFile.nSize
  nUndoSize : ∀ e ∈ s.undos, e.file = s.files.nLastBlockFile →
    e.stop ≤ s.files.infoLastBlockFile.nUndoSize

end Runs

section Counters
variable {st : BlockFiles} {disk : DiskOutcome}

/-- What a call works with for a file: the global for the current file, the record for others. -/
def BlockFiles.infoOf (st : BlockFiles) (nFile : ℕ) : CBlockFileInfo :=
  if nFile = st.nLastBlockFile then st.infoLastBlockFile else st.readInfo nFile

/-- The counter `g` of a file that survives leaving the file and coming back to it. -/
def BlockFiles.safe (st : BlockFiles) (g : CBlockFileInfo → ℕ) (nFile : ℕ) : ℕ :=
  min (g (st.infoOf nFile)) (g (st.readInfo nFile))

theorem BlockFiles.readInfo_writeInfo (st : BlockFiles) (nFile f : ℕ) (info : CBlockFileInfo) :
    (st.writeInfo nFile info).readInfo f = if f = nFile then info else st.readInfo f := by
  simp only [readInfo, writeInfo]
  split_ifs <;> rfl

/-- What `advance` does to the counters, whichever way it ends. -/
structure Advanced (st st' : BlockFiles) (nFile : ℕ) (info : CBlockFileInfo) (fWritten : Bool) :
    Prop where
  last : st'.nLastBlockFile = nFile
  memory : st'.infoLastBlockFile = info
  record : ∀ f, st'.readInfo f = if fWritten = true ∧ f = nFile then info else st.readInfo f

theorem advance_spec (st : BlockFiles) (disk : DiskOutcome) (pos : CDiskBlockPos) (info : CBlockFileInfo) (nAddSize nHeight nTime : ℕ)
    (fKnown : Bool) : ∃ info', info'.nSize = add32 info.nSize nAddSize ∧
      info'.nUndoSize = info.nUndoSize ∧
      Advanced st (st.advance disk pos info nAddSize nHeight nTime fKnown).1 pos.nFile info'
        (st.advance disk pos info nAddSize nHeight nTime fKnown).2.isSome ∧
      ∀ p, (st.advance disk pos info nAddSize nHeight nTime fKnown).2 = some p → p = pos := by
  refine ⟨{ info with nSize := add32 info.nSize nAddSize }.addBlock nHeight nTime, rfl, rfl, ?_⟩
  simp only [BlockFiles.advance]
  split_ifs with hspace hwrite hlast
  · exact ⟨⟨rfl, rfl, fun f => by simp [BlockFiles.readInfo]⟩, fun p h => absurd h (by simp)⟩
  · exact ⟨⟨rfl, rfl, fun f => by simp [BlockFiles.readInfo]⟩, fun p h => absurd h (by simp)⟩
  all_goals
    refine ⟨⟨rfl, rfl, fun f => ?_⟩, fun p h => (Option.some.inj h).symm⟩
    apply (BlockFiles.readInfo_writeInfo _ pos.nFile f _).trans
    by_cases hf : f = pos.nFile
    · rw [if_pos hf, if_pos ⟨rfl,hf⟩]
    · rw [if_neg hf, if_neg fun h => hf h.2]
      rfl

/-- What a call that moves the counters of `nFile` to those of `info` does to the counters that
survive: none goes back, and the ones of `nFile` are reached if the record was written. -/
structure Moved (st st' : BlockFiles) (nFile : ℕ) (info : CBlockFileInfo) (fWritten : Prop) :
    Prop where
  kept : ∀ g : CBlockFileInfo → ℕ, g (st.infoOf nFile) ≤ g info → ∀ f, st.safe g f ≤ st'.safe g f
  reached : fWritten → ∀ g : CBlockFileInfo → ℕ, st'.safe g nFile = g info

theorem Advanced.moved {st' : BlockFiles} {nFile : ℕ} {info : CBlockFileInfo} {fWritten : Bool}
    (h : Advanced st st' nFile info fWritten) : Moved st st' nFile info (fWritten = true) := by
  have hinfo : ∀ f, st'.infoOf f = if f = nFile then info else st'.readInfo f := by
    intro f
    rw [BlockFiles.infoOf, h.last, h.memory]
  constructor
  · intro g hg f
    rw [BlockFiles.safe, BlockFiles.safe, hinfo f, h.record f]
    by_cases hf : f = nFile
    · -- the file itself: its record is the old one when the write failed
      subst hf
      rw [if_pos rfl]
      split_ifs
      · rw [min_self]
        exact (min_le_left _ _).trans hg
      · exact min_le_min_right _ hg
    · rw [if_neg hf, if_neg fun hw => hf hw.2, min_self]
      exact min_le_right _ _
  · intro hw g
    rw [BlockFiles.safe, hinfo nFile, h.record nFile, if_pos rfl, if_pos ⟨hw,rfl⟩, min_self]

/-- A record of another file than the current one is written. -/
theorem moved_writeInfo {nFile : ℕ} (info : CBlockFileInfo) (hlast : nFile ≠ st.nLastBlockFile) :
    Moved st (st.writeInfo nFile info) nFile info True := by
  have hinfo : ∀ f, (st.writeInfo nFile info).infoOf f =
      if f = nFile then info else st.infoOf f := by
    intro f
    change (if f = st.nLastBlockFile then st.infoLastBlockFile else
      (st.writeInfo nFile info).readInfo f) = _
    rw [BlockFiles.readInfo_writeInfo, BlockFiles.infoOf]
    split_ifs with h h' <;> simp_all
  constructor
  · intro g hg f
    rw [BlockFiles.safe, BlockFiles.safe, hinfo, BlockFiles.readInfo_writeInfo]
    by_cases hf : f = nFile
    · subst hf
      rw [if_pos rfl, if_pos rfl, min_self]
      exact (min_le_left _ _).trans hg
    · rw [if_neg hf, if_neg hf]
  · intro _ g
    rw [BlockFiles.safe, hinfo, BlockFiles.readInfo_writeInfo, if_pos rfl, if_pos rfl, min_self]

/-- The file has no room for a block of `nAddSize` bytes. -/
def BlockFiles.Full (st : BlockFiles) (nAddSize nFile : ℕ) : Prop :=
  maxBlockFileSize ≤ add32 (st.infoOf nFile).nSize nAddSize

/-- The first file with room, from the current one on. -/
def BlockFiles.FirstRoom (st : BlockFiles) (nAddSize nFile : ℕ) : Prop :=
  st.nLastBlockFile ≤ nFile ∧ ¬st.Full nAddSize nFile ∧
    ∀ f, st.nLastBlockFile ≤ f → f < nFile → st.Full nAddSize f

/-- The loop stops at the first file with room and has its counters. -/
theorem leaveFullFiles_spec {nAddSize fuel nFile : ℕ} {info : CBlockFileInfo}
    (h : st.leaveFullFiles nAddSize fuel st.nLastBlockFile st.infoLastBlockFile =
      some (nFile,info)) : info = st.infoOf nFile ∧ st.FirstRoom nAddSize nFile := by
  have hloop : ∀ fuel n, st.nLastBlockFile ≤ n →
      (∀ f, st.nLastBlockFile ≤ f → f < n → st.Full nAddSize f) →
      st.leaveFullFiles nAddSize fuel n (st.infoOf n) = some (nFile,info) →
      info = st.infoOf nFile ∧ st.FirstRoom nAddSize nFile := by
    intro fuel
    induction fuel with
    | zero =>
      intro n _ _ hsome
      cases hsome
    | succ fuel ih =>
      intro n hle hfull hsome
      rw [BlockFiles.leaveFullFiles] at hsome
      split_ifs at hsome with hn
      · rw [← show st.infoOf (n+1) = st.readInfo (n+1) from if_neg (by omega)] at hsome
        apply ih (n+1) (Nat.le_succ_of_le hle) _ hsome
        intro f hf hlt
        rcases Nat.lt_succ_iff_lt_or_eq.mp hlt with hlt | rfl
        · exact hfull f hf hlt
        · exact hn
      · obtain ⟨rfl,rfl⟩ := Prod.mk.inj (Option.some.inj hsome)
        exact ⟨rfl, hle, hn, hfull⟩
  apply hloop fuel st.nLastBlockFile le_rfl fun f hf hlt => absurd hf (Nat.not_le.mpr hlt)
  rwa [show st.infoOf st.nLastBlockFile = st.infoLastBlockFile from if_pos rfl]

theorem findBlockPos_known (fuel : ℕ) (pos : CDiskBlockPos) (nAddSize nHeight nTime : ℕ) :
    st.findBlockPos fuel disk pos nAddSize nHeight nTime true =
      some (st.advance disk pos (st.infoOf pos.nFile) nAddSize nHeight nTime true) := by
  have hinfo : (if st.nLastBlockFile ≠ pos.nFile then st.readInfo pos.nFile
      else st.infoLastBlockFile) = st.infoOf pos.nFile := by
    rw [BlockFiles.infoOf]
    split_ifs with h h' <;> simp_all
  rw [BlockFiles.findBlockPos, if_pos rfl, hinfo]

theorem findBlockPos_new {fuel nAddSize nFile : ℕ} {info : CBlockFileInfo} (pos : CDiskBlockPos)
    (hloop : st.leaveFullFiles nAddSize fuel st.nLastBlockFile st.infoLastBlockFile =
      some (nFile,info)) (nHeight nTime : ℕ) :
    st.findBlockPos fuel disk pos nAddSize nHeight nTime false =
      some (st.advance disk ⟨nFile,info.nSize⟩ info nAddSize nHeight nTime false) := by
  rw [BlockFiles.findBlockPos, if_neg (by decide), hloop]
  rfl

/-- The loop ends: behind the last record the files are empty. -/
theorem leaveFullFiles_isSome {nAddSize nEnd : ℕ} (hsize : nAddSize < maxBlockFileSize)
    (hend : ∀ f, nEnd ≤ f → st.fileInfo f = none) (fuel nFile : ℕ) (info : CBlockFileInfo)
    (hfuel : nEnd+1 < nFile+fuel) (hinfo : nEnd < nFile → info = .null) (hpos : 0 < fuel) :
    (st.leaveFullFiles nAddSize fuel nFile info).isSome := by
  induction fuel generalizing nFile info with
  | zero => exact absurd hpos (lt_irrefl 0)
  | succ fuel ih =>
    rw [BlockFiles.leaveFullFiles]
    split_ifs with hfull
    · have hle : nFile ≤ nEnd := by
        apply Nat.not_lt.mp
        intro hlt
        rw [hinfo hlt, CBlockFileInfo.null, add32, Nat.zero_add,
          Nat.mod_eq_of_lt (hsize.trans (by decide))] at hfull
        omega
      apply ih (nFile+1) _ (by omega) _ (by omega)
      intro hlt
      rw [BlockFiles.readInfo, hend _ (by omega)]
      rfl
    · rfl

/-- `FindBlockPos` ends, for every block that fits into an empty file. -/
theorem findBlockPos_isSome {nAddSize nEnd : ℕ} (hsize : nAddSize < maxBlockFileSize)
    (hend : ∀ f, nEnd ≤ f → st.fileInfo f = none) (hlast : st.nLastBlockFile ≤ nEnd)
    (pos : CDiskBlockPos) (nHeight nTime : ℕ) (fKnown : Bool) :
    (st.findBlockPos (nEnd+2) disk pos nAddSize nHeight nTime fKnown).isSome := by
  cases fKnown with
  | true =>
    rw [findBlockPos_known]
    rfl
  | false =>
    have hloop := leaveFullFiles_isSome hsize hend (nEnd+2) st.nLastBlockFile st.infoLastBlockFile
      (by omega) (fun h => absurd h (Nat.not_lt.mpr hlast)) (by omega)
    obtain ⟨chosen, hchosen⟩ := Option.isSome_iff_exists.mp hloop
    rw [findBlockPos_new pos hchosen]
    rfl

end Counters

section Invariant

/-- The invariant of the runs: the counters that survive are behind everything recorded. -/
structure Storage.Inv (s : Storage) : Prop where
  blocks : NoOverlap s.blocks
  undos : NoOverlap s.undos
  blocksEnd : EndBy (s.files.safe CBlockFileInfo.nSize) s.blocks
  undosEnd : EndBy (s.files.safe CBlockFileInfo.nUndoSize) s.undos

theorem Storage.Inv.safe {s : Storage} (h : s.Inv) : s.Safe := by
  have hlast : ∀ g : CBlockFileInfo → ℕ, s.files.safe g s.files.nLastBlockFile ≤
      g s.files.infoLastBlockFile := by
    intro g
    rw [BlockFiles.safe, BlockFiles.infoOf, if_pos rfl]
    exact min_le_left _ _
  refine ⟨h.blocks, h.undos, fun e he hfile => ?_, fun e he hfile => ?_⟩
  · apply (h.blocksEnd e he).trans
    rw [hfile]
    exact hlast _
  · apply (h.undosEnd e he).trans
    rw [hfile]
    exact hlast _

/-- A range reported for the file whose counters moved, in a list of ranges bounded by one of
them. -/
theorem EndBy.moved {st st' : BlockFiles} {nFile : ℕ} {info : CBlockFileInfo}
    {r : Option CDiskBlockPos} {fWritten : Prop} (h : Moved st st' nFile info fWritten)
    {g : CBlockFileInfo → ℕ} {l : List (Extent ℕ)} {ext : CDiskBlockPos → Extent ℕ}
    (hend : EndBy (st.safe g) l) (hg : g (st.infoOf nFile) ≤ g info)
    (hr : ∀ p, r = some p → fWritten ∧ (ext p).file = nFile ∧ (ext p).stop ≤ g info) :
    EndBy (st'.safe g) ((r.map ext).toList ++ l) := by
  have hold := hend.mono fun e _ => h.kept g hg e.file
  cases r with
  | none => exact hold
  | some p =>
    obtain ⟨hw, hfile, hstop⟩ := hr p rfl
    apply hold.cons
    rw [hfile, h.reached hw]
    exact hstop

theorem noOverlap_optional {r : Option CDiskBlockPos} {ext : CDiskBlockPos → Extent ℕ}
    {l : List (Extent ℕ)} (h : NoOverlap l) (hr : ∀ p, r = some p → NoOverlap (ext p :: l)) :
    NoOverlap ((r.map ext).toList ++ l) := by
  cases r with
  | none => exact h
  | some p => exact hr p rfl

theorem safe_le_infoOf (st : BlockFiles) (g : CBlockFileInfo → ℕ) (f : ℕ) :
    st.safe g f ≤ g (st.infoOf f) := min_le_left _ _

/-- Both kinds of calls for a block: the range ends at or before the counter that is left. -/
theorem Storage.Inv.advance {s : Storage} (h : s.Inv) {disk : DiskOutcome} {pos : CDiskBlockPos}
    {nBlockSize nHeight nTime : ℕ} {fKnown : Bool} {files : BlockFiles} {r : Option CDiskBlockPos}
    (hcall : s.files.advance disk pos (s.files.infoOf pos.nFile) (nBlockSize+8) nHeight nTime
      fKnown = (files,r)) (ext : CDiskBlockPos → Extent ℕ)
    (hwrap : (s.files.infoOf pos.nFile).nSize+(nBlockSize+8) < 2^32)
    (hfile : (ext pos).file = pos.nFile)
    (hstop : (ext pos).stop ≤ (s.files.infoOf pos.nFile).nSize+(nBlockSize+8))
    (hno : NoOverlap (ext pos :: s.blocks)) :
    Storage.Inv { s with files := files, blocks := (r.map ext).toList ++ s.blocks } := by
  obtain ⟨info, hsize, hundo, hadv, hpos⟩ := advance_spec s.files disk pos
    (s.files.infoOf pos.nFile) (nBlockSize+8) nHeight nTime fKnown
  rw [add32, Nat.mod_eq_of_lt hwrap] at hsize
  rw [hcall] at hadv hpos
  have hmoved := hadv.moved
  constructor
  · apply noOverlap_optional h.blocks
    intro p hp
    rw [hpos p hp]
    exact hno
  · exact h.undos
  · apply EndBy.moved hmoved h.blocksEnd (hsize ▸ Nat.le_add_right _ _)
    intro p hp
    rw [hpos p hp, hp, hsize]
    exact ⟨rfl, hfile, hstop⟩
  · exact h.undosEnd.mono fun e _ => hmoved.kept _ hundo.ge e.file

/-- The undo data goes to the counter, which moves behind it. -/
theorem findUndoPos_spec (st : BlockFiles) (disk : DiskOutcome) (nFile nAddSize : ℕ) :
    ∃ info fWritten, info.nSize = (st.infoOf nFile).nSize ∧
      info.nUndoSize = add32 (st.infoOf nFile).nUndoSize nAddSize ∧
      (Moved st (st.findUndoPos disk nFile nAddSize).1 nFile info fWritten ∨
        (st.findUndoPos disk nFile nAddSize).1 = st ∧
          (st.findUndoPos disk nFile nAddSize).2 = none) ∧
      ∀ p, (st.findUndoPos disk nFile nAddSize).2 = some p →
        fWritten ∧ p = ⟨nFile,(st.infoOf nFile).nUndoSize⟩ := by
  set info := { st.infoOf nFile with
    nUndoSize := add32 (st.infoOf nFile).nUndoSize nAddSize } with hinfo
  refine ⟨info, disk.fInfoWritten = true, rfl, rfl, ?_⟩
  rw [BlockFiles.findUndoPos]
  by_cases hlast : nFile = st.nLastBlockFile
  · -- the global is written over, then the record of the current file
    have hof : st.infoOf nFile = st.infoLastBlockFile := if_pos hlast
    rw [if_pos hlast]
    simp only [← hof, ← hinfo]
    cases hw : disk.fInfoWritten
    · have hadv : Advanced st { st with infoLastBlockFile := info } nFile info false :=
        ⟨hlast.symm, rfl, fun f => by simp [BlockFiles.readInfo]⟩
      exact ⟨Or.inl hadv.moved, by simp⟩
    · have hadv : Advanced st ({ st with infoLastBlockFile := info }.writeInfo nFile info) nFile
          info true := by
        refine ⟨hlast.symm, rfl, fun f => ?_⟩
        rw [BlockFiles.readInfo_writeInfo]
        simp only [true_and]
        rfl
      have hmoved := hadv.moved
      simp only [Bool.not_true, Bool.false_eq_true, if_false] at hmoved ⊢
      split_ifs
      · exact ⟨Or.inl ⟨hmoved.kept, fun _ => hmoved.reached trivial⟩, by simp⟩
      · exact ⟨Or.inl ⟨hmoved.kept, fun _ => hmoved.reached trivial⟩,
          fun p hp => ⟨trivial, (Option.some.inj hp).symm⟩⟩
  · rw [if_neg hlast]
    cases hread : st.fileInfo nFile with
    | none => exact ⟨Or.inr ⟨rfl,rfl⟩, by simp⟩
    | some old =>
      have hof : st.infoOf nFile = old := by
        rw [BlockFiles.infoOf, if_neg hlast, BlockFiles.readInfo, hread]
        rfl
      have hmoved := moved_writeInfo info hlast
      simp only [← hof, ← hinfo]
      cases hw : disk.fInfoWritten
      · exact ⟨Or.inr ⟨rfl,rfl⟩, by simp⟩
      · simp only [Bool.not_true, Bool.false_eq_true, if_false]
        split_ifs
        · exact ⟨Or.inl ⟨hmoved.kept, fun _ => hmoved.reached trivial⟩, by simp⟩
        · exact ⟨Or.inl ⟨hmoved.kept, fun _ => hmoved.reached trivial⟩,
            fun p hp => ⟨trivial, (Option.some.inj hp).symm⟩⟩

theorem Storage.Inv.findUndoPos {s : Storage} (h : s.Inv) {disk : DiskOutcome}
    {nFile nUndoSize : ℕ} {files : BlockFiles} {r : Option CDiskBlockPos}
    (hcall : s.files.findUndoPos disk nFile (nUndoSize+40) = (files,r))
    (hwrap : (s.files.infoOf nFile).nUndoSize+(nUndoSize+40) < 2^32) :
    Storage.Inv
      { s with files := files, undos := (r.map (undoExtent · nUndoSize)).toList ++ s.undos } := by
  obtain ⟨info, fWritten, hsize, hundo, hmoved, hpos⟩ :=
    findUndoPos_spec s.files disk nFile (nUndoSize+40)
  rw [add32, Nat.mod_eq_of_lt hwrap] at hundo
  rw [hcall] at hmoved hpos
  rcases hmoved with hmoved | ⟨hsame, hnone⟩
  · constructor
    · exact h.blocks
    · apply noOverlap_optional h.undos
      intro p hp
      rw [(hpos p hp).2]
      exact NoOverlap.append h.undos h.undosEnd (safe_le_infoOf _ _ _)
    · exact h.blocksEnd.mono fun e _ => hmoved.kept _ hsize.ge e.file
    · apply EndBy.moved hmoved h.undosEnd (hundo ▸ Nat.le_add_right _ _)
      intro p hp
      rw [(hpos p hp).2, hundo]
      exact ⟨(hpos p hp).1, rfl, le_rfl⟩
  · obtain rfl : files = s.files := hsame
    obtain rfl : r = none := hnone
    exact h

/-- The counter the call starts from is at or behind the start of what it reports, and does not
pass the end of `unsigned int`. -/
def Storage.CounterCovers (s : Storage) : StorageCall → Prop
  | .knownBlock pos nBlockSize _ _ => pos.nPos-8 ≤ (s.files.infoOf pos.nFile).nSize ∧
      (s.files.infoOf pos.nFile).nSize+(nBlockSize+8) < 2^32
  | .newBlock nBlockSize _ _ => ∀ nFile, s.files.FirstRoom (nBlockSize+8) nFile →
      (s.files.infoOf nFile).nSize+(nBlockSize+8) < 2^32
  | .undo nFile nUndoSize => (s.files.infoOf nFile).nUndoSize+(nUndoSize+40) < 2^32

/-- One call keeps the invariant. -/
theorem Storage.Inv.call {s s' : Storage} (h : s.Inv) {fuel : ℕ} {disk : DiskOutcome}
    {c : StorageCall} (hheld : s.HeldAt c) (hcovers : s.CounterCovers c)
    (hcall : s.call fuel disk c = some s') : s'.Inv := by
  cases c with
  | knownBlock pos nBlockSize nHeight nTime =>
    obtain ⟨hpos, hapart⟩ := hheld
    obtain ⟨hcover, hwrap⟩ := hcovers
    cases hr : s.files.advance disk pos (s.files.infoOf pos.nFile) (nBlockSize+8) nHeight nTime true
      with | mk files r =>
    rw [Storage.call, findBlockPos_known, hr] at hcall
    obtain rfl := Option.some.inj hcall
    -- the known block begins within what the record counts
    have hstop : (knownExtent pos nBlockSize).stop ≤
        (s.files.infoOf pos.nFile).nSize+(nBlockSize+8) := Nat.add_le_add_right hcover _
    exact h.advance hr (knownExtent · nBlockSize) hwrap rfl hstop
      (NoOverlap.report h.blocks hapart)
  | newBlock nBlockSize nHeight nTime =>
    cases hloop : s.files.leaveFullFiles (nBlockSize+8) fuel s.files.nLastBlockFile
        s.files.infoLastBlockFile with
    | none =>
      rw [Storage.call, BlockFiles.findBlockPos, if_neg (by decide), hloop] at hcall
      cases hcall
    | some chosen =>
      obtain ⟨nFile, info⟩ := chosen
      obtain ⟨rfl, hroom⟩ := leaveFullFiles_spec hloop
      cases hr : s.files.advance disk ⟨nFile,(s.files.infoOf nFile).nSize⟩ (s.files.infoOf nFile)
        (nBlockSize+8) nHeight nTime false with | mk files r =>
      rw [Storage.call, findBlockPos_new _ hloop, hr] at hcall
      obtain rfl := Option.some.inj hcall
      -- the block begins behind everything the file holds
      have hstart := safe_le_infoOf s.files CBlockFileInfo.nSize nFile
      exact h.advance hr (blockExtent · nBlockSize) (hcovers nFile hroom) rfl le_rfl
        (NoOverlap.append h.blocks h.blocksEnd hstart)
  | undo nFile nUndoSize =>
    rw [Storage.call] at hcall
    cases hr : s.files.findUndoPos disk nFile (nUndoSize+40) with | mk files r =>
    rw [hr] at hcall
    obtain rfl := Option.some.inj hcall
    exact h.findUndoPos hr hcovers

theorem StorageRun.inv {s : Storage}
    (h : StorageRun (fun s c => s.HeldAt c ∧ s.CounterCovers c) s) : s.Inv := by
  induction h with
  | init => exact ⟨List.Pairwise.nil, List.Pairwise.nil, endBy_nil _, endBy_nil _⟩
  | call _ hc hcall ih => exact ih.call hc.1 hc.2 hcall

/-- While the counters cover what is reported, nothing overlaps and nothing recorded is behind
the counters of the current file. -/
theorem storage_safe_of_counterCovers (s : Storage)
    (h : StorageRun (fun s c => s.HeldAt c ∧ s.CounterCovers c) s) : s.Safe := h.inv.safe


set_option maxRecDepth 2000 in
/-- A block at the start of a file is reported, another one appended and its undo data written. -/
theorem storage_safe_of_counterCovers_append : ∃ s : Storage,
    (s.blocks = [⟨0,208,308⟩, ⟨0,0,208⟩] ∧ s.undos = [⟨0,0,140⟩]) ∧ s.Safe := by
  have hnew : ∀ (st : BlockFiles) (f : ℕ), st.nLastBlockFile = 0 → st.infoLastBlockFile.nSize = 208 →
      st.FirstRoom 308 f → (st.infoOf f).nSize+308 < 2^32 := by
    intro st f hlast hsize hroom
    have hf : f = st.nLastBlockFile := by
      apply Nat.le_antisymm _ hroom.1
      apply Nat.not_lt.mp
      intro hlt
      have hfull := hroom.2.2 _ le_rfl hlt
      rw [BlockFiles.Full, BlockFiles.infoOf, if_pos rfl, hsize] at hfull
      exact absurd hfull (by decide)
    rw [BlockFiles.infoOf, if_pos hf, hsize]
    decide
  have hfirst : StorageRun (fun s c => s.HeldAt c ∧ s.CounterCovers c) _ :=
    .call (c := .knownBlock ⟨0,8⟩ 200 0 0) .init
      ⟨⟨by decide, fun _ h => absurd h List.not_mem_nil⟩, by decide, by decide⟩
      (rfl : Storage.init.call 1 ⟨true,true⟩ _ = some _)
  have hsecond : StorageRun (fun s c => s.HeldAt c ∧ s.CounterCovers c) _ :=
    .call (c := .newBlock 300 1 1) hfirst ⟨trivial, fun f => hnew _ f rfl rfl⟩
      (rfl : Storage.call _ 1 ⟨true,true⟩ _ = some _)
  have hthird : StorageRun (fun s c => s.HeldAt c ∧ s.CounterCovers c) _ :=
    .call (c := .undo 0 100) hsecond ⟨trivial, show 0+140 < 2^32 by decide⟩
      (rfl : Storage.call _ 1 ⟨true,true⟩ _ = some _)
  exact ⟨_, ⟨rfl,rfl⟩, storage_safe_of_counterCovers _ hthird⟩

/-- A block is reported behind a skipped one, and the next block is put over it. -/
theorem storage_overlaps_after_skipped_block :
    ¬∀ s : Storage, StorageRun Storage.HeldAt s → NoOverlap s.blocks := by
  intro hall
  have hfirst : StorageRun Storage.HeldAt _ :=
    .call (c := .knownBlock ⟨0,216⟩ 200 1 1) .init
      ⟨by decide, fun _ h => absurd h List.not_mem_nil⟩
      (rfl : Storage.init.call 1 ⟨true,true⟩ _ = some _)
  have hsecond : StorageRun Storage.HeldAt _ :=
    .call (c := .newBlock 200 2 2) hfirst trivial
      (rfl : Storage.call _ 1 ⟨true,true⟩ _ = some _)
  have hsame : NoOverlap [(⟨0,208,208⟩ : Extent ℕ), ⟨0,208,208⟩] := hall _ hsecond
  have hapart := List.rel_of_pairwise_cons hsame (List.mem_singleton_self _) rfl
  revert hapart
  decide

end Invariant

end Candypool.Chain
