import Candypool.Core.BufferedFile
import Candypool.Core.WireFormat
import Candypool.Net.Message

/-! `LoadExternalBlockFile`: the blocks of a file are found by their message start and size, read through
the ring buffer and handed to `ProcessBlock`. -/
namespace Candypool.Chain
open Candypool.Prime Candypool.Core Candypool.Lib

/-- The buffer of the block files, and how far it goes back. -/
def blkdatSize : ℕ := 2*maxBlockSize
def blkdatRewind : ℕ := maxBlockSize+8

/-- What the blocks are handed to: `ProcessBlock` with its answer and `state.IsError`, and the number of
blocks that were taken. -/
structure Loading (σ : Type) where
  node : σ
  nLoaded : ℕ

section Defs
variable {σ : Type} (fTestNet : Bool) (processBlock : σ → ℕ → CBlock → σ × Bool × Bool)

/-- A block behind the indexed part is processed; an error ends the load. -/
def Loading.process (st : Loading σ) (nStartByte nBlockPos : ℕ) (block : CBlock) : Loading σ × Bool :=
  if nBlockPos ≥ nStartByte then
    let (node,accepted,isError) := processBlock st.node nBlockPos block
    (⟨node, if accepted then st.nLoaded+1 else st.nLoaded⟩, isError)
  else (st, false)

/-- What a search for a header comes to. -/
inductive Located
  | ended
  | again (nRewind : ℕ) (blkdat : CBufferedFile)
  | found (nRewind nSize : ℕ) (blkdat : CBufferedFile)

/-- The first `try` block: the end of the file is found by an exception. -/
def locateHeader (nRewind : ℕ) (blkdat : CBufferedFile) : Located :=
  let blkdat := (blkdat.setPos nRewind).2
  let blkdat := (blkdat.setLimit CBufferedFile.noLimit).2
  match blkdat.findByte ((Net.pchMessageStart fTestNet).headD 0) with
  | (none, _) => .ended
  | (some (), blkdat) =>
    let nRewind := blkdat.getPos+1
    match CBufferedFile.read 4 blkdat with
    | (none, _) => .ended
    | (some buf, blkdat) =>
      if buf ≠ Net.pchMessageStart fTestNet then .again nRewind blkdat
      else match CBufferedFile.read 4 blkdat with
        | (none, _) => .ended
        | (some bytes, blkdat) =>
          if littleEndian bytes < 80 ∨ littleEndian bytes > maxBlockSize then .again nRewind blkdat
          else .found nRewind (littleEndian bytes) blkdat

/-- The second `try` block: a block that cannot be read is passed over. -/
def readRecord (nStartByte nRewind nSize : ℕ) (blkdat : CBufferedFile) (st : Loading σ) :
    Loading σ × Option (ℕ × CBufferedFile) :=
  let nBlockPos := blkdat.getPos
  let blkdat := (blkdat.setLimit (nBlockPos+nSize)).2
  match Wire.readBlock.run CBufferedFile.read blkdat with
  | (none, blkdat) => (st, some (nRewind, blkdat))
  | (some block, blkdat) =>
    match st.process processBlock nStartByte nBlockPos block with
    | (st, true) => (st, none)
    | (st, false) => (st, some (blkdat.getPos, blkdat))

/-- One turn of the loop; without a next position it was the last. -/
def loadStep (nStartByte nRewind : ℕ) (blkdat : CBufferedFile) (st : Loading σ) :
    Loading σ × Option (ℕ × CBufferedFile) :=
  if blkdat.good && !blkdat.eof then
    match locateHeader fTestNet nRewind blkdat with
    | .ended => (st, none)
    | .again nRewind blkdat => (st, some (nRewind, blkdat))
    | .found nRewind nSize blkdat => readRecord processBlock nStartByte nRewind nSize blkdat st
  else (st, none)

def loadLoop (nStartByte : ℕ) : ℕ → ℕ → CBufferedFile → Loading σ → Loading σ
  | 0, _, _, st => st
  | fuel+1, nRewind, blkdat, st =>
    match loadStep fTestNet processBlock nStartByte nRewind blkdat st with
    | (st, none) => st
    | (st, some (nRewind, blkdat)) => loadLoop nStartByte fuel nRewind blkdat st

/-- The file is positioned behind what `pblocktree` has recorded of it, if that is known. -/
def openBlockFile (fileIn : List UInt8) (indexed : Option ℕ) : CBufferedFile :=
  let blkdat := CBufferedFile.ofFile fileIn blkdatSize blkdatRewind
  match indexed with
  | none => blkdat
  | some nSize => (blkdat.seek nSize).2

/-- A turn moves on by at least a byte, so that the length of the file bounds the turns. -/
def loadExternalBlockFile (fileIn : List UInt8) (indexed : Option ℕ) (node : σ) : Loading σ :=
  let blkdat := openBlockFile fileIn indexed
  loadLoop fTestNet processBlock (indexed.getD 0) (fileIn.length+1) blkdat.getPos blkdat ⟨node,0⟩

end Defs

section Contents

/-- A message start and a size that is taken for that of a block. -/
structure Header (fTestNet : Bool) (src : List UInt8) (q nSize : ℕ) : Prop where
  start : (src.drop q).take 4 = Net.pchMessageStart fTestNet
  inside : q+8 ≤ src.length
  size : littleEndian ((src.drop (q+4)).take 4) = nSize
  low : 80 ≤ nSize
  high : nSize ≤ maxBlockSize

/-- The bytes of a block, read within the size that its header gives. -/
structure Record (fTestNet : Bool) (src : List UInt8) (h : ℕ) (bytes : List UInt8) (block : CBlock) :
    Prop where
  header : ∃ nSize, Header fTestNet src h nSize ∧ bytes.length ≤ nSize
  lies : bytes <+: src.drop (h+8)
  reads : ∃ limit, Wire.readBlock.Reads limit bytes block

/-- Blocks that lie in the file one behind the other, from `p` on, with the places of their bytes. -/
inductive Found (fTestNet : Bool) (src : List UInt8) : ℕ → List (ℕ × CBlock) → Prop
  | nil (p : ℕ) : Found fTestNet src p []
  | cons {p h : ℕ} {bytes : List UInt8} {block : CBlock} {blocks : List (ℕ × CBlock)} (hp : p ≤ h)
      (hrecord : Record fTestNet src h bytes block)
      (hrest : Found fTestNet src (h+8+bytes.length) blocks) :
      Found fTestNet src p ((h+8, block) :: blocks)

/-- All that the file holds from `p` on: between the blocks nothing looks like a header. -/
inductive Stored (fTestNet : Bool) (src : List UInt8) (limit : ℕ) : ℕ → List (ℕ × CBlock) → Prop
  | nil {p : ℕ} (hgap : ∀ q n, p ≤ q → ¬Header fTestNet src q n) : Stored fTestNet src limit p []
  | cons {p h nSize : ℕ} {bytes : List UInt8} {block : CBlock} {blocks : List (ℕ × CBlock)}
      (hp : p ≤ h) (hgap : ∀ q n, p ≤ q → q < h → ¬Header fTestNet src q n)
      (hheader : Header fTestNet src h nSize) (hsize : bytes.length ≤ nSize)
      (hbytes : bytes <+: src.drop (h+8)) (hreads : Wire.readBlock.Reads limit bytes block)
      (hrest : Stored fTestNet src limit (h+8+bytes.length) blocks) :
      Stored fTestNet src limit p ((h+8, block) :: blocks)

variable {σ : Type} (processBlock : σ → ℕ → CBlock → σ × Bool × Bool)

/-- The blocks processed in order, up to an error. -/
def processAll (nStartByte : ℕ) : List (ℕ × CBlock) → Loading σ → Loading σ
  | [], st => st
  | (nBlockPos,block) :: blocks, st => match st.process processBlock nStartByte nBlockPos block with
    | (st, true) => st
    | (st, false) => processAll nStartByte blocks st

end Contents

section Locate
variable {fTestNet : Bool} {f g : CBufferedFile} {start M p q n : ℕ}

/-- The file as a part of a turn leaves it. -/
structure After (f : CBufferedFile) (start M : ℕ) (g : CBufferedFile) : Prop where
  src : g.src = f.src
  nRewind : g.nRewind = f.nRewind
  avail : g.avail = f.avail
  holds : g.Holds start M

theorem Header.first {src : List UInt8} (h : Header fTestNet src q n) :
    src[q]? = some ((Net.pchMessageStart fTestNet).headD 0) := by
  have hhead : ((src.drop q).take 4)[0]? = (Net.pchMessageStart fTestNet)[0]? := by rw [h.start]
  rw [List.getElem?_take_of_lt (by decide), List.getElem?_drop, Nat.add_zero] at hhead
  rw [hhead]
  cases fTestNet
  all_goals rfl

/-- Where the search starts: as far back as the buffer goes. -/
def searchFrom (f : CBufferedFile) (p : ℕ) : ℕ := max p (f.nSrcPos-f.nRewind)

theorem positioned (h : f.Holds start M) {M' : ℕ} (hM : f.nSrcPos ≤ M') (hlow : start ≤ p)
    (hread : p ≤ f.nSrcPos) (hlen : f.nSrcPos ≤ CBufferedFile.noLimit) :
    After f start M' ((f.setPos p).2.setLimit CBufferedFile.noLimit).2 ∧
      ((f.setPos p).2.setLimit CBufferedFile.noLimit).2.nReadPos = searchFrom f p ∧
      ((f.setPos p).2.setLimit CBufferedFile.noLimit).2.nReadLimit = CBufferedFile.noLimit ∧
      ((f.setPos p).2.setLimit CBufferedFile.noLimit).2.failbit = f.failbit := by
  obtain ⟨hsame,hheld,hpos,hsrc,hbit⟩ := h.setPos hlow hread hM
  have hahead : (f.setPos p).2.nReadPos ≤ CBufferedFile.noLimit := by omega
  obtain ⟨hset,hheld'⟩ := hheld.setLimit hahead
  rw [hset]
  exact ⟨⟨hsame.src, hsame.nRewind, hsame.avail, hheld'⟩, hpos, rfl, hbit⟩

/-- The search comes to the first header, to a place that may have looked like one, or to the end. -/
theorem locateHeader_cases (fTestNet : Bool) (h : f.Holds start M) {M' : ℕ} (hM : f.nSrcPos ≤ M') (hlow : start ≤ p)
    (hread : p ≤ f.nSrcPos) (hlen : max start f.src.length+8 ≤ CBufferedFile.noLimit)
    (havail : 4 ≤ f.avail) :
    match locateHeader fTestNet p f with
    | .ended => ∀ q n, searchFrom f p ≤ q → ¬Header fTestNet f.src q n
    | .again p' g => ∃ q, searchFrom f p ≤ q ∧ p' = q+1 ∧ q < f.src.length ∧
        (∀ q' n, searchFrom f p ≤ q' → q' ≤ q → ¬Header fTestNet f.src q' n) ∧
        After f start M' g ∧ g.failbit = f.failbit ∧ p' ≤ g.nReadPos ∧ g.nReadPos ≤ q+8
    | .found p' n g => ∃ q, searchFrom f p ≤ q ∧ p' = q+1 ∧ Header fTestNet f.src q n ∧
        (∀ q' n, searchFrom f p ≤ q' → q' < q → ¬Header fTestNet f.src q' n) ∧
        After f start M' g ∧ g.failbit = f.failbit ∧ g.nReadPos = q+8 := by
  have hsrcle := h.src_le
  obtain ⟨hafter,hpos,hlim,hbit⟩ := positioned h hM hlow hread (by omega)
  rw [locateHeader]
  dsimp only
  generalize ((f.setPos p).2.setLimit CBufferedFile.noLimit).2 = f1 at hafter hpos hlim hbit
  obtain ⟨hsame,hheld,hfind⟩ := hafter.holds.findByteLoop ((Net.pchMessageStart fTestNet).headD 0)
    (show f1.src.length < f1.src.length+1+f1.nReadPos by omega)
  rw [CBufferedFile.findByte]
  rw [hafter.src, hpos] at hfind
  rw [hafter.src] at hsame hheld ⊢
  generalize f1.findByteLoop ((Net.pchMessageStart fTestNet).headD 0) (f.src.length+1) = r2
    at hsame hheld hfind
  obtain ⟨found,f2⟩ := r2
  dsimp only at hsame hheld hfind
  -- the file ends before another first byte of a message start
  rcases hfind with ⟨q,hq,hat,hbefore,rfl,hbit2,hpos2⟩ | ⟨hnone,rfl⟩
  swap
  · exact fun q n hq hheader => hnone q hq hheader.first
  have hbefore' : ∀ q' n, searchFrom f p ≤ q' → q' < q → ¬Header fTestNet f.src q' n :=
    fun q' n hq' hlt hheader => hbefore q' hq' hlt hheader.first
  have hqlen : q < f.src.length := (List.getElem?_eq_some_iff.mp hat).1
  dsimp only
  have hsrc2 : f2.src = f.src := hsame.src.trans hafter.src
  have hlim2 : f2.nReadLimit = CBufferedFile.noLimit := hsame.nReadLimit.trans hlim
  have havail2 : f2.avail = f.avail := hsame.avail.trans hafter.avail
  have hnot : ∀ q' n, searchFrom f p ≤ q' → q' ≤ q → (q' = q → ¬Header fTestNet f.src q' n) →
      ¬Header fTestNet f.src q' n := by
    intro q' n hq' hle hsameq
    rcases Nat.eq_or_lt_of_le hle with heq | hlt
    · exact hsameq heq
    · exact hbefore' q' n hq' hlt
  -- the four bytes of the message start, which may run into the end of the file
  rcases hheld.read_or (show 0 < 4 by decide) (by omega) (by omega) with
    ⟨hin3,f3,hread3,hsame3,hheld3,hbit3,hpos3⟩ | ⟨hout,hnone⟩
  swap
  · rw [CBufferedFile.getPos]
    generalize CBufferedFile.read 4 f2 = r3 at hnone
    obtain ⟨buf,f3⟩ := r3
    obtain rfl : buf = none := hnone
    intro q' n hq' hheader
    have hinside := hheader.inside
    rw [hsrc2, hpos2] at hout
    exact hbefore' q' n hq' (by omega) hheader
  rw [hread3, CBufferedFile.getPos, hpos2]
  rw [hsrc2, hpos2] at hin3
  rw [hpos2] at hpos3
  dsimp only
  rw [hsrc2]
  have hafter3 : After f start M' f3 := ⟨hsame3.src.trans hsrc2,
    hsame3.nRewind.trans (hsame.nRewind.trans hafter.nRewind), hsame3.avail.trans havail2, hheld3⟩
  have hbit3' : f3.failbit = f.failbit := hbit3.trans (hbit2.trans hbit)
  by_cases hstart : (f.src.drop q).take 4 = Net.pchMessageStart fTestNet
  swap
  · rw [if_pos hstart]
    exact ⟨q, hq, rfl, hqlen, fun q' n hq' hle => hnot q' n hq' hle fun heq hheader =>
      hstart (heq ▸ hheader.start), hafter3, hbit3', by omega, by omega⟩
  rw [if_neg (not_not.mpr hstart)]
  have hlim3 : f3.nReadLimit = CBufferedFile.noLimit := hsame3.nReadLimit.trans hlim2
  have havail3 := hafter3.avail
  -- the four bytes of the size behind them
  rcases hheld3.read_or (show 0 < 4 by decide) (by omega) (by omega) with
    ⟨hin4,f4,hread4,hsame4,hheld4,hbit4,hpos4⟩ | ⟨hout,hnone⟩
  swap
  · generalize CBufferedFile.read 4 f3 = r4 at hnone
    obtain ⟨bytes,f4⟩ := r4
    obtain rfl : bytes = none := hnone
    intro q' n hq' hheader
    have hinside := hheader.inside
    rw [hafter3.src, hpos3] at hout
    exact hbefore' q' n hq' (by omega) hheader
  rw [hread4]
  rw [hafter3.src, hpos3] at hin4
  rw [hpos3] at hpos4
  dsimp only
  rw [hafter3.src, hpos3]
  have hafter4 : After f start M' f4 := ⟨hsame4.src.trans hafter3.src,
    hsame4.nRewind.trans hafter3.nRewind, hsame4.avail.trans hafter3.avail, hheld4⟩
  -- a size that no block has: the search goes on one byte later
  by_cases hsize : littleEndian ((f.src.drop (q+4)).take 4) < 80 ∨
      littleEndian ((f.src.drop (q+4)).take 4) > maxBlockSize
  · rw [if_pos hsize]
    refine ⟨q, hq, rfl, hqlen, fun q' n hq' hle => hnot q' n hq' hle fun heq hheader => ?_, hafter4,
      hbit4.trans hbit3', by omega, by omega⟩
    rw [heq] at hheader
    have hlow := hheader.low
    have hhigh := hheader.high
    have hn := hheader.size
    omega
  · rw [if_neg hsize]
    rw [not_or, not_lt, not_lt] at hsize
    exact ⟨q, hq, rfl, ⟨hstart, by omega, rfl, hsize.1, hsize.2⟩, hbefore', hafter4,
      hbit4.trans hbit3', by omega⟩

end Locate

section Records
variable {σ : Type} {fTestNet : Bool} {processBlock : σ → ℕ → CBlock → σ × Bool × Bool}
variable {f : CBufferedFile} {start M q n nStartByte nRewind : ℕ} {st : Loading σ}

/-- What a turn comes to when a block has been read. -/
def finishRecord (processBlock : σ → ℕ → CBlock → σ × Bool × Bool) (nStartByte nBlockPos : ℕ)
    (block : CBlock) (blkdat : CBufferedFile) (st : Loading σ) :
    Loading σ × Option (ℕ × CBufferedFile) :=
  match st.process processBlock nStartByte nBlockPos block with
  | (st, true) => (st, none)
  | (st, false) => (st, some (blkdat.nReadPos, blkdat))

/-- The limit behind the block leaves only its bytes to be read. -/
theorem limited (h : f.Holds start M) (n : ℕ) : ∃ f1, (f.setLimit (f.nReadPos+n)).2 = f1 ∧
    After f start M f1 ∧ f1.nReadPos = f.nReadPos ∧ f1.failbit = f.failbit ∧
    f1.Reader start M f1 ∧ f1.ahead = (f.src.drop f.nReadPos).take n := by
  obtain ⟨hset,hheld⟩ := h.setLimit (Nat.le_add_right f.nReadPos n)
  refine ⟨_, hset, ⟨rfl, rfl, rfl, hheld⟩, rfl, rfl,
    ⟨CBufferedFile.Same.refl _, hheld, rfl, Nat.le_add_right _ _⟩, ?_⟩
  rw [CBufferedFile.ahead, List.drop_take, Nat.add_sub_cancel_left]

theorem readRecord_eq {f1 : CBufferedFile} (hset : (f.setLimit (f.nReadPos+n)).2 = f1) :
    readRecord processBlock nStartByte nRewind n f st =
      match Wire.readBlock.run CBufferedFile.read f1 with
      | (none, blkdat) => (st, some (nRewind, blkdat))
      | (some block, blkdat) =>
        finishRecord processBlock nStartByte f.nReadPos block blkdat st := by
  rw [readRecord, CBufferedFile.getPos, hset]
  rfl

/-- The bytes of a block give the block. -/
theorem readRecord_block (processBlock : σ → ℕ → CBlock → σ × Bool × Bool)
    (nStartByte nRewind : ℕ) (st : Loading σ) (h : f.Holds start M) (hpos : f.nReadPos = q+8)
    (hheader : Header fTestNet f.src q n) {bytes : List UInt8} {block : CBlock}
    (hlen : bytes.length ≤ n) (hlies : bytes <+: f.src.drop (q+8))
    (hreads : Wire.readBlock.Reads f.avail bytes block) :
    ∃ g, After f start M g ∧ g.failbit = f.failbit ∧ g.nReadPos = q+8+bytes.length ∧
      readRecord processBlock nStartByte nRewind n f st =
        finishRecord processBlock nStartByte (q+8) block g st := by
  obtain ⟨f1,hset,hafter,hpos1,hbit1,hreader,hahead⟩ := limited h n
  have hinside := hheader.inside
  have hstart := h.start_le
  have hlimit := hreader.limit
  have hsrc := hafter.src
  obtain ⟨rest,hrest⟩ := hlies
  have hsplit : f1.ahead = bytes ++ rest.take (n-bytes.length) := by
    rw [hahead, hpos, ← hrest, List.take_append, List.take_of_length_le hlen]
  obtain ⟨hvalue,hreader',hleft⟩ := (CBufferedFile.read_follows f1 start M).run
    (hafter.avail.symm ▸ hreads) hreader hsplit
  rw [readRecord_eq hset]
  cases hrun : Wire.readBlock.run CBufferedFile.read f1 with
  | mk value g =>
    rw [hrun] at hvalue hreader' hleft
    dsimp only at hvalue hreader' hleft
    obtain rfl := hvalue
    have hlength : f1.ahead.length = bytes.length+g.ahead.length := by
      rw [hsplit, hleft, List.length_append]
    have hposition : g.nReadPos = f1.nReadPos+bytes.length :=
      hreader'.position (by rw [hsrc]; omega) (by rw [hsrc]; omega) hlimit hlength
    exact ⟨g, ⟨hreader'.same.src.trans hafter.src, hreader'.same.nRewind.trans hafter.nRewind,
      hreader'.same.avail.trans hafter.avail, hreader'.holds⟩, hreader'.failbit.trans hbit1,
      by omega, by rw [hpos]⟩

end Records

section Loop
variable {σ : Type} {fTestNet : Bool} {processBlock : σ → ℕ → CBlock → σ × Bool × Bool}
variable {src : List UInt8} {f g : CBufferedFile} {start p q nStartByte : ℕ} {st st' : Loading σ}
variable {blocks : List (ℕ × CBlock)}

/-- The file at the head of the loop, with the position that it is to be set to. -/
structure Standing (src : List UInt8) (start p : ℕ) (f : CBufferedFile) : Prop where
  src : f.src = src
  holds : ∃ M, f.Holds start M
  low : start ≤ p
  read : p ≤ f.nSrcPos
  room : 4 ≤ f.avail

theorem Standing.next {M p' : ℕ} (h : Standing src start p f) (hafter : After f start M g)
    (hlow : start ≤ p') (hread : p' ≤ g.nReadPos) : Standing src start p' g :=
  ⟨hafter.src.trans h.src, ⟨M, hafter.holds⟩, hlow, hread.trans hafter.holds.read_le,
    hafter.avail.symm ▸ h.room⟩

theorem Found.mono {p' : ℕ} (h : Found fTestNet src p' blocks) (hle : p ≤ p') :
    Found fTestNet src p blocks := by
  cases h with
  | nil => exact .nil p
  | cons hp hrecord hrest => exact .cons (hle.trans hp) hrecord hrest

theorem Stored.eq_nil {limit : ℕ} (h : Stored fTestNet src limit p blocks)
    (hnone : ∀ q n, p ≤ q → ¬Header fTestNet src q n) : blocks = [] := by
  cases h with
  | nil => rfl
  | cons hp _ hheader => exact absurd hheader (hnone _ _ hp)

theorem Stored.skip {limit p' : ℕ} (h : Stored fTestNet src limit p blocks) (hle : p ≤ p')
    (hnone : ∀ q n, p ≤ q → q < p' → ¬Header fTestNet src q n) :
    Stored fTestNet src limit p' blocks := by
  cases h with
  | nil hgap => exact .nil fun q n hq => hgap q n (hle.trans hq)
  | cons hp hgap hheader hsize hbytes hreads hrest =>
    refine .cons ?_ (fun q n hq hlt => hgap q n (hle.trans hq) hlt) hheader hsize hbytes hreads hrest
    by_contra hlt
    exact hnone _ _ hp (not_le.mp hlt) hheader

/-- The next header is that of the first block. -/
theorem Stored.first {limit n : ℕ} (h : Stored fTestNet src limit p blocks) (hp : p ≤ q)
    (hheader : Header fTestNet src q n) (hnone : ∀ q' n, p ≤ q' → q' < q → ¬Header fTestNet src q' n) :
    ∃ bytes block blocks', blocks = (q+8, block) :: blocks' ∧ bytes.length ≤ n ∧
      bytes <+: src.drop (q+8) ∧ Wire.readBlock.Reads limit bytes block ∧
      Stored fTestNet src limit (q+8+bytes.length) blocks' := by
  cases h with
  | nil hgap => exact absurd hheader (hgap q n hp)
  | @cons _ h nSize bytes block blocks' hp' hgap hheader' hsize hbytes hreads hrest =>
    obtain rfl : h = q := by
      rcases Nat.lt_trichotomy h q with hlt | heq | hlt
      · exact absurd hheader' (hnone _ _ hp' hlt)
      · exact heq
      · exact absurd hheader (hgap _ _ hp hlt)
    -- both sizes are the number behind the same message start
    have hn : nSize = n := hheader'.size.symm.trans hheader.size
    exact ⟨bytes, block, blocks', rfl, hn ▸ hsize, hbytes, hreads, hrest⟩

/-- The file at the head of the loop, read so little ahead that the next search starts where it should. -/
structure Poised (src : List UInt8) (start p : ℕ) (f : CBufferedFile) : Prop where
  standing : Standing src start p f
  failbit : f.failbit = false
  near : f.nReadPos ≤ p+7
  back : f.nSrcPos ≤ p+7+f.avail
  reach : f.avail+7 ≤ f.nRewind

theorem Poised.searchFrom (h : Poised src start p f) : searchFrom f p = p := by
  have hback := h.back
  have hreach := h.reach
  rw [Chain.searchFrom]
  omega

theorem Poised.next {p' : ℕ} (h : Poised src start p f) (hafter : After f start (p+7+f.avail) g)
    (hbit : g.failbit = f.failbit) (hlow : p ≤ p') (hread : p' ≤ g.nReadPos)
    (hnear : g.nReadPos ≤ p'+7) : Poised src start p' g := by
  have hbound := hafter.holds.bound
  have hstart := h.standing.low
  have havail := hafter.avail
  refine ⟨h.standing.next hafter (by omega) hread, hbit.trans h.failbit, hnear, by omega, ?_⟩
  rw [havail, hafter.nRewind]
  exact h.reach

/-- A file is at its end only when no header is left. -/
theorem Poised.good (h : Poised src start p f) {n : ℕ} (hq : p ≤ q)
    (hheader : Header fTestNet src q n) : (f.good && !f.eof) = true := by
  obtain ⟨M,hheld⟩ := h.standing.holds
  have hinside := hheader.inside
  have hnear := h.near
  -- at the end all of the file was read, but the bytes of the header were not
  have heof : f.eof = false := by
    by_contra hended
    rw [Bool.not_eq_false, CBufferedFile.eof, Bool.and_eq_true, decide_eq_true_eq] at hended
    have hall := hheld.ended hended.2
    rw [h.standing.src] at hall
    omega
  rw [CBufferedFile.good, h.failbit, heof]
  rfl

/-- The blocks of the file are processed, all of them and in order. -/
theorem loadLoop_stored (hlen : max start src.length+8 ≤ CBufferedFile.noLimit) {fuel limit : ℕ}
    (h : Poised src start p f) (hlimit : limit = f.avail)
    (hstored : Stored fTestNet src limit p blocks) (hfuel : src.length < fuel+p) :
    loadLoop fTestNet processBlock nStartByte fuel p f st =
      processAll processBlock nStartByte blocks st := by
  induction fuel generalizing p f st blocks with
  | zero =>
    have hnil := hstored.eq_nil fun q n hq hheader => by
      have hinside := hheader.inside
      omega
    rw [hnil]
    rfl
  | succ fuel ih =>
    obtain ⟨M,hheld⟩ := h.standing.holds
    have hlow := h.standing.low
    have hsrc := h.standing.src
    have hlocate := locateHeader_cases fTestNet hheld h.back hlow h.standing.read
      (hsrc.symm ▸ hlen) h.standing.room
    rw [hsrc, h.searchFrom] at hlocate
    rw [loadLoop, loadStep]
    by_cases hgo : (f.good && !f.eof) = true
    swap
    · rw [if_neg hgo, hstored.eq_nil fun q n hq hheader => hgo (h.good hq hheader)]
      rfl
    rw [if_pos hgo]
    cases hcase : locateHeader fTestNet p f with
    | ended =>
      rw [hcase] at hlocate
      rw [hstored.eq_nil hlocate]
      rfl
    | again p' g =>
      rw [hcase] at hlocate
      obtain ⟨q,hq,rfl,hqlen,hnone,hafter,hbit,hmove,hnear⟩ := hlocate
      have hnext := h.next hafter hbit (by omega) hmove (by omega)
      exact ih hnext (hlimit.trans hafter.avail.symm)
        (hstored.skip (by omega) fun q' n hq' hlt => hnone q' n hq' (by omega)) (by omega)
    | found p' n f1 =>
      rw [hcase] at hlocate
      obtain ⟨q,hq,rfl,hheader,hnone,hafter,hbit,hpos⟩ := hlocate
      obtain ⟨bytes,block,blocks',rfl,hsize,hbytes,hreads,hrest⟩ := hstored.first hq hheader hnone
      have hf1 : f1.src = src := hafter.src.trans hsrc
      have hinside := hheader.inside
      obtain ⟨g,hafter',hbit',hpos',hrecord⟩ := readRecord_block processBlock nStartByte (q+1) st
        hafter.holds hpos (hf1.symm ▸ hheader) hsize (hf1.symm ▸ hbytes)
        ((hlimit.trans hafter.avail.symm) ▸ hreads)
      -- the next search starts behind the block, and the buffer still reaches back to there
      have hall : After f start (p+7+f.avail) g := ⟨hafter'.src.trans hafter.src,
        hafter'.nRewind.trans hafter.nRewind, hafter'.avail.trans hafter.avail, hafter'.holds⟩
      have hnext : Poised src start (q+8+bytes.length) g :=
        h.next hall (hbit'.trans hbit) (by omega) hpos'.ge (by omega)
      dsimp only
      rw [hrecord, finishRecord, processAll]
      rcases st.process processBlock nStartByte (q+8) block with ⟨st',_ | _⟩
      · dsimp only
        rw [hpos']
        exact ih hnext (hlimit.trans hall.avail.symm) hrest (by omega)
      · rfl

end Loop

section File
variable {fTestNet : Bool} {src pre tail : List UInt8} {indexed : Option ℕ}

theorem openBlockFile_src (src : List UInt8) (indexed : Option ℕ) :
    (openBlockFile src indexed).src = src ∧ (openBlockFile src indexed).failbit = false ∧
      (openBlockFile src indexed).nSrcPos = (openBlockFile src indexed).nReadPos ∧
      (openBlockFile src indexed).nReadPos < 2^63 ∧
      (openBlockFile src indexed).feof = false ∧
      (openBlockFile src indexed).nRewind = blkdatRewind ∧
      (openBlockFile src indexed).vchBuf.length = blkdatSize := by
  have hbuf : (CBufferedFile.ofFile src blkdatSize blkdatRewind).vchBuf.length = blkdatSize :=
    List.length_replicate
  cases indexed with
  | none => exact ⟨rfl, rfl, rfl, Nat.pow_pos (by decide), rfl, rfl, hbuf⟩
  | some nSize =>
    rw [openBlockFile, CBufferedFile.seek]
    split_ifs with hlarge
    · exact ⟨rfl, rfl, rfl, Nat.pow_pos (by decide), rfl, rfl, hbuf⟩
    · exact ⟨rfl, rfl, rfl, not_le.mp hlarge, rfl, rfl, hbuf⟩

theorem openBlockFile_poised (src : List UInt8) (indexed : Option ℕ) :
    Poised src (openBlockFile src indexed).getPos (openBlockFile src indexed).getPos
        (openBlockFile src indexed) ∧
      (openBlockFile src indexed).avail = blkdatSize-blkdatRewind := by
  obtain ⟨hsrc,hbit,hpos,-,heof,hrewind,hsize⟩ := openBlockFile_src src indexed
  generalize openBlockFile src indexed = f at hsrc hbit hpos heof hrewind hsize
  have havail : f.avail = blkdatSize-blkdatRewind := by
    rw [CBufferedFile.avail, hsize, hrewind]
  have hparams : blkdatSize-blkdatRewind+7 ≤ blkdatRewind ∧ blkdatRewind < blkdatSize ∧
      4 ≤ blkdatSize-blkdatRewind := by decide
  have hheld : f.Holds f.getPos 0 := by
    refine ⟨by omega, ?_, le_rfl, hpos.ge, ?_, ?_, ?_, ?_⟩
    · intro p hlow hhigh
      rw [CBufferedFile.getPos] at hlow
      omega
    · omega
    · exact hpos.le.trans (le_max_left _ _)
    · intro hended
      rw [heof] at hended
      cases hended
    · omega
  refine ⟨⟨⟨hsrc, ⟨0, hheld⟩, le_rfl, hpos.ge, by omega⟩, hbit, ?_, ?_, by omega⟩, havail⟩
  · exact Nat.le_add_right _ _
  · rw [hpos, CBufferedFile.getPos]
    omega

/-- `CBlock::WriteToDisk`. -/
def writeRecord (fTestNet : Bool) (block : CBlock) : List UInt8 :=
  Net.pchMessageStart fTestNet ++ (numberBytes 4 block.getSerializeSize ++ Wire.writeBlock block)

/-- A file of blocks, each with what lies before it, and what follows the last. -/
def writeRecords (fTestNet : Bool) (records : List (List UInt8 × CBlock)) (tail : List UInt8) :
    List UInt8 :=
  records.flatMap (fun record => record.1 ++ writeRecord fTestNet record.2) ++ tail

/-- The blocks with their places. -/
def placed : ℕ → List (List UInt8 × CBlock) → List (ℕ × CBlock)
  | _, [] => []
  | p, (gap,block) :: records =>
    (p+gap.length+8, block) :: placed (p+gap.length+8+block.getSerializeSize) records

/-- A gap in which no message start begins, such as one of zeros. -/
def Quiet (fTestNet : Bool) (gap : List UInt8) : Prop :=
  (Net.pchMessageStart fTestNet).headD 0 ∉ gap

theorem Quiet.no_header {gap rest : List UInt8} {q n : ℕ} (h : Quiet fTestNet gap)
    (hlow : pre.length ≤ q) (hhigh : q < pre.length+gap.length) :
    ¬Header fTestNet (pre ++ (gap ++ rest)) q n := by
  intro hheader
  have hfirst := hheader.first
  rw [List.getElem?_append_right hlow, List.getElem?_append_left (by omega)] at hfirst
  exact h (List.mem_of_getElem? hfirst)

theorem writeRecord_header (pre rest : List UInt8) {block : CBlock}
    (hsize : block.getSerializeSize ≤ maxBlockSize) :
    Header fTestNet (pre ++ (writeRecord fTestNet block ++ rest)) pre.length
      block.getSerializeSize ∧
    Wire.writeBlock block <+: (pre ++ (writeRecord fTestNet block ++ rest)).drop (pre.length+8) := by
  have hstart : (Net.pchMessageStart fTestNet).length = 4 := Net.pchMessageStart_length fTestNet
  have hnumber := numberBytes_length 4 block.getSerializeSize
  have hmax : block.getSerializeSize < 256^4 := lt_of_le_of_lt hsize (by decide)
  have hdrop : (pre ++ (writeRecord fTestNet block ++ rest)).drop pre.length =
      Net.pchMessageStart fTestNet ++ (numberBytes 4 block.getSerializeSize ++
        (Wire.writeBlock block ++ rest)) := by
    rw [List.drop_left' rfl, writeRecord, List.append_assoc, List.append_assoc]
  constructor
  · refine ⟨?_, ?_, ?_, ?_, hsize⟩
    · rw [hdrop, List.take_left' hstart]
    · rw [List.length_append, List.length_append, writeRecord, List.length_append,
        List.length_append, hstart, hnumber]
      omega
    · rw [← List.drop_drop, hdrop, List.drop_left' hstart, List.take_left' hnumber,
        littleEndian_numberBytes hmax]
    · rw [CBlock.getSerializeSize]
      omega
  · rw [← List.drop_drop, hdrop, show 8 = 4+4 from rfl, ← List.drop_drop, List.drop_left' hstart,
      List.drop_left' hnumber]
    exact List.prefix_append _ _

theorem writeRecord_length {block : CBlock} :
    (writeRecord fTestNet block).length = 8+block.getSerializeSize := by
  have hstart : (Net.pchMessageStart fTestNet).length = 4 := Net.pchMessageStart_length fTestNet
  rw [writeRecord, List.length_append, List.length_append, hstart, numberBytes_length,
    Wire.writeBlock_length]
  omega

/-- A file that was written holds its blocks, and nothing else. -/
theorem stored_records {limit : ℕ} (hlimit : 32 ≤ limit) (hroom : maxBlockSize ≤ limit+80)
    {records : List (List UInt8 × CBlock)}
    (hrecords : ∀ record ∈ records, Quiet fTestNet record.1 ∧ Wire.BlockFields record.2 ∧
      record.2.getSerializeSize ≤ maxBlockSize) (htail : Quiet fTestNet tail) (pre : List UInt8) :
    Stored fTestNet (pre ++ writeRecords fTestNet records tail) limit pre.length
      (placed pre.length records) := by
  induction records generalizing pre with
  | nil =>
    refine .nil fun q n hq hheader => ?_
    have hinside := hheader.inside
    rw [writeRecords, List.flatMap_nil, List.nil_append, List.length_append] at hinside
    rw [writeRecords, List.flatMap_nil, List.nil_append, ← List.append_nil tail] at hheader
    exact htail.no_header hq (by omega) hheader
  | cons record records ih =>
    obtain ⟨gap,block⟩ := record
    obtain ⟨⟨hquiet,hfields,hsize⟩,hrest⟩ := List.forall_mem_cons.mp hrecords
    dsimp only at hquiet hfields hsize
    have hwritten : writeRecords fTestNet ((gap,block) :: records) tail =
        gap ++ (writeRecord fTestNet block ++ writeRecords fTestNet records tail) := by
      rw [writeRecords, List.flatMap_cons, List.append_assoc, List.append_assoc]
      rfl
    have hgaplen : (pre ++ gap).length = pre.length+gap.length := List.length_append
    have hblocklen : (Wire.writeBlock block).length = block.getSerializeSize :=
      Wire.writeBlock_length block
    obtain ⟨hheader,hbytes⟩ := writeRecord_header (pre ++ gap)
      (writeRecords fTestNet records tail) hsize
    have hnext := ih hrest (pre ++ gap ++ writeRecord fTestNet block)
    rw [hwritten, placed]
    rw [List.append_assoc, hgaplen] at hheader hbytes
    rw [List.append_assoc, List.append_assoc, List.length_append, hgaplen, writeRecord_length,
      ← Nat.add_assoc, ← hblocklen] at hnext
    rw [← hblocklen]
    refine .cons (Nat.le_add_right _ _) (fun q n hq hlt => hquiet.no_header hq hlt) hheader
      hblocklen.le hbytes ?_ hnext
    have hmax : maxBlockSize ≤ maxSize := by decide
    exact Wire.readBlock_reads (hfields.fits (hsize.trans hmax)) hlimit (by omega)

/-- Every block that was written is loaded from where it was written, in the order of the file. -/
theorem loadExternalBlockFile_stored {σ : Type} (fTestNet : Bool)
    (processBlock : σ → ℕ → CBlock → σ × Bool × Bool) (node : σ) (pre tail : List UInt8)
    (records : List (List UInt8 × CBlock)) (indexed : Option ℕ) (hindexed : indexed.getD 0 = pre.length)
    (hrecords : ∀ record ∈ records, Quiet fTestNet record.1 ∧ Wire.BlockFields record.2 ∧
      record.2.getSerializeSize ≤ maxBlockSize) (htail : Quiet fTestNet tail)
    (hlen : (pre ++ writeRecords fTestNet records tail).length < 2^63) :
    loadExternalBlockFile fTestNet processBlock (pre ++ writeRecords fTestNet records tail) indexed node =
      processAll processBlock pre.length (placed pre.length records) ⟨node,0⟩ := by
  have hstored := stored_records (show 32 ≤ blkdatSize-blkdatRewind by decide) (by decide) hrecords
    htail pre
  have hpre : pre.length < 2^63 := by
    rw [List.length_append] at hlen
    omega
  generalize pre ++ writeRecords fTestNet records tail = fileIn at hlen hstored
  obtain ⟨-,-,-,hstart,-⟩ := openBlockFile_src fileIn indexed
  obtain ⟨hpoised,havail⟩ := openBlockFile_poised fileIn indexed
  have hpos : (openBlockFile fileIn indexed).getPos = pre.length := by
    cases indexed with
    | none => exact hindexed
    | some nSize =>
      rw [Option.getD_some] at hindexed
      rw [openBlockFile, CBufferedFile.seek, if_neg (by omega)]
      exact hindexed
  have hbound : max (openBlockFile fileIn indexed).getPos fileIn.length+8 ≤ CBufferedFile.noLimit := by
    rw [CBufferedFile.getPos, CBufferedFile.noLimit]
    omega
  rw [loadExternalBlockFile, hindexed]
  exact loadLoop_stored hbound hpoised havail.symm (hpos.symm ▸ hstored) (by omega)

/-- A node that only keeps what it is given. -/
def keepBlocks (node : List (ℕ × CBlock)) (nBlockPos : ℕ) (block : CBlock) :
    List (ℕ × CBlock) × Bool × Bool := (node ++ [(nBlockPos,block)], true, false)

def emptyBlock : CBlock := ⟨⟨1, 0, 0, 0, 0, 0, 0⟩, []⟩

theorem emptyBlock_written : ∀ record ∈ [(([0,0] : List UInt8), emptyBlock)],
    Quiet false record.1 ∧ Wire.BlockFields record.2 ∧ record.2.getSerializeSize ≤ maxBlockSize := by
  intro record hmem
  obtain rfl := List.mem_singleton.mp hmem
  refine ⟨by rw [Quiet]; decide, ⟨?_, by decide, by decide, ?_⟩, by decide⟩
  · rw [Wire.FitsSigned]
    decide
  · intro tx htx
    exact (List.not_mem_nil htx).elim

theorem loadExternalBlockFile_stored_empty :
    loadExternalBlockFile false keepBlocks
        ([1] ++ writeRecords false [([0,0], emptyBlock)] [0]) (some 1) [] =
      processAll keepBlocks 1 (placed 1 [([0,0], emptyBlock)]) ⟨[],0⟩ :=
  loadExternalBlockFile_stored false keepBlocks [] [1] [0] [([0,0], emptyBlock)] (some 1) rfl
    emptyBlock_written (by rw [Quiet]; decide) (by
      rw [writeRecords, List.flatMap_singleton, List.length_append, List.length_append,
        List.length_append, writeRecord_length]
      decide)

example : processAll keepBlocks 1 (placed 1 [([0,0], emptyBlock)]) ⟨[],0⟩ =
    ⟨[(11, emptyBlock)], 1⟩ := rfl

end File

end Candypool.Chain
