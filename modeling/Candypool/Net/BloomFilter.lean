import Candypool.Core.PartialMerkleTree
import Candypool.Script.Solver

/-! Bloom filters of the peers. A modulo by zero, or an access out of range, ends a call without a
result. -/
namespace Candypool.Net
open Candypool.Core Candypool.Script Candypool.Prime

def maxBloomFilterSize : ℕ := 36000
def maxHashFuncs : ℕ := 50
def bloomUpdateNone : UInt8 := 0
def bloomUpdateAll : UInt8 := 1
def bloomUpdateP2PubKeyOnly : UInt8 := 2
def bloomUpdateMask : UInt8 := 3

section Murmur

def rotl32 (x : UInt32) (r : UInt32) : UInt32 := (x <<< r) ||| (x >>> (32-r))

def murmurMix (k1 : UInt32) : UInt32 := rotl32 (k1*0xcc9e2d51) 15*0x1b873593

/-- The blocks of four bytes, and the tail. -/
def murmurBody : UInt32 → List UInt8 → UInt32
  | h1, b0 :: b1 :: b2 :: b3 :: data =>
    let k1 := UInt32.ofNat (littleEndian [b0,b1,b2,b3])
    murmurBody (rotl32 (h1 ^^^ murmurMix k1) 13*5+0xe6546b64) data
  | h1, [] => h1
  | h1, tail => h1 ^^^ murmurMix (UInt32.ofNat (littleEndian tail))

/-- `MurmurHash3`, x86_32. -/
def murmurHash3 (nHashSeed : UInt32) (vDataToHash : List UInt8) : UInt32 :=
  let h1 := murmurBody nHashSeed vDataToHash
  let h1 := h1 ^^^ UInt32.ofNat vDataToHash.length
  let h1 := (h1 ^^^ (h1 >>> 16))*0x85ebca6b
  let h1 := (h1 ^^^ (h1 >>> 13))*0xc2b2ae35
  h1 ^^^ (h1 >>> 16)

end Murmur

section Bits

def bitMask : List UInt8 := [0x01,0x02,0x04,0x08,0x10,0x20,0x40,0x80]

def testBit (vData : List UInt8) (nIndex : ℕ) : Option Bool := do
  let byte ← vData[nIndex >>> 3]?
  let mask ← bitMask[7 &&& nIndex]?
  return byte &&& mask != 0

def setBit (vData : List UInt8) (nIndex : ℕ) : Option (List UInt8) := do
  let byte ← vData[nIndex >>> 3]?
  let mask ← bitMask[7 &&& nIndex]?
  return vData.set (nIndex >>> 3) (byte ||| mask)

theorem bitMask_place : ∀ k < 8, ∃ mask, bitMask[k]? = some mask ∧ mask ≠ 0 := by decide

theorem or_and_ne_zero {a b c : UInt8} (h : a &&& c ≠ 0 ∨ b &&& c ≠ 0) : (a ||| b) &&& c ≠ 0 := by
  intro hzero
  have hnat := congrArg UInt8.toNat hzero
  rw [UInt8.toNat_and, UInt8.toNat_or, Nat.and_or_distrib_right] at hnat
  obtain ⟨ha,hb⟩ := Nat.or_eq_zero_iff.mp hnat
  rcases h with h | h
  · exact h (UInt8.toNat_inj.mp (by rw [UInt8.toNat_and]; exact ha))
  · exact h (UInt8.toNat_inj.mp (by rw [UInt8.toNat_and]; exact hb))

variable {vData vData' : List UInt8} {nIndex : ℕ}

/-- An index inside the data names a byte and a mask. -/
theorem bit_place (h : nIndex < vData.length*8) :
    ∃ byte mask, vData[nIndex >>> 3]? = some byte ∧ bitMask[7 &&& nIndex]? = some mask ∧ mask ≠ 0 := by
  have hbyte : nIndex >>> 3 < vData.length := by
    rw [Nat.shiftRight_eq_div_pow]
    omega
  have hbit : 7 &&& nIndex < 8 := by
    rw [Nat.and_comm]
    exact Nat.and_lt_two_pow (n := 3) nIndex (by decide)
  obtain ⟨mask,hmask,hne⟩ := bitMask_place _ hbit
  exact ⟨_, mask, List.getElem?_eq_getElem hbyte, hmask, hne⟩

theorem testBit_isSome (h : nIndex < vData.length*8) : ∃ bit, testBit vData nIndex = some bit := by
  obtain ⟨byte,mask,hbyte,hmask,-⟩ := bit_place h
  rw [testBit, hbyte, hmask]
  exact ⟨_, rfl⟩

theorem setBit_isSome (h : nIndex < vData.length*8) : ∃ vData', setBit vData nIndex = some vData' := by
  obtain ⟨byte,mask,hbyte,hmask,-⟩ := bit_place h
  rw [setBit, hbyte, hmask]
  exact ⟨_, rfl⟩

theorem setBit_length (h : setBit vData nIndex = some vData') : vData'.length = vData.length := by
  rw [setBit] at h
  obtain ⟨byte,-,h⟩ := Option.bind_eq_some_iff.mp h
  obtain ⟨mask,-,h⟩ := Option.bind_eq_some_iff.mp h
  rw [← Option.some.inj h, List.length_set]

/-- The bit is set afterwards, and no bit is cleared. -/
theorem testBit_setBit (h : setBit vData nIndex = some vData') (j : ℕ)
    (hj : j = nIndex ∨ testBit vData j = some true) : testBit vData' j = some true := by
  rw [setBit] at h
  obtain ⟨byte,hbyte,h⟩ := Option.bind_eq_some_iff.mp h
  obtain ⟨mask,hmask,h⟩ := Option.bind_eq_some_iff.mp h
  obtain rfl := Option.some.inj h
  obtain ⟨hlt,-⟩ := List.getElem?_eq_some_iff.mp hbyte
  have hself : (vData.set (nIndex >>> 3) (byte ||| mask))[nIndex >>> 3]? = some (byte ||| mask) := by
    rw [List.getElem?_set_self hlt]
  -- the bit itself is set by the mask; an earlier bit stays, in this byte or in another
  rcases hj with rfl | hj
  · have hj : j < vData.length*8 := by
      rw [Nat.shiftRight_eq_div_pow] at hlt
      omega
    obtain ⟨-,mask',-,hmask',hne⟩ := bit_place hj
    obtain rfl := Option.some.inj (hmask.symm.trans hmask')
    rw [testBit, hself, hmask]
    have hbit : (byte ||| mask) &&& mask ≠ 0 := or_and_ne_zero (Or.inr (by rwa [UInt8.and_self]))
    exact congrArg some (bne_iff_ne.mpr hbit)
  · rw [testBit] at hj
    obtain ⟨byteJ,hbyteJ,hj⟩ := Option.bind_eq_some_iff.mp hj
    obtain ⟨maskJ,hmaskJ,hj⟩ := Option.bind_eq_some_iff.mp hj
    have hneJ : byteJ &&& maskJ ≠ 0 := bne_iff_ne.mp (Option.some.inj hj)
    rw [testBit, hmaskJ]
    by_cases hsame : j >>> 3 = nIndex >>> 3
    · rw [hsame] at hbyteJ ⊢
      obtain rfl := Option.some.inj (hbyte.symm.trans hbyteJ)
      rw [hself]
      exact congrArg some (bne_iff_ne.mpr (or_and_ne_zero (Or.inl hneJ)))
    · rw [List.getElem?_set_ne (Ne.symm hsame), hbyteJ]
      exact congrArg some (bne_iff_ne.mpr hneJ)

end Bits

structure CBloomFilter where
  vData : List UInt8
  isFull : Bool
  isEmpty : Bool
  nHashFuncs : UInt32
  nTweak : UInt32
  nFlags : UInt8
  deriving DecidableEq

namespace CBloomFilter

/-- `Hash`; without data there is nothing to take the remainder by. -/
def hash (filter : CBloomFilter) (nHashNum : ℕ) (vDataToHash : List UInt8) : Option ℕ :=
  if filter.vData.length*8 = 0 then none
  else some ((murmurHash3 (UInt32.ofNat nHashNum*0xFBA4C795+filter.nTweak) vDataToHash).toNat %
    (filter.vData.length*8))

def insertLoop (filter : CBloomFilter) (vKey : List UInt8) : List ℕ → List UInt8 → Option (List UInt8)
  | [], vData => some vData
  | i :: rest, vData => do
    let nIndex ← filter.hash i vKey
    let vData ← setBit vData nIndex
    insertLoop filter vKey rest vData

def insert (filter : CBloomFilter) (vKey : List UInt8) : Option CBloomFilter :=
  if filter.isFull then some filter
  else do
    let vData ← filter.insertLoop vKey (List.range filter.nHashFuncs.toNat) filter.vData
    return { filter with vData := vData, isEmpty := false }

def containsLoop (filter : CBloomFilter) (vKey : List UInt8) : List ℕ → Option Bool
  | [] => some true
  | i :: rest => do
    let nIndex ← filter.hash i vKey
    let bit ← testBit filter.vData nIndex
    if !bit then some false else containsLoop filter vKey rest

def contains (filter : CBloomFilter) (vKey : List UInt8) : Option Bool :=
  if filter.isFull then some true
  else if filter.isEmpty then some false
  else filter.containsLoop vKey (List.range filter.nHashFuncs.toNat)

/-- The bytes of an outpoint, as they are hashed. -/
def serializeOutPoint (outpoint : COutPoint) : List UInt8 :=
  serializeUint256 outpoint.hash ++ numberBytes 4 outpoint.n

def isWithinSizeConstraints (filter : CBloomFilter) : Bool :=
  filter.vData.length ≤ maxBloomFilterSize ∧ filter.nHashFuncs.toNat ≤ maxHashFuncs

def updateEmptyFull (filter : CBloomFilter) : CBloomFilter :=
  { filter with
    isFull := filter.vData.all (· = 0xff)
    isEmpty := filter.vData.all (· = 0) }

/-- The scan of a script for an element that the filter contains; every instruction takes a byte. -/
def findElement (filter : CBloomFilter) : ℕ → CScript → Option Bool
  | 0, _ => some false
  | fuel+1, pc =>
    match getOp pc with
    | none => some false
    | some (_,data,pc) => do
      let found ← if data.length ≠ 0 then filter.contains data else some false
      if found then some true else findElement filter fuel pc

/-- What a matched output adds to the filter. -/
def insertMatched (filter : CBloomFilter) (hash : Uint256) (i : ℕ) (scriptPubKey : CScript) :
    Option CBloomFilter :=
  if filter.nFlags &&& bloomUpdateMask = bloomUpdateAll then
    filter.insert (serializeOutPoint ⟨hash,i⟩)
  else if filter.nFlags &&& bloomUpdateMask = bloomUpdateP2PubKeyOnly then
    match solver scriptPubKey with
    | (true,.pubkey,_) | (true,.multisig,_) => filter.insert (serializeOutPoint ⟨hash,i⟩)
    | _ => some filter
  else some filter

def scanOutputs (hash : Uint256) : List CTxOut → ℕ → Bool → CBloomFilter → Option (Bool × CBloomFilter)
  | [], _, fFound, filter => some (fFound,filter)
  | txout :: vout, i, fFound, filter => do
    let found ← filter.findElement txout.scriptPubKey.length txout.scriptPubKey
    let filter ← (if found then filter.insertMatched hash i txout.scriptPubKey else some filter)
    scanOutputs hash vout (i+1) (fFound || found) filter

def scanInputs (filter : CBloomFilter) : List CTxIn → Option Bool
  | [] => some false
  | txin :: vin => do
    let spends ← filter.contains (serializeOutPoint txin.prevout)
    if spends then return true
    let found ← filter.findElement txin.scriptSig.length txin.scriptSig
    if found then some true else scanInputs filter vin

def isRelevantAndUpdate (filter : CBloomFilter) (tx : CTransaction) (hash : Uint256) :
    Option (Bool × CBloomFilter) :=
  if filter.isFull then some (true,filter)
  else if filter.isEmpty then some (false,filter)
  else do
    let fFound ← filter.contains (serializeUint256 hash)
    let (fFound,filter) ← scanOutputs hash tx.vout 0 fFound filter
    if fFound then return (true,filter)
    let fFound ← filter.scanInputs tx.vin
    return (fFound,filter)

section Growth

/-- A filter that is not full has data, so that its hash has something to take the remainder by. -/
def Ok (filter : CBloomFilter) : Prop := filter.isFull = false → filter.vData ≠ []

/-- The second filter has the bits of the first one, and perhaps more. -/
structure Grows (f g : CBloomFilter) : Prop where
  length : g.vData.length = f.vData.length
  bits : ∀ i, testBit f.vData i = some true → testBit g.vData i = some true
  isFull : g.isFull = f.isFull
  isEmpty : f.isEmpty = false → g.isEmpty = false
  nHashFuncs : g.nHashFuncs = f.nHashFuncs
  nTweak : g.nTweak = f.nTweak
  nFlags : g.nFlags = f.nFlags

variable {f g k : CBloomFilter} {vKey : List UInt8}

theorem Grows.refl (f : CBloomFilter) : Grows f f := ⟨rfl, fun _ h => h, rfl, fun h => h, rfl, rfl, rfl⟩

theorem Grows.trans (hfg : Grows f g) (hgk : Grows g k) : Grows f k where
  length := hgk.length.trans hfg.length
  bits i h := hgk.bits i (hfg.bits i h)
  isFull := hgk.isFull.trans hfg.isFull
  isEmpty h := hgk.isEmpty (hfg.isEmpty h)
  nHashFuncs := hgk.nHashFuncs.trans hfg.nHashFuncs
  nTweak := hgk.nTweak.trans hfg.nTweak
  nFlags := hgk.nFlags.trans hfg.nFlags

theorem Grows.ok (h : Grows f g) (hf : f.Ok) : g.Ok := by
  intro hfull
  rw [h.isFull] at hfull
  rw [← List.length_pos_iff, h.length, List.length_pos_iff]
  exact hf hfull

theorem Grows.hash (h : Grows f g) (i : ℕ) (vKey : List UInt8) : g.hash i vKey = f.hash i vKey := by
  rw [CBloomFilter.hash, CBloomFilter.hash, h.length, h.nTweak]

theorem Ok.hash (hf : f.Ok) (hfull : f.isFull = false) (i : ℕ) (vKey : List UInt8) :
    ∃ nIndex, f.hash i vKey = some nIndex ∧ nIndex < f.vData.length*8 := by
  have hpos := List.length_pos_iff.mpr (hf hfull)
  rw [CBloomFilter.hash, if_neg (by omega)]
  exact ⟨_, rfl, Nat.mod_lt _ (by omega)⟩

/-- The bits of a key. -/
def HasBits (f : CBloomFilter) (vKey : List UInt8) (rest : List ℕ) : Prop :=
  ∀ i ∈ rest, ∃ nIndex, f.hash i vKey = some nIndex ∧ testBit f.vData nIndex = some true

theorem Ok.containsLoop (hf : f.Ok) (hfull : f.isFull = false) (vKey : List UInt8) (rest : List ℕ) :
    ∃ found, f.containsLoop vKey rest = some found ∧ (found = true ↔ f.HasBits vKey rest) := by
  induction rest with
  | nil => exact ⟨true, rfl, by simp [HasBits]⟩
  | cons i rest ih =>
    obtain ⟨nIndex,hhash,hlt⟩ := hf.hash hfull i vKey
    obtain ⟨bit,hbit⟩ := testBit_isSome hlt
    obtain ⟨found,hloop,hiff⟩ := ih
    rw [CBloomFilter.containsLoop, hhash, Option.bind_eq_bind, Option.bind_some, hbit, Option.bind_eq_bind,
      Option.bind_some]
    -- the loop stops at the first bit that is not set
    cases bit with
    | false =>
      refine ⟨false, rfl, iff_of_false Bool.false_ne_true fun hbits => ?_⟩
      obtain ⟨nIndex',hhash',hbit'⟩ := hbits i List.mem_cons_self
      obtain rfl := Option.some.inj (hhash.symm.trans hhash')
      rw [hbit] at hbit'
      cases hbit'
    | true =>
      refine ⟨found, hloop, hiff.trans ?_⟩
      rw [HasBits, HasBits, List.forall_mem_cons]
      exact ⟨fun h => ⟨⟨nIndex, hhash, hbit⟩, h⟩, fun h => h.2⟩

/-- What a filter contains. -/
theorem Ok.contains (hf : f.Ok) (vKey : List UInt8) :
    ∃ found, f.contains vKey = some found ∧ (found = true ↔ f.isFull = true ∨
      (f.isEmpty = false ∧ f.HasBits vKey (List.range f.nHashFuncs.toNat))) := by
  rw [CBloomFilter.contains]
  split_ifs with hfull hempty
  · exact ⟨true, rfl, iff_of_true rfl (Or.inl hfull)⟩
  · refine ⟨false, rfl, iff_of_false Bool.false_ne_true ?_⟩
    rintro (h | ⟨h,-⟩)
    · exact hfull h
    · rw [h] at hempty
      cases hempty
  · have hnot := Bool.eq_false_of_not_eq_true hfull
    obtain ⟨found,hloop,hiff⟩ := hf.containsLoop hnot vKey (List.range f.nHashFuncs.toNat)
    refine ⟨found, hloop, hiff.trans ⟨fun h => Or.inr ⟨Bool.eq_false_of_not_eq_true hempty, h⟩, ?_⟩⟩
    rintro (h | ⟨-,h⟩)
    · exact absurd h hfull
    · exact h

/-- A key once contained stays contained. -/
theorem Grows.contains (h : Grows f g) (hf : f.Ok) (hin : f.contains vKey = some true) :
    g.contains vKey = some true := by
  obtain ⟨found,heq,hiff⟩ := hf.contains vKey
  obtain rfl := Option.some.inj (heq.symm.trans hin)
  obtain ⟨found',heq',hiff'⟩ := (h.ok hf).contains vKey
  rw [heq', Option.some_inj, hiff', h.isFull, h.nHashFuncs]
  refine (hiff.mp rfl).imp id fun ⟨hempty,hbits⟩ => ⟨h.isEmpty hempty, fun i hi => ?_⟩
  obtain ⟨nIndex,hhash,hbit⟩ := hbits i hi
  exact ⟨nIndex, (h.hash i vKey).trans hhash, h.bits nIndex hbit⟩

theorem Ok.insertLoop (hf : f.Ok) (hfull : f.isFull = false) (vKey : List UInt8) (rest : List ℕ)
    {vData : List UInt8} (hlen : vData.length = f.vData.length) :
    ∃ vData', f.insertLoop vKey rest vData = some vData' ∧ vData'.length = f.vData.length ∧
      (∀ i, testBit vData i = some true → testBit vData' i = some true) ∧
      ∀ i ∈ rest, ∃ nIndex, f.hash i vKey = some nIndex ∧ testBit vData' nIndex = some true := by
  induction rest generalizing vData with
  | nil => exact ⟨vData, rfl, hlen, fun _ h => h, by simp⟩
  | cons i rest ih =>
    obtain ⟨nIndex,hhash,hlt⟩ := hf.hash hfull i vKey
    have hplace : nIndex < vData.length*8 := hlen ▸ hlt
    obtain ⟨vNext,hset⟩ := setBit_isSome hplace
    obtain ⟨vData',hloop,hlen',hbits,hall⟩ := ih ((setBit_length hset).trans hlen)
    refine ⟨vData', ?_, hlen', fun j hj => hbits j (testBit_setBit hset j (Or.inr hj)), ?_⟩
    · rw [CBloomFilter.insertLoop, hhash, Option.bind_eq_bind, Option.bind_some, hset,
        Option.bind_eq_bind, Option.bind_some, hloop]
    · rw [List.forall_mem_cons]
      exact ⟨⟨nIndex, hhash, hbits nIndex (testBit_setBit hset nIndex (Or.inl rfl))⟩, hall⟩

/-- An inserted key is contained, and nothing is lost. -/
theorem Ok.insert (hf : f.Ok) (vKey : List UInt8) :
    ∃ g, f.insert vKey = some g ∧ Grows f g ∧ g.contains vKey = some true := by
  rw [CBloomFilter.insert]
  -- a full filter contains everything and is left as it is
  split_ifs with hfull
  · refine ⟨f, rfl, Grows.refl f, ?_⟩
    rw [CBloomFilter.contains, if_pos hfull]
  · have hnot := Bool.eq_false_of_not_eq_true hfull
    obtain ⟨vData',hloop,hlen,hbits,hall⟩ :=
      hf.insertLoop hnot vKey (List.range f.nHashFuncs.toNat) rfl
    let g : CBloomFilter := { f with vData := vData', isEmpty := false }
    have hgrows : Grows f g := ⟨hlen, hbits, rfl, fun _ => rfl, rfl, rfl, rfl⟩
    refine ⟨g, ?_, hgrows, ?_⟩
    · rw [hloop]
      rfl
    -- the bits asked for are the bits set, at the same indexes
    · obtain ⟨found,heq,hiff⟩ := (hgrows.ok hf).contains vKey
      rw [heq, Option.some_inj, hiff]
      refine Or.inr ⟨rfl, fun i hi => ?_⟩
      obtain ⟨nIndex,hhash,hbit⟩ := hall i hi
      exact ⟨nIndex, (hgrows.hash i vKey).trans hhash, hbit⟩

/-- Three keys in three bytes. -/
example :
    (do
      let filter ← insert ⟨[0,0,0], false, false, 5, 0, bloomUpdateAll⟩
        [0x99,0x10,0x8a,0xd8,0xed,0x9b,0xb6,0x27,0x4d,0x39,0x80,0xba,0xb5,0xa8,0x5c,0x04,0x8f,0x09,0x50,0xc8]
      let filter ← filter.insert
        [0xb5,0xa2,0xc7,0x86,0xd9,0xef,0x46,0x58,0x28,0x7c,0xed,0x59,0x14,0xb3,0x7a,0x1b,0x4a,0xa3,0x2e,0xee]
      let filter ← filter.insert
        [0xb9,0x30,0x06,0x70,0xb4,0xc5,0x36,0x6e,0x95,0xb2,0x69,0x9e,0x8b,0x18,0xbc,0x75,0xe5,0xf7,0x29,0xc5]
      return filter.vData) = some [0x61,0x4e,0x9b] := by decide +kernel

end Growth

section Relevant
variable {f g : CBloomFilter}

/-- The data of the instructions of a script, up to one that cannot be read. -/
def scriptElements : ℕ → CScript → List Valtype
  | 0, _ => []
  | fuel+1, pc =>
    match getOp pc with
    | none => []
    | some (_,data,pc) => data :: scriptElements fuel pc

theorem Ok.findElement (hf : f.Ok) (fuel : ℕ) (pc : CScript) :
    ∃ found, f.findElement fuel pc = some found ∧ (found = true ↔
      ∃ data ∈ scriptElements fuel pc, data ≠ [] ∧ f.contains data = some true) := by
  induction fuel generalizing pc with
  | zero => exact ⟨false, rfl, by simp [scriptElements]⟩
  | succ fuel ih =>
    rw [CBloomFilter.findElement, scriptElements]
    cases getOp pc with
    | none => exact ⟨false, rfl, by simp⟩
    | some instr =>
      obtain ⟨opcode,data,pc⟩ := instr
      obtain ⟨rest,hrest,hiff⟩ := ih pc
      obtain ⟨inside,hinside,-⟩ := hf.contains data
      simp only [List.exists_mem_cons_iff, ← hiff, hinside, Option.some_inj]
      -- an empty element is never looked up
      by_cases hdata : data = []
      · refine ⟨rest, ?_, by simp [hdata]⟩
        rw [if_neg (by simp [hdata])]
        exact hrest
      · rw [if_pos (fun hlen => hdata (List.length_eq_zero_iff.mp hlen))]
        cases inside with
        | true => exact ⟨true, rfl, by simp [hdata]⟩
        | false => exact ⟨rest, hrest, by simp⟩

theorem Ok.insertMatched (hf : f.Ok) (hash : Uint256) (i : ℕ) (scriptPubKey : CScript) :
    ∃ g, f.insertMatched hash i scriptPubKey = some g ∧ Grows f g ∧
      (f.nFlags &&& bloomUpdateMask = bloomUpdateAll →
        g.contains (serializeOutPoint ⟨hash,i⟩) = some true) := by
  obtain ⟨g,hinsert,hgrows,hin⟩ := hf.insert (serializeOutPoint ⟨hash,i⟩)
  rw [CBloomFilter.insertMatched]
  split_ifs with hall hpubkey
  · exact ⟨g, hinsert, hgrows, fun _ => hin⟩
  · split
    · exact ⟨g, hinsert, hgrows, fun h => absurd h hall⟩
    · exact ⟨g, hinsert, hgrows, fun h => absurd h hall⟩
    · exact ⟨f, rfl, Grows.refl f, fun h => absurd h hall⟩
  · exact ⟨f, rfl, Grows.refl f, fun h => absurd h hall⟩

/-- One output: what its scan finds, and the filter after it. -/
theorem Ok.scanOutput (hf : f.Ok) (hash : Uint256) (i : ℕ) (txout : CTxOut) :
    ∃ found g, f.findElement txout.scriptPubKey.length txout.scriptPubKey = some found ∧
      (if found then f.insertMatched hash i txout.scriptPubKey else some f) = some g ∧ Grows f g ∧
      (found = true → f.nFlags &&& bloomUpdateMask = bloomUpdateAll →
        g.contains (serializeOutPoint ⟨hash,i⟩) = some true) := by
  obtain ⟨found,hfound,-⟩ := hf.findElement txout.scriptPubKey.length txout.scriptPubKey
  obtain ⟨g,hinsert,hgrows,hin⟩ := hf.insertMatched hash i txout.scriptPubKey
  cases found with
  | true => exact ⟨true, g, hfound, hinsert, hgrows, fun _ => hin⟩
  | false => exact ⟨false, f, hfound, rfl, Grows.refl f, fun h => absurd h Bool.false_ne_true⟩

theorem scanOutputs_cons {hash : Uint256} {i : ℕ} {txout : CTxOut} {found : Bool}
    (hfound : f.findElement txout.scriptPubKey.length txout.scriptPubKey = some found)
    (hg : (if found then f.insertMatched hash i txout.scriptPubKey else some f) = some g)
    (vout : List CTxOut) (fFound : Bool) : scanOutputs hash (txout :: vout) i fFound f =
      scanOutputs hash vout (i+1) (fFound || found) g := by
  rw [scanOutputs, hfound, Option.bind_eq_bind, Option.bind_some, hg, Option.bind_eq_bind,
    Option.bind_some]

theorem Ok.scanOutputs (hf : f.Ok) (hash : Uint256) (vout : List CTxOut) (i : ℕ) (fFound : Bool) :
    ∃ found g, CBloomFilter.scanOutputs hash vout i false f = some (found,g) ∧
      CBloomFilter.scanOutputs hash vout i fFound f = some (fFound || found,g) ∧ Grows f g := by
  induction vout generalizing f i fFound with
  | nil => exact ⟨false, f, rfl, by rw [Bool.or_false]; rfl, Grows.refl f⟩
  | cons txout vout ih =>
    obtain ⟨found,g,hfound,hg,hgrows,-⟩ := hf.scanOutput hash i txout
    obtain ⟨rest,k,hplain,hrest,hgrows'⟩ := ih (hgrows.ok hf) (i+1) (fFound || found)
    obtain ⟨rest',k',hplain',hrest',-⟩ := ih (hgrows.ok hf) (i+1) found
    obtain ⟨rfl,rfl⟩ := Prod.mk.inj (Option.some.inj (hplain.symm.trans hplain'))
    refine ⟨found || rest, k, ?_, ?_, hgrows.trans hgrows'⟩
    · rw [scanOutputs_cons hfound hg, Bool.false_or, hrest']
    · rw [scanOutputs_cons hfound hg, hrest, Bool.or_assoc]

theorem Ok.scanInputs (hf : f.Ok) (vin : List CTxIn) :
    ∃ found, f.scanInputs vin = some found ∧
      (∀ txin ∈ vin, f.contains (serializeOutPoint txin.prevout) = some true → found = true) := by
  induction vin with
  | nil => exact ⟨false, rfl, by simp⟩
  | cons txin vin ih =>
    obtain ⟨spends,hspends,-⟩ := hf.contains (serializeOutPoint txin.prevout)
    obtain ⟨found,hfound,-⟩ := hf.findElement txin.scriptSig.length txin.scriptSig
    obtain ⟨rest,hrest,hin⟩ := ih
    rw [CBloomFilter.scanInputs, hspends, Option.bind_eq_bind, Option.bind_some]
    cases spends with
    | true => exact ⟨true, rfl, fun _ _ _ => rfl⟩
    | false =>
      simp only [Bool.false_eq_true, if_false, hfound, Option.bind_some]
      cases found with
      | true => exact ⟨true, rfl, fun _ _ _ => rfl⟩
      | false =>
        refine ⟨rest, hrest, ?_⟩
        rw [List.forall_mem_cons]
        refine ⟨fun h => ?_, hin⟩
        -- this input is not in the filter
        rw [hspends] at h
        cases h

/-- The call has a result, and the filter only grows. A spent outpoint that the filter contains makes
the transaction relevant. -/
theorem Ok.isRelevantAndUpdate (hf : f.Ok) (tx : CTransaction) (hash : Uint256) :
    ∃ relevant g, f.isRelevantAndUpdate tx hash = some (relevant,g) ∧ Grows f g ∧
      ∀ txin ∈ tx.vin, f.contains (serializeOutPoint txin.prevout) = some true → relevant = true := by
  rw [CBloomFilter.isRelevantAndUpdate]
  split_ifs with hfull hempty
  · exact ⟨true, f, rfl, Grows.refl f, fun _ _ _ => rfl⟩
  · refine ⟨false, f, rfl, Grows.refl f, fun txin _ h => ?_⟩
    -- an empty filter contains no outpoint
    rw [CBloomFilter.contains, if_neg hfull, if_pos hempty] at h
    cases h
  · obtain ⟨fFound,hin,-⟩ := hf.contains (serializeUint256 hash)
    obtain ⟨found,g,-,hscan,hgrows⟩ := hf.scanOutputs hash tx.vout 0 fFound
    obtain ⟨spent,hspent,hspends⟩ := (hgrows.ok hf).scanInputs tx.vin
    rw [hin, Option.bind_eq_bind, Option.bind_some, hscan, Option.bind_eq_bind, Option.bind_some]
    -- once something matched the inputs are not looked at; else they are, in the grown filter
    by_cases hany : (fFound || found) = true
    · simp only [if_pos hany]
      exact ⟨true, g, rfl, hgrows, fun _ _ _ => rfl⟩
    · simp only [if_neg hany, hspent]
      exact ⟨spent, g, rfl, hgrows, fun txin htxin h => hspends txin htxin (hgrows.contains hf h)⟩

/-- When its turn comes, an output has an element that the filter contains. -/
def MatchedOutput (f : CBloomFilter) (tx : CTransaction) (hash : Uint256) (n : ℕ) : Prop :=
  ∃ txout found g, tx.vout[n]? = some txout ∧
    CBloomFilter.scanOutputs hash (tx.vout.take n) 0 false f = some (found,g) ∧
    ∃ data ∈ scriptElements txout.scriptPubKey.length txout.scriptPubKey,
      data ≠ [] ∧ g.contains data = some true

/-- It is enough that the filter contained the element before. -/
theorem matchedOutput_of_contains (hf : f.Ok) {tx : CTransaction} {hash : Uint256} {n : ℕ}
    {txout : CTxOut} (hout : tx.vout[n]? = some txout) {data : Valtype}
    (hdata : data ∈ scriptElements txout.scriptPubKey.length txout.scriptPubKey) (hne : data ≠ [])
    (hin : f.contains data = some true) : f.MatchedOutput tx hash n := by
  obtain ⟨found,g,hscan,-,hgrows⟩ := hf.scanOutputs hash (tx.vout.take n) 0 false
  exact ⟨txout, found, g, hout, hscan, data, hdata, hne, hgrows.contains hf hin⟩

theorem scanOutputs_append (hf : f.Ok) (hash : Uint256) (before vout : List CTxOut) (i : ℕ)
    {found : Bool} (hscan : CBloomFilter.scanOutputs hash before i false f = some (found,g)) :
    CBloomFilter.scanOutputs hash (before ++ vout) i false f =
      CBloomFilter.scanOutputs hash vout (i+before.length) found g := by
  -- the scan may start anywhere and with either answer, which the induction needs
  have hany (before : List CTxOut) : ∀ (i : ℕ) (fFound : Bool) (f : CBloomFilter), f.Ok →
      CBloomFilter.scanOutputs hash before i fFound f = some (found,g) →
      CBloomFilter.scanOutputs hash (before ++ vout) i fFound f =
        CBloomFilter.scanOutputs hash vout (i+before.length) found g := by
    induction before with
    | nil =>
      intro i fFound f _ h
      obtain ⟨rfl,rfl⟩ := Prod.mk.inj (Option.some.inj h)
      rfl
    | cons txout before ih =>
      intro i fFound f hf h
      obtain ⟨here,k,hfound,hk,hgrows,-⟩ := hf.scanOutput hash i txout
      rw [scanOutputs_cons hfound hk] at h
      rw [List.cons_append, scanOutputs_cons hfound hk, ih _ _ _ (hgrows.ok hf) h, List.length_cons,
        show i+(before.length+1) = i+1+before.length by omega]
  exact hany before i false f hf hscan

/-- An empty filter finds nothing. -/
theorem scanOutputs_empty (hf : f.Ok) (hfull : f.isFull = false) (hempty : f.isEmpty = true)
    (hash : Uint256) (vout : List CTxOut) (i : ℕ) :
    CBloomFilter.scanOutputs hash vout i false f = some (false,f) := by
  induction vout generalizing i with
  | nil => rfl
  | cons txout vout ih =>
    obtain ⟨found,hfound,hiff⟩ := hf.findElement txout.scriptPubKey.length txout.scriptPubKey
    have hnot : found = false := by
      refine Bool.eq_false_of_not_eq_true fun htrue => ?_
      obtain ⟨data,-,-,hin⟩ := hiff.mp htrue
      simp [CBloomFilter.contains, hfull, hempty] at hin
    subst hnot
    rw [scanOutputs_cons hfound (g := f) rfl]
    exact ih (i+1)

/-- A matched output is in the filter afterwards. -/
theorem matchedOutput_contained (hf : f.Ok) {tx : CTransaction} {hash : Uint256} {n : ℕ}
    (hall : f.nFlags &&& bloomUpdateMask = bloomUpdateAll) (h : f.MatchedOutput tx hash n)
    {relevant : Bool} (hg : f.isRelevantAndUpdate tx hash = some (relevant,g)) :
    g.contains (serializeOutPoint ⟨hash,n⟩) = some true := by
  obtain ⟨txout,found,k,hout,hscan,data,hdata,hne,hin⟩ := h
  obtain ⟨found',k',hscan',-,hgrowsK⟩ := hf.scanOutputs hash (tx.vout.take n) 0 false
  obtain ⟨rfl,rfl⟩ := Prod.mk.inj (Option.some.inj (hscan.symm.trans hscan'))
  rw [CBloomFilter.isRelevantAndUpdate] at hg
  split_ifs at hg with hfull hempty
  · obtain ⟨-,rfl⟩ := Prod.mk.inj (Option.some.inj hg)
    rw [CBloomFilter.contains, if_pos hfull]
  · have hnot := Bool.eq_false_of_not_eq_true hfull
    rw [scanOutputs_empty hf hnot hempty] at hscan
    obtain ⟨-,rfl⟩ := Prod.mk.inj (Option.some.inj hscan)
    simp [CBloomFilter.contains, hnot, hempty] at hin
  · obtain ⟨hlt,hget⟩ := List.getElem?_eq_some_iff.mp hout
    have hsplit : tx.vout = tx.vout.take n ++ txout :: tx.vout.drop (n+1) := by
      rw [← hget, ← List.drop_eq_getElem_cons hlt, List.take_append_drop]
    have hlen : (tx.vout.take n).length = n := by
      rw [List.length_take]
      omega
    -- the turn of the output
    obtain ⟨here,m,hhere,hm,hgrowsM,hinM⟩ := (hgrowsK.ok hf).scanOutput hash n txout
    have htrue : here = true := by
      obtain ⟨here',hhere',hiff⟩ := (hgrowsK.ok hf).findElement txout.scriptPubKey.length
        txout.scriptPubKey
      obtain rfl := Option.some.inj (hhere.symm.trans hhere')
      exact hiff.mpr ⟨data, hdata, hne, hin⟩
    have hinside := hinM htrue (by rw [hgrowsK.nFlags]; exact hall)
    -- and the others after it
    obtain ⟨fFound,hin0,-⟩ := hf.contains (serializeUint256 hash)
    obtain ⟨any,last,hplain,hwhole,-⟩ := hf.scanOutputs hash tx.vout 0 fFound
    obtain ⟨rest,last',-,hrest,hgrowsLast⟩ :=
      (hgrowsM.ok (hgrowsK.ok hf)).scanOutputs hash (tx.vout.drop (n+1)) (n+1) (found || here)
    have hlast : last = last' := by
      rw [hsplit, scanOutputs_append hf hash _ _ 0 hscan, hlen, Nat.zero_add,
        scanOutputs_cons hhere hm, hrest] at hplain
      exact (Prod.mk.inj (Option.some.inj hplain)).2.symm
    have hg' : g = last := by
      rw [hin0, Option.bind_eq_bind, Option.bind_some, hwhole, Option.bind_eq_bind,
        Option.bind_some] at hg
      by_cases hany : (fFound || any) = true
      · simp only [if_pos hany] at hg
        exact (Prod.mk.inj (Option.some.inj hg)).2.symm
      · simp only [if_neg hany] at hg
        obtain ⟨spent,-,hg⟩ := Option.bind_eq_some_iff.mp hg
        exact (Prod.mk.inj (Option.some.inj hg)).2.symm
    rw [hg', hlast]
    exact hgrowsLast.contains (hgrowsM.ok (hgrowsK.ok hf)) hinside

end Relevant

end CBloomFilter

end Candypool.Net
