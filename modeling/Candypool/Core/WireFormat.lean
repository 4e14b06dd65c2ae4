import Candypool.Core.Block
import Candypool.Core.Serialize
import Candypool.Lib.ReadProgram
import Candypool.Script.SignMagnitude

/-! Transactions and blocks in the wire format. Reading is a program of reads, so that the same
functions read a network buffer and a block file. -/
namespace Candypool.Core.Wire
open Candypool.Prime Candypool.Lib Candypool.Script

abbrev ByteReader (α : Type) := ReadProgram UInt8 α

section Numbers

def readNumber (size : ℕ) : ByteReader ℕ := .read size fun bytes => .done (littleEndian bytes)

/-- The bytes of a signed number of `size` bytes. -/
def writeSigned (size : ℕ) (v : ℤ) : List UInt8 := numberBytes size (v % 256^size).toNat

def signedOf (size n : ℕ) : ℤ := if 2*n < 256^size then n else (n : ℤ)-256^size

def readSigned (size : ℕ) : ByteReader ℤ := do
  let n ← readNumber size
  return signedOf size n

def readUint256 : ByteReader Uint256 := do
  let n ← readNumber 32
  return BitVec.ofNat 256 n

/-- The size behind its first byte. -/
def readSizeAfter (chSize : ℕ) : ByteReader ℕ :=
  if chSize < 253 then .done chSize
  else if chSize = 253 then readNumber 2
  else if chSize = 254 then readNumber 4
  else readNumber 8

/-- `ReadCompactSize`. -/
def readCompactSize : ByteReader ℕ := do
  let chSize ← readNumber 1
  let nSizeRet ← readSizeAfter chSize
  if nSizeRet > maxSize then .throw else .done nSizeRet

/-- The bytes of a vector come in blocks, so that a bogus size claims little memory. -/
def readBlocks : ℕ → ℕ → ByteReader (List UInt8)
  | 0, _ => .done []
  | fuel+1, nSize =>
    if nSize = 0 then .done []
    else
      let blk := min nSize 5000000
      .read blk fun bytes => do
        let rest ← readBlocks fuel (nSize-blk)
        return bytes ++ rest

def writeBytes (v : List UInt8) : List UInt8 := writeCompactSize v.length ++ v

def readBytes : ByteReader (List UInt8) := do
  let nSize ← readCompactSize
  readBlocks (nSize/5000000+1) nSize

def readItems {α : Type} (read : ByteReader α) : ℕ → ByteReader (List α)
  | 0 => .done []
  | n+1 => do
    let item ← read
    let items ← readItems read n
    return item :: items

def readVector {α : Type} (read : ByteReader α) : ByteReader (List α) := do
  let nSize ← readCompactSize
  readItems read nSize

end Numbers

section Formats

/-- `FLATDATA` of the hash and the index. -/
def writeOutPoint (outpoint : COutPoint) : List UInt8 :=
  numberBytes 32 outpoint.hash.toNat ++ numberBytes 4 outpoint.n

def readOutPoint : ByteReader COutPoint := .read 36 fun bytes =>
  .done ⟨BitVec.ofNat 256 (littleEndian (bytes.take 32)), littleEndian (bytes.drop 32)⟩

def writeTxIn (txin : CTxIn) : List UInt8 :=
  writeOutPoint txin.prevout ++ (writeBytes txin.scriptSig ++ numberBytes 4 txin.nSequence)

def readTxIn : ByteReader CTxIn := do
  let prevout ← readOutPoint
  let scriptSig ← readBytes
  let nSequence ← readNumber 4
  return ⟨prevout, scriptSig, nSequence⟩

def writeTxOut (txout : CTxOut) : List UInt8 :=
  writeSigned 8 txout.nValue ++ writeBytes txout.scriptPubKey

def readTxOut : ByteReader CTxOut := do
  let nValue ← readSigned 8
  let scriptPubKey ← readBytes
  return ⟨nValue, scriptPubKey⟩

def writeTransaction (tx : CTransaction) : List UInt8 :=
  writeSigned 4 tx.nVersion ++ (serializeVector writeTxIn tx.vin ++
    (serializeVector writeTxOut tx.vout ++ numberBytes 4 tx.nLockTime))

def readTransaction : ByteReader CTransaction := do
  let nVersion ← readSigned 4
  let vin ← readVector readTxIn
  let vout ← readVector readTxOut
  let nLockTime ← readNumber 4
  return ⟨nVersion, vin, vout, nLockTime⟩

/-- `CBigNum::Serialize`: the bytes of `getvch` as a vector. -/
def writeBigNum (bn : CBigNum) : List UInt8 := writeBytes (bnGetvch bn)

def readBigNum : ByteReader CBigNum := do
  let vch ← readBytes
  return setvch vch

def writeBlockHeader (header : CBlockHeader) : List UInt8 :=
  writeSigned 4 header.nVersion ++ (serializeUint256 header.hashPrevBlock ++
    (serializeUint256 header.hashMerkleRoot ++ (numberBytes 4 header.nTime ++
      (numberBytes 4 header.nBits.toNat ++ (numberBytes 4 header.nNonce ++
        writeBigNum header.bnPrimeChainMultiplier)))))

def readBlockHeader : ByteReader CBlockHeader := do
  let nVersion ← readSigned 4
  let hashPrevBlock ← readUint256
  let hashMerkleRoot ← readUint256
  let nTime ← readNumber 4
  let nBits ← readNumber 4
  let nNonce ← readNumber 4
  let bnPrimeChainMultiplier ← readBigNum
  return ⟨nVersion, hashPrevBlock, hashMerkleRoot, nTime, BitVec.ofNat 32 nBits, nNonce,
    bnPrimeChainMultiplier⟩

def writeBlock (block : CBlock) : List UInt8 :=
  writeBlockHeader block.toCBlockHeader ++ serializeVector writeTransaction block.vtx

def readBlock : ByteReader CBlock := do
  let header ← readBlockHeader
  let vtx ← readVector readTransaction
  return { header with vtx := vtx }

end Formats

section Fits

/-- What the types of the fields hold, and vectors that `ReadCompactSize` lets through. -/
def FitsSigned (size : ℕ) (v : ℤ) : Prop := -256^size ≤ 2*v ∧ 2*v < 256^size

structure TxInFits (txin : CTxIn) : Prop where
  n : txin.prevout.n < 2^32
  scriptSig : txin.scriptSig.length ≤ maxSize
  nSequence : txin.nSequence < 2^32

structure TxOutFits (txout : CTxOut) : Prop where
  nValue : FitsSigned 8 txout.nValue
  scriptPubKey : txout.scriptPubKey.length ≤ maxSize

structure TxFits (tx : CTransaction) : Prop where
  nVersion : FitsSigned 4 tx.nVersion
  vin_length : tx.vin.length ≤ maxSize
  vin : ∀ txin ∈ tx.vin, TxInFits txin
  vout_length : tx.vout.length ≤ maxSize
  vout : ∀ txout ∈ tx.vout, TxOutFits txout
  nLockTime : tx.nLockTime < 2^32

structure HeaderFits (header : CBlockHeader) : Prop where
  nVersion : FitsSigned 4 header.nVersion
  nTime : header.nTime < 2^32
  nNonce : header.nNonce < 2^32
  multiplier : (bnGetvch header.bnPrimeChainMultiplier).length ≤ maxSize

structure BlockFits (block : CBlock) : Prop where
  header : HeaderFits block.toCBlockHeader
  vtx_length : block.vtx.length ≤ maxSize
  vtx : ∀ tx ∈ block.vtx, TxFits tx

end Fits

section NumberFormats

theorem readNumber_format (size : ℕ) :
    ReadProgram.Format (readNumber size) (numberBytes size) (· < 256^size) := by
  constructor
  · intro v hv limit hlimit
    have hlen := numberBytes_length size v
    refine ⟨by omega, hlen.ge, ?_⟩
    rw [List.take_of_length_le hlen.le, List.drop_of_length_le hlen.le]
    exact ⟨rfl, littleEndian_numberBytes hv⟩
  · rintro limit bytes v ⟨-,hlen,hnil,rfl⟩
    have hsize : bytes.length = size := by
      have hdrop := List.drop_eq_nil_iff.mp hnil
      omega
    rw [List.take_of_length_le hsize.le, numberBytes_length]
    exact ⟨hsize ▸ littleEndian_lt bytes, hsize.ge⟩

theorem signedOf_emod {size : ℕ} {v : ℤ} (h : FitsSigned size v) :
    signedOf size (v % 256^size).toNat = v := by
  obtain ⟨hlow,hhigh⟩ := h
  have hpos : (0 : ℤ) < 256^size := by positivity
  have hnat : (((v % 256^size).toNat : ℕ) : ℤ) = v % 256^size :=
    Int.toNat_of_nonneg (Int.emod_nonneg v hpos.ne')
  rw [signedOf]
  by_cases hv : 0 ≤ v
  · rw [Int.emod_eq_of_lt hv (by omega)] at hnat ⊢
    rw [if_pos (by zify; omega), hnat]
  · have hmod : v % 256^size = v+256^size := by
      rw [← Int.add_emod_right, Int.emod_eq_of_lt (by omega) (by omega)]
    rw [hmod] at hnat ⊢
    rw [if_neg (by zify; omega), hnat]
    ring

theorem signedOf_fits {size n : ℕ} (h : n < 256^size) : FitsSigned size (signedOf size n) := by
  have hcast : (n : ℤ) < 256^size := by exact_mod_cast h
  rw [signedOf, FitsSigned]
  split_ifs with hhalf
  · have hcast' : 2*(n : ℤ) < 256^size := by exact_mod_cast hhalf
    constructor <;> omega
  · have hcast' : 256^size ≤ 2*(n : ℤ) := by exact_mod_cast not_lt.mp hhalf
    constructor <;> omega

theorem readSigned_format (size : ℕ) :
    ReadProgram.Format (readSigned size) (writeSigned size) (FitsSigned size) := by
  have hnumber := readNumber_format size
  constructor
  · intro v hv limit hlimit
    have hpos : (0 : ℤ) < 256^size := by positivity
    have hlt : (v % 256^size).toNat < 256^size := by
      have hmod := Int.emod_lt_of_pos v hpos
      zify
      rw [Int.toNat_of_nonneg (Int.emod_nonneg v hpos.ne')]
      exact hmod
    exact (hnumber.reads _ hlt limit hlimit).map (signedOf_emod hv)
  · intro limit bytes v h
    obtain ⟨n,hread,rfl⟩ := h.of_map
    obtain ⟨hn,hlen⟩ := hnumber.accepts _ _ _ hread
    refine ⟨signedOf_fits hn, ?_⟩
    rw [writeSigned, numberBytes_length]
    rwa [numberBytes_length] at hlen

theorem readUint256_format :
    ReadProgram.Format readUint256 serializeUint256 fun _ => True := by
  have hnumber := readNumber_format 32
  constructor
  · intro hash _ limit hlimit
    have hlt : hash.toNat < 256^32 := lt_of_lt_of_eq hash.isLt (by norm_num)
    have hback : BitVec.ofNat 256 hash.toNat = hash := by
      rw [BitVec.ofNat_toNat, BitVec.setWidth_eq]
    exact (hnumber.reads _ hlt limit hlimit).map hback
  · intro limit bytes hash h
    obtain ⟨n,hread,rfl⟩ := h.of_map
    obtain ⟨-,hlen⟩ := hnumber.accepts _ _ _ hread
    refine ⟨trivial, ?_⟩
    rw [serializeUint256, numberBytes_length]
    rwa [numberBytes_length] at hlen

end NumberFormats

section SizeFormats
variable {limit : ℕ}

/-- The range check that ends `ReadCompactSize`. -/
theorem reads_checked {read : ByteReader ℕ} {bytes : List UInt8} {n : ℕ}
    (h : read.Reads limit bytes n) (hn : n ≤ maxSize) :
    (read.bind fun nSizeRet => if nSizeRet > maxSize then .throw else .done nSizeRet).Reads limit
      bytes n := by
  have hchecked : ReadProgram.Reads limit
      (if n > maxSize then .throw else .done n : ByteReader ℕ) [] n := by
    rw [if_neg (not_lt.mpr hn)]
    exact ⟨rfl, rfl⟩
  have hreads := h.bind (f := fun nSizeRet => if nSizeRet > maxSize then .throw else .done nSizeRet)
    hchecked
  rwa [List.append_nil] at hreads

theorem readCompactSize_format :
    ReadProgram.Format readCompactSize writeCompactSize (· ≤ maxSize) := by
  constructor
  · intro n hn limit hlimit
    have hmax : n ≤ 0x02000000 := hn
    rw [writeCompactSize] at hlimit ⊢
    split_ifs at hlimit ⊢ with hone htwo hfour
    · have hfirst := (readNumber_format 1).reads n (by omega) limit hlimit
      rw [← List.append_nil (numberBytes 1 n)]
      refine hfirst.bind (reads_checked ?_ hn)
      rw [readSizeAfter, if_pos hone]
      exact ⟨rfl, rfl⟩
    · rw [List.length_append] at hlimit
      refine ((readNumber_format 1).reads 253 (by norm_num) limit (by omega)).bind
        (reads_checked ?_ hn)
      exact (readNumber_format 2).reads n (by omega) limit (by omega)
    · rw [List.length_append] at hlimit
      refine ((readNumber_format 1).reads 254 (by norm_num) limit (by omega)).bind
        (reads_checked ?_ hn)
      exact (readNumber_format 4).reads n (by omega) limit (by omega)
    · omega
  · intro limit bytes n h
    obtain ⟨first,chSize,rest,rfl,hfirst,hrest⟩ := h.split
    obtain ⟨hch,hlen⟩ := (readNumber_format 1).accepts _ _ _ hfirst
    rw [numberBytes_length] at hlen
    obtain ⟨second,nSizeRet,last,rfl,hsecond,hlast⟩ := hrest.split
    by_cases hmax : nSizeRet > maxSize
    · rw [if_pos hmax] at hlast
      exact hlast.elim
    rw [if_neg hmax] at hlast
    obtain ⟨rfl,rfl⟩ := hlast
    refine ⟨not_lt.mp hmax, ?_⟩
    rw [writeCompactSize_length, getSizeOfCompactSize, List.append_nil, List.length_append]
    rw [readSizeAfter] at hsecond
    -- what follows the first byte is as long as the size it announces
    split_ifs at hsecond with hone htwo hfour
    · obtain ⟨rfl,rfl⟩ := hsecond
      rw [if_pos hone]
      omega
    · obtain ⟨hn,hlen'⟩ := (readNumber_format 2).accepts _ _ _ hsecond
      rw [numberBytes_length] at hlen'
      split_ifs <;> omega
    · obtain ⟨hn,hlen'⟩ := (readNumber_format 4).accepts _ _ _ hsecond
      rw [numberBytes_length] at hlen'
      split_ifs <;> omega
    · obtain ⟨-,hlen'⟩ := (readNumber_format 8).accepts _ _ _ hsecond
      rw [numberBytes_length] at hlen'
      split_ifs <;> omega

theorem getSizeOfCompactSize_mono {n m : ℕ} (h : n ≤ m) :
    getSizeOfCompactSize n ≤ getSizeOfCompactSize m := by
  rw [getSizeOfCompactSize, getSizeOfCompactSize]
  split_ifs <;> omega

theorem readBlocks_reads {fuel nSize : ℕ} (hfuel : nSize ≤ 5000000*fuel) {bytes : List UInt8}
    (hlen : bytes.length = nSize) (hlimit : nSize ≤ limit) :
    (readBlocks fuel nSize).Reads limit bytes bytes := by
  induction fuel generalizing nSize bytes with
  | zero =>
    have hnil : bytes = [] := List.length_eq_zero_iff.mp (by omega)
    exact ⟨hnil, hnil.symm⟩
  | succ fuel ih =>
    rw [readBlocks]
    by_cases hzero : nSize = 0
    · have hnil : bytes = [] := List.length_eq_zero_iff.mp (hlen.trans hzero)
      rw [if_pos hzero]
      exact ⟨hnil, hnil.symm⟩
    rw [if_neg hzero]
    have hblk : min nSize 5000000 ≤ nSize := min_le_left _ _
    have hrest : (readBlocks fuel (nSize-min nSize 5000000)).Reads limit
        (bytes.drop (min nSize 5000000)) (bytes.drop (min nSize 5000000)) :=
      ih (by omega) (by rw [List.length_drop, hlen]) (by omega)
    exact ⟨hblk.trans hlimit, by omega, hrest.map (List.take_append_drop _ _)⟩

theorem readBlocks_eq {fuel nSize : ℕ} (hfuel : nSize ≤ 5000000*fuel) {bytes v : List UInt8}
    (h : (readBlocks fuel nSize).Reads limit bytes v) : v = bytes ∧ v.length = nSize := by
  induction fuel generalizing nSize bytes v with
  | zero =>
    obtain ⟨rfl,rfl⟩ := h
    refine ⟨rfl, ?_⟩
    rw [List.length_nil]
    omega
  | succ fuel ih =>
    rw [readBlocks] at h
    by_cases hzero : nSize = 0
    · rw [if_pos hzero] at h
      obtain ⟨rfl,rfl⟩ := h
      exact ⟨rfl, hzero.symm⟩
    rw [if_neg hzero] at h
    obtain ⟨-,hlen,hnext⟩ := h
    obtain ⟨v',hread,rfl⟩ := hnext.of_map
    obtain ⟨rfl,hlen'⟩ := ih (by omega) hread
    rw [List.take_append_drop]
    rw [List.length_drop] at hlen'
    have hblk : min nSize 5000000 ≤ nSize := min_le_left _ _
    exact ⟨rfl, by omega⟩

theorem readBytes_format :
    ReadProgram.Format readBytes writeBytes (List.length · ≤ maxSize) := by
  constructor
  · intro v hv limit hlimit
    rw [writeBytes, List.length_append] at hlimit
    exact ((readCompactSize_format).reads _ hv limit (by omega)).bind
      (readBlocks_reads (by omega) rfl (by omega))
  · intro limit bytes v h
    obtain ⟨first,nSize,rest,rfl,hfirst,hrest⟩ := h.split
    obtain ⟨hmax,hlen⟩ := (readCompactSize_format).accepts _ _ _ hfirst
    obtain ⟨rfl,rfl⟩ := readBlocks_eq (by omega) hrest
    refine ⟨hmax, ?_⟩
    rw [writeBytes, List.length_append, List.length_append]
    omega

end SizeFormats

section VectorFormats
variable {α : Type} {read : ByteReader α} {write : α → List UInt8} {fits : α → Prop} {limit : ℕ}

theorem readItems_reads (hread : ReadProgram.Format read write fits) {items : List α}
    (hitems : ∀ item ∈ items, fits item) (hlimit : (items.flatMap write).length ≤ limit) :
    (readItems read items.length).Reads limit (items.flatMap write) items := by
  induction items with
  | nil => exact ⟨rfl, rfl⟩
  | cons item items ih =>
    rw [List.flatMap_cons, List.length_append] at hlimit
    have hrest := ih (fun item hmem => hitems item (List.mem_cons_of_mem _ hmem)) (by omega)
    rw [List.flatMap_cons]
    exact (hread.reads item (hitems item List.mem_cons_self) limit (by omega)).bind (hrest.map rfl)

theorem readItems_accepts (hread : ReadProgram.Format read write fits) {n : ℕ}
    {bytes : List UInt8} {items : List α} (h : (readItems read n).Reads limit bytes items) :
    items.length = n ∧ (∀ item ∈ items, fits item) ∧
      (items.flatMap write).length ≤ bytes.length := by
  induction n generalizing bytes items with
  | zero =>
    obtain ⟨rfl,rfl⟩ := h
    exact ⟨rfl, fun item hmem => (List.not_mem_nil hmem).elim, le_rfl⟩
  | succ n ih =>
    obtain ⟨first,item,rest,rfl,hfirst,hrest⟩ := h.split
    obtain ⟨items',hsecond,rfl⟩ := hrest.of_map
    obtain ⟨hfits,hlen⟩ := hread.accepts _ _ _ hfirst
    obtain ⟨hcount,hall,hlen'⟩ := ih hsecond
    refine ⟨congrArg (·+1) hcount, ?_, ?_⟩
    · intro item' hmem
      rcases List.mem_cons.mp hmem with rfl | hmem
      · exact hfits
      · exact hall item' hmem
    · rw [List.flatMap_cons, List.length_append, List.length_append]
      omega

/-- A vector has the format of its items. -/
theorem readVector_format (hread : ReadProgram.Format read write fits) :
    ReadProgram.Format (readVector read) (serializeVector write)
      fun items => items.length ≤ maxSize ∧ ∀ item ∈ items, fits item := by
  constructor
  · rintro items ⟨hmax,hitems⟩ limit hlimit
    rw [serializeVector, List.length_append] at hlimit
    exact ((readCompactSize_format).reads _ hmax limit (by omega)).bind
      (readItems_reads hread hitems (by omega))
  · intro limit bytes items h
    obtain ⟨first,nSize,rest,rfl,hfirst,hrest⟩ := h.split
    obtain ⟨hmax,hlen⟩ := (readCompactSize_format).accepts _ _ _ hfirst
    obtain ⟨rfl,hall,hlen'⟩ := readItems_accepts hread hrest
    refine ⟨⟨hmax, hall⟩, ?_⟩
    rw [serializeVector, List.length_append, List.length_append]
    omega

end VectorFormats

section RecordFormats
variable {limit : ℕ}

theorem readOutPoint_format :
    ReadProgram.Format readOutPoint writeOutPoint fun outpoint => outpoint.n < 2^32 := by
  constructor
  · intro outpoint hn limit hlimit
    have hhash := numberBytes_length 32 outpoint.hash.toNat
    have hlen : (writeOutPoint outpoint).length = 36 := by
      rw [writeOutPoint, List.length_append, hhash, numberBytes_length]
    have hlt : outpoint.hash.toNat < 256^32 := lt_of_lt_of_eq outpoint.hash.isLt (by norm_num)
    refine ⟨by omega, hlen.ge, ?_⟩
    rw [List.take_of_length_le hlen.le, List.drop_of_length_le hlen.le]
    refine ⟨rfl, ?_⟩
    rw [writeOutPoint, List.take_left' hhash, List.drop_left' hhash, littleEndian_numberBytes hlt,
      littleEndian_numberBytes (by omega), BitVec.ofNat_toNat, BitVec.setWidth_eq]
  · rintro limit bytes outpoint ⟨-,hlen,-,rfl⟩
    have hn := littleEndian_lt ((bytes.take 36).drop 32)
    rw [List.length_drop, List.length_take_of_le hlen] at hn
    refine ⟨by norm_num at hn ⊢; exact hn, ?_⟩
    rw [writeOutPoint, List.length_append, numberBytes_length, numberBytes_length]
    exact hlen

theorem readTxIn_format : ReadProgram.Format readTxIn writeTxIn TxInFits := by
  constructor
  · intro txin h limit hlimit
    rw [writeTxIn, List.length_append, List.length_append] at hlimit
    exact ((readOutPoint_format).reads _ h.n limit (by omega)).bind
      (((readBytes_format).reads _ h.scriptSig limit (by omega)).bind
        (ReadProgram.Reads.map ((readNumber_format 4).reads _ (by have := h.nSequence; omega) limit (by omega))
          rfl))
  · intro limit bytes txin h
    obtain ⟨first,prevout,rest,rfl,hprevout,hrest⟩ := h.split
    obtain ⟨second,scriptSig,last,rfl,hscript,hlast⟩ := hrest.split
    obtain ⟨nSequence,hsequence,rfl⟩ := hlast.of_map
    obtain ⟨hn,hlen⟩ := (readOutPoint_format).accepts _ _ _ hprevout
    obtain ⟨hsig,hlen'⟩ := (readBytes_format).accepts _ _ _ hscript
    obtain ⟨hseq,hlen''⟩ := (readNumber_format 4).accepts _ _ _ hsequence
    refine ⟨⟨hn, hsig, by omega⟩, ?_⟩
    simp only [writeTxIn, List.length_append]
    omega

theorem readTxOut_format : ReadProgram.Format readTxOut writeTxOut TxOutFits := by
  constructor
  · intro txout h limit hlimit
    rw [writeTxOut, List.length_append] at hlimit
    exact ((readSigned_format 8).reads _ h.nValue limit (by omega)).bind
      (ReadProgram.Reads.map ((readBytes_format).reads _ h.scriptPubKey limit (by omega)) rfl)
  · intro limit bytes txout h
    obtain ⟨first,nValue,rest,rfl,hvalue,hrest⟩ := h.split
    obtain ⟨scriptPubKey,hscript,rfl⟩ := hrest.of_map
    obtain ⟨hfits,hlen⟩ := (readSigned_format 8).accepts _ _ _ hvalue
    obtain ⟨hkey,hlen'⟩ := (readBytes_format).accepts _ _ _ hscript
    refine ⟨⟨hfits, hkey⟩, ?_⟩
    simp only [writeTxOut, List.length_append]
    omega

theorem readTransaction_format : ReadProgram.Format readTransaction writeTransaction TxFits := by
  have hvinFormat := readVector_format readTxIn_format
  have hvoutFormat := readVector_format readTxOut_format
  constructor
  · intro tx h limit hlimit
    rw [writeTransaction, List.length_append, List.length_append, List.length_append] at hlimit
    exact ((readSigned_format 4).reads _ h.nVersion limit (by omega)).bind
      ((hvinFormat.reads _ ⟨h.vin_length, h.vin⟩ limit (by omega)).bind
        ((hvoutFormat.reads _ ⟨h.vout_length, h.vout⟩ limit (by omega)).bind
          (ReadProgram.Reads.map ((readNumber_format 4).reads _ (by have := h.nLockTime; omega) limit
            (by omega)) rfl)))
  · intro limit bytes tx h
    obtain ⟨first,nVersion,rest,rfl,hversion,hrest⟩ := h.split
    obtain ⟨second,vin,rest,rfl,hvin,hrest⟩ := hrest.split
    obtain ⟨third,vout,last,rfl,hvout,hlast⟩ := hrest.split
    obtain ⟨nLockTime,hlock,rfl⟩ := hlast.of_map
    obtain ⟨h1,hlen1⟩ := (readSigned_format 4).accepts _ _ _ hversion
    obtain ⟨⟨h2,h2'⟩,hlen2⟩ := hvinFormat.accepts _ _ _ hvin
    obtain ⟨⟨h3,h3'⟩,hlen3⟩ := hvoutFormat.accepts _ _ _ hvout
    obtain ⟨h4,hlen4⟩ := (readNumber_format 4).accepts _ _ _ hlock
    refine ⟨⟨h1, h2, h2', h3, h3', by omega⟩, ?_⟩
    simp only [writeTransaction, List.length_append]
    omega

/-- A multiplier is not written any longer than it was read, as `getvch` gives the shortest form. -/
theorem readBigNum_format : ReadProgram.Format readBigNum writeBigNum
    fun bn => (bnGetvch bn).length ≤ maxSize := by
  constructor
  · intro bn h limit hlimit
    exact ((readBytes_format).reads _ h limit hlimit).map (setvch_bnGetvch bn)
  · intro limit bytes bn h
    obtain ⟨vch,hread,rfl⟩ := h.of_map
    obtain ⟨hmax,hlen⟩ := (readBytes_format).accepts _ _ _ hread
    have hshort : (bnGetvch (setvch vch)).length ≤ vch.length :=
      bnGetvch_shortest _ vch (setvch_bnGetvch _).symm
    refine ⟨hshort.trans hmax, ?_⟩
    rw [writeBytes, List.length_append, writeCompactSize_length] at hlen
    rw [writeBigNum, writeBytes, List.length_append, writeCompactSize_length]
    have hsize := getSizeOfCompactSize_mono hshort
    omega

/-- The numbers of a header take small reads; only its multiplier can be long. -/
theorem readBlockHeader_reads {header : CBlockHeader} (h : HeaderFits header) (hlimit : 32 ≤ limit)
    (hmultiplier : (writeBigNum header.bnPrimeChainMultiplier).length ≤ limit) :
    readBlockHeader.Reads limit (writeBlockHeader header) header := by
  have hbits : header.nBits.toNat < 256^4 := lt_of_lt_of_eq header.nBits.isLt (by norm_num)
  have hback : BitVec.ofNat 32 header.nBits.toNat = header.nBits := by
    rw [BitVec.ofNat_toNat, BitVec.setWidth_eq]
  have hmade : CBlockHeader.mk header.nVersion header.hashPrevBlock header.hashMerkleRoot
      header.nTime (BitVec.ofNat 32 header.nBits.toNat) header.nNonce
      header.bnPrimeChainMultiplier = header := by rw [hback]
  have hfour : ∀ v, (numberBytes 4 v).length ≤ limit := by
    intro v
    rw [numberBytes_length]
    omega
  have hhash : ∀ hash, (serializeUint256 hash).length ≤ limit := by
    intro hash
    rw [serializeUint256, numberBytes_length]
    exact hlimit
  exact ((readSigned_format 4).reads _ h.nVersion limit (hfour _)).bind
    (((readUint256_format).reads _ trivial limit (hhash _)).bind
      (((readUint256_format).reads _ trivial limit (hhash _)).bind
        (((readNumber_format 4).reads _ (by have := h.nTime; omega) limit (hfour _)).bind
          (((readNumber_format 4).reads _ hbits limit (hfour _)).bind
            (((readNumber_format 4).reads _ (by have := h.nNonce; omega) limit (hfour _)).bind
              (((readBigNum_format).reads _ h.multiplier limit hmultiplier).map hmade))))))

theorem readBlockHeader_format :
    ReadProgram.Format readBlockHeader writeBlockHeader HeaderFits := by
  constructor
  · intro header h limit hlimit
    simp only [writeBlockHeader, serializeUint256, List.length_append, numberBytes_length] at hlimit
    exact readBlockHeader_reads h (by omega) (by omega)
  · intro limit bytes header h
    obtain ⟨bytes1,nVersion,rest,rfl,hversion,hrest⟩ := h.split
    obtain ⟨bytes2,hashPrevBlock,rest,rfl,hprev,hrest⟩ := hrest.split
    obtain ⟨bytes3,hashMerkleRoot,rest,rfl,hroot,hrest⟩ := hrest.split
    obtain ⟨bytes4,nTime,rest,rfl,htime,hrest⟩ := hrest.split
    obtain ⟨bytes5,nBits,rest,rfl,hbits,hrest⟩ := hrest.split
    obtain ⟨bytes6,nNonce,last,rfl,hnonce,hlast⟩ := hrest.split
    obtain ⟨bnPrimeChainMultiplier,hmultiplier,rfl⟩ := hlast.of_map
    obtain ⟨h1,hlen1⟩ := (readSigned_format 4).accepts _ _ _ hversion
    obtain ⟨-,hlen2⟩ := (readUint256_format).accepts _ _ _ hprev
    obtain ⟨-,hlen3⟩ := (readUint256_format).accepts _ _ _ hroot
    obtain ⟨h4,hlen4⟩ := (readNumber_format 4).accepts _ _ _ htime
    obtain ⟨h5,hlen5⟩ := (readNumber_format 4).accepts _ _ _ hbits
    obtain ⟨h6,hlen6⟩ := (readNumber_format 4).accepts _ _ _ hnonce
    obtain ⟨h7,hlen7⟩ := (readBigNum_format).accepts _ _ _ hmultiplier
    have hnBits : (BitVec.ofNat 32 nBits).toNat = nBits := by
      rw [BitVec.toNat_ofNat, Nat.mod_eq_of_lt (by omega)]
    refine ⟨⟨h1, by omega, by omega, h7⟩, ?_⟩
    simp only [writeBlockHeader, List.length_append, hnBits]
    omega

/-- No single read of a block is longer than the block without the numbers of its header. -/
theorem readBlock_reads {block : CBlock} (h : BlockFits block) (hlimit : 32 ≤ limit)
    (hsize : (writeBlock block).length ≤ limit+80) :
    readBlock.Reads limit (writeBlock block) block := by
  have hvtxFormat := readVector_format readTransaction_format
  simp only [writeBlock, writeBlockHeader, writeSigned, serializeUint256, List.length_append,
    numberBytes_length] at hsize
  exact (readBlockHeader_reads h.header hlimit (by omega)).bind
    ((hvtxFormat.reads _ ⟨h.vtx_length, h.vtx⟩ limit (by omega)).map rfl)

theorem readBlock_format : ReadProgram.Format readBlock writeBlock BlockFits := by
  have hvtxFormat := readVector_format readTransaction_format
  constructor
  · intro block h limit hlimit
    have hlong : 32 ≤ (writeBlock block).length := by
      simp only [writeBlock, writeBlockHeader, serializeUint256, List.length_append,
        numberBytes_length]
      omega
    exact readBlock_reads h (by omega) (by omega)
  · intro limit bytes block h
    obtain ⟨first,header,last,rfl,hheader,hlast⟩ := h.split
    obtain ⟨vtx,hvtx,rfl⟩ := hlast.of_map
    obtain ⟨h1,hlen1⟩ := (readBlockHeader_format).accepts _ _ _ hheader
    obtain ⟨⟨h2,h2'⟩,hlen2⟩ := hvtxFormat.accepts _ _ _ hvtx
    refine ⟨⟨h1, h2, h2'⟩, ?_⟩
    rw [writeBlock, List.length_append, List.length_append]
    exact Nat.add_le_add hlen1 hlen2

end RecordFormats

section Sizes

/-- The bytes of a multiplier: one bit more than its magnitude. -/
theorem bnGetvch_length (z : CBigNum) : (bnGetvch z).length = CBigNum.vchSize z := by
  rw [CBigNum.vchSize]
  by_cases hz : z = 0
  · rw [if_pos hz, hz, bnGetvch_zero, List.length_nil]
  rw [if_neg hz]
  have habs : z.natAbs ≠ 0 := Int.natAbs_ne_zero.mpr hz
  have hne : bnGetvch z ≠ [] := by
    intro hnil
    have hback := setvch_bnGetvch z
    rw [hnil] at hback
    exact hz hback.symm
  have hpos := List.length_pos_of_ne_nil hne
  apply le_antisymm
  · apply bnGetvch_length_le
    calc z.natAbs < 2^(z.natAbs.log2+1) := Nat.lt_log2_self
      _ ≤ 2^(8*((z.natAbs.log2+1)/8)+7) := Nat.pow_le_pow_right (by norm_num) (by omega)
  · have hlt := natAbs_setvch_lt hne
    rw [setvch_bnGetvch] at hlt
    have hpow : 128*256^((bnGetvch z).length-1) = 2^(8*((bnGetvch z).length-1)+7) := by
      rw [pow_add, pow_mul]
      ring
    rw [hpow] at hlt
    have hlog := (Nat.log2_lt habs).mpr hlt
    omega

theorem writeBytes_length (v : List UInt8) :
    (writeBytes v).length = getSizeOfCompactSize v.length+v.length := by
  rw [writeBytes, List.length_append, writeCompactSize_length]

theorem writeTransaction_length (tx : CTransaction) :
    (writeTransaction tx).length = tx.getSerializeSize := by
  have hvin : ∀ txin : CTxIn, (writeTxIn txin).length = 36+scriptSize txin.scriptSig+4 := by
    intro txin
    simp only [writeTxIn, writeOutPoint, List.length_append, numberBytes_length, writeBytes_length,
      scriptSize]
    omega
  have hvout : ∀ txout : CTxOut, (writeTxOut txout).length = 8+scriptSize txout.scriptPubKey := by
    intro txout
    rw [writeTxOut, List.length_append, writeSigned, numberBytes_length, writeBytes_length, scriptSize]
  simp only [writeTransaction, serializeVector, List.length_append, writeSigned, numberBytes_length,
    writeCompactSize_length, List.length_flatMap, hvin, hvout, CTransaction.getSerializeSize]
  omega

theorem writeBlockHeader_length (header : CBlockHeader) : (writeBlockHeader header).length =
    80+(getSizeOfCompactSize (CBigNum.vchSize header.bnPrimeChainMultiplier)+
      CBigNum.vchSize header.bnPrimeChainMultiplier) := by
  simp only [writeBlockHeader, List.length_append, writeSigned, serializeUint256, numberBytes_length,
    writeBigNum, writeBytes_length, bnGetvch_length]
  omega

/-- The size that the size limits go by is the number of bytes written. -/
theorem writeBlock_length (block : CBlock) : (writeBlock block).length = block.getSerializeSize := by
  have hvtx : (block.vtx.map fun tx => (writeTransaction tx).length) =
      block.vtx.map CTransaction.getSerializeSize :=
    List.map_congr_left fun tx _ => writeTransaction_length tx
  rw [writeBlock, List.length_append, writeBlockHeader_length, serializeVector, List.length_append,
    writeCompactSize_length, List.length_flatMap, hvtx, CBlock.getSerializeSize]
  omega

/-- What the types of the fields hold. -/
structure TxFields (tx : CTransaction) : Prop where
  nVersion : FitsSigned 4 tx.nVersion
  vin : ∀ txin ∈ tx.vin, txin.prevout.n < 2^32 ∧ txin.nSequence < 2^32
  vout : ∀ txout ∈ tx.vout, FitsSigned 8 txout.nValue
  nLockTime : tx.nLockTime < 2^32

theorem length_le_sum {α : Type} {size : α → ℕ} {items : List α} {n : ℕ}
    (hsize : ∀ item ∈ items, 1 ≤ size item) (hsum : (items.map size).sum ≤ n) : items.length ≤ n := by
  induction items generalizing n with
  | nil => exact Nat.zero_le n
  | cons item items ih =>
    rw [List.map_cons, List.sum_cons] at hsum
    have hhead := hsize item List.mem_cons_self
    have htail := ih (fun item hmem => hsize item (List.mem_cons_of_mem _ hmem)) le_rfl
    rw [List.length_cons]
    omega

theorem size_le_sum {α : Type} (size : α → ℕ) {items : List α} {item : α} (h : item ∈ items) :
    size item ≤ (items.map size).sum :=
  List.single_le_sum (fun _ _ => Nat.zero_le _) _ (List.mem_map_of_mem h)

/-- A size within the limit leaves no vector that is too long. -/
theorem TxFields.fits {tx : CTransaction} (h : TxFields tx) (hsize : tx.getSerializeSize ≤ maxSize) :
    TxFits tx := by
  rw [CTransaction.getSerializeSize] at hsize
  refine ⟨h.nVersion, ?_, ?_, ?_, ?_, h.nLockTime⟩
  · exact length_le_sum (fun _ _ => by omega) (show (tx.vin.map fun txin =>
      36+scriptSize txin.scriptSig+4).sum ≤ maxSize by omega)
  · intro txin hmem
    have hone := size_le_sum (fun txin : CTxIn => 36+scriptSize txin.scriptSig+4) hmem
    obtain ⟨hn,hsequence⟩ := h.vin txin hmem
    rw [scriptSize] at hone
    exact ⟨hn, by omega, hsequence⟩
  · exact length_le_sum (fun _ _ => by omega) (show (tx.vout.map fun txout =>
      8+scriptSize txout.scriptPubKey).sum ≤ maxSize by omega)
  · intro txout hmem
    have hone := size_le_sum (fun txout : CTxOut => 8+scriptSize txout.scriptPubKey) hmem
    rw [scriptSize] at hone
    exact ⟨h.vout txout hmem, by omega⟩

structure BlockFields (block : CBlock) : Prop where
  nVersion : FitsSigned 4 block.nVersion
  nTime : block.nTime < 2^32
  nNonce : block.nNonce < 2^32
  vtx : ∀ tx ∈ block.vtx, TxFields tx

theorem BlockFields.fits {block : CBlock} (h : BlockFields block)
    (hsize : block.getSerializeSize ≤ maxSize) : BlockFits block := by
  rw [CBlock.getSerializeSize] at hsize
  refine ⟨⟨h.nVersion, h.nTime, h.nNonce, ?_⟩, ?_, ?_⟩
  · rw [bnGetvch_length]
    omega
  · exact length_le_sum (fun tx _ => by rw [CTransaction.getSerializeSize]; omega)
      (show (block.vtx.map CTransaction.getSerializeSize).sum ≤ maxSize by omega)
  · intro tx hmem
    have hone := size_le_sum CTransaction.getSerializeSize hmem
    exact (h.vtx tx hmem).fits (by omega)

end Sizes

section Exact

/-- A block whose fields hold what their types do comes back from its bytes, which are as many as its
size says; what else is accepted is a longer writing of such a block. -/
theorem wireBlock_exact :
    (∀ block : CBlock, (writeBlock block).length = block.getSerializeSize) ∧
    (∀ (block : CBlock) (rest : List UInt8), BlockFields block → block.getSerializeSize ≤ maxSize →
      readBlock.run ReadProgram.listRead (writeBlock block ++ rest) = (some block, rest)) ∧
    (∀ (bytes rest : List UInt8) (block : CBlock),
      readBlock.run ReadProgram.listRead bytes = (some block, rest) →
      BlockFits block ∧ ∃ first, bytes = first ++ rest ∧ block.getSerializeSize ≤ first.length ∧
        readBlock.run ReadProgram.listRead (writeBlock block ++ rest) = (some block, rest)) ∧
    ∀ (block block' : CBlock) (rest rest' : List UInt8), BlockFits block → BlockFits block' →
      writeBlock block ++ rest = writeBlock block' ++ rest' → block = block' ∧ rest = rest' := by
  refine ⟨writeBlock_length, ?_, ?_, ?_⟩
  · intro block rest hfields hsize
    exact (readBlock_format).roundTrip (hfields.fits hsize) rest
  · intro bytes rest block hrun
    obtain ⟨hfits,first,hsplit,hlen⟩ := (readBlock_format).accepted hrun
    rw [writeBlock_length] at hlen
    exact ⟨hfits, first, hsplit, hlen, (readBlock_format).roundTrip hfits rest⟩
  · intro block block' rest rest' h h' heq
    exact (readBlock_format).prefixFree h h' heq

end Exact

end Candypool.Core.Wire
