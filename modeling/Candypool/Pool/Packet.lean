import Candypool.Pool.Receive
import Candypool.Core.Serialize
import Mathlib.Data.List.GetD

/-! The packet buffer of the pool server: numbers and byte arrays are written behind a header of
four bytes and read back in the same order. Indices are 32 bits wide. -/
namespace Candypool.Pool
open Candypool.Core

/-- Byte arrays from this size on are skipped. -/
def maxDataSize : ℕ := 1024*1024*16

namespace XptPacketbuffer
variable (pb : XptPacketbuffer)

/-- `xptPacketbuffer_beginWritePacket`. -/
def beginWritePacket (opcode : UInt8) : XptPacketbuffer :=
  { pb with buffer := writeBytes pb.buffer 0 (numberBytes 4 (opcode.toNat &&& 0x000000ff))
            parserIndex := 4 }

/-- `xptPacketbuffer_beginReadPacket`. -/
def beginReadPacket : XptPacketbuffer := { pb with parserIndex := 4 }

/-- The read functions for numbers: the value, the error flag and the buffer. -/
def readNumber (size : ℕ) : ℕ × Bool × XptPacketbuffer :=
  if (pb.parserIndex+size) % 2^32 > pb.bufferSize then
    (0, true, { pb with parserIndex := pb.bufferSize })
  else (littleEndian (readBytes pb.buffer pb.parserIndex size), false,
    { pb with parserIndex := (pb.parserIndex+size) % 2^32 })

def readU64 : UInt64 × Bool × XptPacketbuffer :=
  let (v,error,pb) := pb.readNumber 8
  (UInt64.ofNat v, error, pb)

def readU32 : UInt32 × Bool × XptPacketbuffer :=
  let (v,error,pb) := pb.readNumber 4
  (UInt32.ofNat v, error, pb)

def readU16 : UInt16 × Bool × XptPacketbuffer :=
  let (v,error,pb) := pb.readNumber 2
  (UInt16.ofNat v, error, pb)

def readU8 : UInt8 × Bool × XptPacketbuffer :=
  let (v,error,pb) := pb.readNumber 1
  (UInt8.ofNat v, error, pb)

/-- `xptPacketbuffer_readData` into the memory of `data`. -/
def readData (data : List UInt8) (error : Bool) : List UInt8 × Bool × XptPacketbuffer :=
  if data.length ≥ maxDataSize then (data, error, pb)
  else if (pb.parserIndex+data.length) % 2^32 > pb.bufferSize then
    (data, true, { pb with parserIndex := pb.bufferSize })
  else (readBytes pb.buffer pb.parserIndex data.length, false,
    { pb with parserIndex := (pb.parserIndex+data.length) % 2^32 })

/-- The write functions for numbers: the error flag and the buffer. -/
def writeNumber (size v : ℕ) : Bool × XptPacketbuffer :=
  if (pb.parserIndex+size) % 2^32 > pb.bufferLimit then (true, pb)
  else (false, { pb with
    buffer := writeBytes pb.buffer pb.parserIndex (numberBytes size v)
    parserIndex := (pb.parserIndex+size) % 2^32 })

def writeU64 (v : UInt64) : Bool × XptPacketbuffer := pb.writeNumber 8 v.toNat
def writeU32 (v : UInt32) : Bool × XptPacketbuffer := pb.writeNumber 4 v.toNat
def writeU16 (v : UInt16) : Bool × XptPacketbuffer := pb.writeNumber 2 v.toNat
def writeU8 (v : UInt8) : Bool × XptPacketbuffer := pb.writeNumber 1 v.toNat

/-- `xptPacketbuffer_writeData`. -/
def writeData (data : List UInt8) (error : Bool) : Bool × XptPacketbuffer :=
  if data.length ≥ maxDataSize then (error, pb)
  else if (pb.parserIndex+data.length) % 2^32 > pb.bufferLimit then (true, pb)
  else (false, { pb with
    buffer := writeBytes pb.buffer pb.parserIndex data
    parserIndex := (pb.parserIndex+data.length) % 2^32 })

/-- `xptPacketbuffer_finalizeWritePacket`. -/
def finalizeWritePacket : XptPacketbuffer :=
  let opcode := littleEndian (readBytes pb.buffer 0 4) &&& 0x000000ff
  let dataSize := pb.parserIndex-4
  let header := (opcode &&& 0x000000ff) ||| ((dataSize <<< 8) &&& 0xffffff00)
  { pb with buffer := writeBytes pb.buffer 0 (numberBytes 4 header) }

end XptPacketbuffer

/-- What one call writes, or has read. -/
inductive PacketValue
  | u8 (v : UInt8)
  | u16 (v : UInt16)
  | u32 (v : UInt32)
  | u64 (v : UInt64)
  | data (bytes : List UInt8)

/-- A call that reads; a byte array is read into memory. -/
inductive ReadCall
  | u8
  | u16
  | u32
  | u64
  | data (memory : List UInt8)

namespace PacketValue

def bytes : PacketValue → List UInt8
  | .u8 v => numberBytes 1 v.toNat
  | .u16 v => numberBytes 2 v.toNat
  | .u32 v => numberBytes 4 v.toNat
  | .u64 v => numberBytes 8 v.toNat
  | .data bytes => bytes

/-- The size guard of `writeData` lets it pass. -/
def Short : PacketValue → Prop
  | .data bytes => bytes.length < maxDataSize
  | _ => True

/-- One call, with the flag the caller hands in. -/
def write (pb : XptPacketbuffer) (error : Bool) : PacketValue → Bool × XptPacketbuffer
  | .u8 v => pb.writeU8 v
  | .u16 v => pb.writeU16 v
  | .u32 v => pb.writeU32 v
  | .u64 v => pb.writeU64 v
  | .data bytes => pb.writeData bytes error

end PacketValue

namespace ReadCall

def size : ReadCall → ℕ
  | .u8 => 1
  | .u16 => 2
  | .u32 => 4
  | .u64 => 8
  | .data memory => memory.length

def Short : ReadCall → Prop
  | .data bytes => bytes.length < maxDataSize
  | _ => True

/-- The read function that belongs to a value. -/
def Fits : ReadCall → PacketValue → Prop
  | .u8, .u8 _ => True
  | .u16, .u16 _ => True
  | .u32, .u32 _ => True
  | .u64, .u64 _ => True
  | .data memory, .data bytes => memory.length = bytes.length
  | _, _ => False

def exec (pb : XptPacketbuffer) (error : Bool) : ReadCall → PacketValue × Bool × XptPacketbuffer
  | .u8 => (.u8 pb.readU8.1, pb.readU8.2)
  | .u16 => (.u16 pb.readU16.1, pb.readU16.2)
  | .u32 => (.u32 pb.readU32.1, pb.readU32.2)
  | .u64 => (.u64 pb.readU64.1, pb.readU64.2)
  | .data memory => (.data (pb.readData memory error).1, (pb.readData memory error).2)

end ReadCall

namespace XptPacketbuffer

/-- Calls one after the other; the flag goes through all of them and is looked at after each. -/
def writeAll (pb : XptPacketbuffer) (error : Bool) : List PacketValue → List Bool × XptPacketbuffer
  | [] => ([], pb)
  | value :: values =>
    let (error,pb) := value.write pb error
    let (errors,pb) := writeAll pb error values
    (error :: errors, pb)

def readAll (pb : XptPacketbuffer) (error : Bool) :
    List ReadCall → List PacketValue × List Bool × XptPacketbuffer
  | [] => ([], [], pb)
  | call :: calls =>
    let (value,error,pb) := call.exec pb error
    let (values,errors,pb) := readAll pb error calls
    (value :: values, error :: errors, pb)

/-- A packet as it is sent. -/
def writePacket (pb : XptPacketbuffer) (opcode : UInt8) (values : List PacketValue) :
    XptPacketbuffer :=
  ((pb.beginWritePacket opcode).writeAll false values).2.finalizeWritePacket

/-- No call reports an error. -/
def Writes (pb : XptPacketbuffer) (opcode : UInt8) (values : List PacketValue) : Prop :=
  ∀ error ∈ ((pb.beginWritePacket opcode).writeAll false values).1, error = false

/-- The receiver finds the opcode and the size in the header, and the values behind it. -/
structure RoundTrip (pb : XptPacketbuffer) (opcode : UInt8) (values : List PacketValue) : Prop where
  code : headerOpcode (littleEndian (readBytes (pb.writePacket opcode values).buffer 0 4)) =
    opcode.toNat
  size : headerSize (littleEndian (readBytes (pb.writePacket opcode values).buffer 0 4)) =
    (pb.writePacket opcode values).parserIndex-4
  read : ∀ (received : XptPacketbuffer) (calls : List ReadCall),
    received.bufferSize =
      headerSize (littleEndian (readBytes (pb.writePacket opcode values).buffer 0 4))+4 →
    (∀ i < received.bufferSize, received.buffer i = (pb.writePacket opcode values).buffer i) →
    List.Forall₂ ReadCall.Fits calls values →
    (received.beginReadPacket.readAll false calls).1 = values ∧
      (∀ error ∈ (received.beginReadPacket.readAll false calls).2.1, error = false) ∧
      (received.beginReadPacket.readAll false calls).2.2.parserIndex = received.bufferSize

end XptPacketbuffer

section Numbers

theorem and_opcode {opcode : ℕ} (h : opcode < 256) : opcode &&& 0x000000ff = opcode := by
  rw [show 0x000000ff = 2^8-1 by norm_num, Nat.and_two_pow_sub_one_eq_mod]
  exact Nat.mod_eq_of_lt h

/-- The header of a packet: the opcode below the size. -/
theorem header_bits {opcode dataSize : ℕ} (ho : opcode < 256) (hs : dataSize < 2^24) :
    ((opcode &&& 0x000000ff) ||| ((dataSize <<< 8) &&& 0xffffff00)) = 256*dataSize+opcode := by
  have hhigh : (dataSize <<< 8) &&& 0xffffff00 = 2^8*dataSize := by
    have hmask : (0xffffff00 : ℕ) = (2^24-1) <<< 8 := by decide
    rw [hmask, ← Nat.shiftLeft_and_distrib, Nat.and_two_pow_sub_one_eq_mod, Nat.mod_eq_of_lt hs,
      Nat.shiftLeft_eq, Nat.mul_comm]
  rw [and_opcode ho, hhigh, Nat.or_comm, ← Nat.two_pow_add_eq_or_of_lt ho]

end Numbers

section Memory
variable {buffer buffer' : ℕ → UInt8}

theorem readBytes_congr {start size : ℕ} (h : ∀ i < size, buffer (start+i) = buffer' (start+i)) :
    readBytes buffer start size = readBytes buffer' start size := by
  apply List.map_congr_left
  intro i hi
  exact h i (List.mem_range.mp hi)

theorem readBytes_writeBytes_self (buffer : ℕ → UInt8) (start : ℕ) (bytes : List UInt8) :
    readBytes (writeBytes buffer start bytes) start bytes.length = bytes := by
  have hall := readBytes_writeBytes buffer start bytes
  rw [readBytes_add, zero_add] at hall
  exact (List.append_inj hall (by rw [readBytes_length, readBytes_length])).2

theorem writeBytes_outside {start i : ℕ} {bytes : List UInt8}
    (h : i < start ∨ start+bytes.length ≤ i) : writeBytes buffer start bytes i = buffer i :=
  if_neg (by omega)

end Memory

section Writing
variable {pb pb' : XptPacketbuffer} {error : Bool}

/-- The buffer after `bytes` were written. -/
def XptPacketbuffer.wrote (pb : XptPacketbuffer) (bytes : List UInt8) : XptPacketbuffer :=
  { pb with buffer := writeBytes pb.buffer pb.parserIndex bytes
            parserIndex := pb.parserIndex+bytes.length }

theorem writeNumber_cases (hindex : pb.parserIndex ≤ 2^24) {size : ℕ} (hsize : size ≤ 8) (v : ℕ) :
    (pb.parserIndex+size ≤ pb.bufferLimit ∧
      pb.writeNumber size v = (false, pb.wrote (numberBytes size v))) ∨
    (pb.bufferLimit < pb.parserIndex+size ∧ pb.writeNumber size v = (true,pb)) := by
  have hwrap : (pb.parserIndex+size) % 2^32 = pb.parserIndex+size := Nat.mod_eq_of_lt (by omega)
  rw [XptPacketbuffer.writeNumber, XptPacketbuffer.wrote, hwrap, numberBytes_length]
  by_cases hfull : pb.parserIndex+size > pb.bufferLimit
  · rw [if_pos hfull]
    exact Or.inr ⟨hfull, rfl⟩
  · rw [if_neg hfull]
    exact Or.inl ⟨not_lt.mp hfull, rfl⟩

/-- What one call does: it writes the value, or there is no room for it, or the guard skips it. -/
theorem PacketValue.write_cases (hindex : pb.parserIndex ≤ 2^24) (value : PacketValue)
    (error : Bool) :
    (pb.parserIndex+value.bytes.length ≤ pb.bufferLimit ∧ value.Short ∧
      value.write pb error = (false, pb.wrote value.bytes)) ∨
    (value.Short ∧ value.write pb error = (true,pb)) ∨
    (¬ value.Short ∧ value.write pb error = (error,pb)) := by
  have hnumber {size v : ℕ} (hsize : size ≤ 8) :
      (pb.parserIndex+(numberBytes size v).length ≤ pb.bufferLimit ∧
        pb.writeNumber size v = (false, pb.wrote (numberBytes size v))) ∨
      pb.writeNumber size v = (true,pb) := by
    rw [numberBytes_length]
    exact (writeNumber_cases hindex hsize v).imp_right And.right
  cases value with
  | u8 v => exact (hnumber (by decide)).imp (fun h => ⟨h.1, trivial, h.2⟩) fun h => Or.inl ⟨trivial, h⟩
  | u16 v => exact (hnumber (by decide)).imp (fun h => ⟨h.1, trivial, h.2⟩) fun h => Or.inl ⟨trivial, h⟩
  | u32 v => exact (hnumber (by decide)).imp (fun h => ⟨h.1, trivial, h.2⟩) fun h => Or.inl ⟨trivial, h⟩
  | u64 v => exact (hnumber (by decide)).imp (fun h => ⟨h.1, trivial, h.2⟩) fun h => Or.inl ⟨trivial, h⟩
  | data bytes =>
    rw [PacketValue.write, XptPacketbuffer.writeData, PacketValue.Short, PacketValue.bytes]
    by_cases hlong : bytes.length ≥ maxDataSize
    · rw [if_pos hlong]
      exact Or.inr (Or.inr ⟨not_lt.mpr hlong, rfl⟩)
    · have hshort : bytes.length < 2^24 := not_le.mp hlong
      have hwrap : (pb.parserIndex+bytes.length) % 2^32 = pb.parserIndex+bytes.length :=
        Nat.mod_eq_of_lt (by omega)
      rw [if_neg hlong, hwrap]
      by_cases hfull : pb.parserIndex+bytes.length > pb.bufferLimit
      · rw [if_pos hfull]
        exact Or.inr (Or.inl ⟨not_le.mp hlong, rfl⟩)
      · rw [if_neg hfull]
        exact Or.inl ⟨not_lt.mp hfull, not_le.mp hlong, rfl⟩

/-- The bytes of a list of values. -/
def allBytes (values : List PacketValue) : List UInt8 := values.flatMap PacketValue.bytes

theorem wrote_wrote (pb : XptPacketbuffer) (bytes bytes' : List UInt8) :
    (pb.wrote bytes).wrote bytes' = pb.wrote (bytes ++ bytes') := by
  simp only [XptPacketbuffer.wrote, List.length_append, Nat.add_assoc]
  congr 1
  funext i
  simp only [writeBytes, List.length_append]
  by_cases hlow : pb.parserIndex ≤ i ∧ i < pb.parserIndex+bytes.length
  · rw [if_neg (by omega), if_pos hlow, if_pos (by omega), List.getD_append _ _ _ _ (by omega)]
  · by_cases hhigh : pb.parserIndex+bytes.length ≤ i ∧
        i < pb.parserIndex+bytes.length+bytes'.length
    · rw [if_pos hhigh, if_pos (by omega), List.getD_append_right _ _ _ _ (by omega)]
      congr 1
      omega
    · rw [if_neg hhigh, if_neg hlow, if_neg (by omega)]

/-- Calls of which none reports an error or is skipped write the bytes of their values. -/
theorem writeAll_wrote (hlimit : pb.bufferLimit ≤ 2^24) (hindex : pb.parserIndex ≤ 2^24)
    {values : List PacketValue} (hshort : ∀ value ∈ values, value.Short)
    (hok : ∀ error ∈ (pb.writeAll false values).1, error = false) :
    (pb.writeAll false values).2 = pb.wrote (allBytes values) ∧
      (values ≠ [] → pb.parserIndex+(allBytes values).length ≤ pb.bufferLimit) := by
  induction values generalizing pb with
  | nil =>
    refine ⟨?_, fun h => absurd rfl h⟩
    have hnil : writeBytes pb.buffer pb.parserIndex [] = pb.buffer :=
      funext fun i => if_neg (by rw [List.length_nil]; omega)
    change pb = { pb with buffer := writeBytes pb.buffer pb.parserIndex [], parserIndex := _ }
    rw [hnil]
    rfl
  | cons value values ih =>
    have hfirst := hshort value List.mem_cons_self
    -- each value is written behind the one before, or the writing fails
    rcases value.write_cases hindex false with ⟨hroom,-,heq⟩ | ⟨-,heq⟩ | ⟨hlong,-⟩
    · rw [XptPacketbuffer.writeAll, heq] at hok ⊢
      dsimp only at hok ⊢
      have hindex' : (pb.wrote value.bytes).parserIndex ≤ 2^24 := hroom.trans hlimit
      obtain ⟨hwrote,hrest⟩ := @ih (pb.wrote value.bytes) hlimit hindex'
        (fun value' hmem => hshort value' (List.mem_cons_of_mem _ hmem))
        fun error hmem => hok error (List.mem_cons_of_mem _ hmem)
      have hall : allBytes (value :: values) = value.bytes ++ allBytes values := List.flatMap_cons
      rw [hwrote, wrote_wrote, hall]
      refine ⟨rfl, fun _ => ?_⟩
      cases values with
      | nil =>
        rw [List.length_append]
        exact hroom
      | cons value' values =>
        have hle := hrest (List.cons_ne_nil _ _)
        rw [List.length_append, ← Nat.add_assoc]
        exact hle
    · rw [XptPacketbuffer.writeAll, heq] at hok
      exact absurd (hok true List.mem_cons_self) (by decide)
    · exact absurd hfirst hlong

/-- However the calls end, nothing is written from the limit on. -/
theorem writeAll_within (hlimit : pb.bufferLimit ≤ 2^24)
    (hindex : pb.parserIndex ≤ pb.bufferLimit) (values : List PacketValue) {i : ℕ}
    (hi : pb.bufferLimit ≤ i) : (pb.writeAll error values).2.buffer i = pb.buffer i ∧
      (pb.writeAll error values).2.bufferLimit = pb.bufferLimit := by
  induction values generalizing pb error with
  | nil => exact ⟨rfl, rfl⟩
  | cons value values ih =>
    rw [XptPacketbuffer.writeAll]
    rcases value.write_cases (hindex.trans hlimit) error with ⟨hroom,-,heq⟩ | ⟨-,heq⟩ | ⟨-,heq⟩
    · rw [heq]
      obtain ⟨hbuffer,hsame⟩ := @ih (pb.wrote value.bytes) false hlimit hroom hi
      exact ⟨hbuffer.trans (writeBytes_outside (Or.inr (hroom.trans hi))), hsame⟩
    · rw [heq]
      exact ih hlimit hindex hi
    · rw [heq]
      exact ih hlimit hindex hi

end Writing

section Reading
variable {pb pb' : XptPacketbuffer} {error : Bool}

/-- The buffer after `size` bytes were read. -/
def XptPacketbuffer.skip (pb : XptPacketbuffer) (size : ℕ) : XptPacketbuffer :=
  { pb with parserIndex := pb.parserIndex+size }

/-- The buffer after a read that failed. -/
def XptPacketbuffer.atEnd (pb : XptPacketbuffer) : XptPacketbuffer :=
  { pb with parserIndex := pb.bufferSize }

theorem readNumber_cases (hindex : pb.parserIndex ≤ pb.bufferSize)
    (hsize : pb.bufferSize+maxDataSize ≤ 2^32) {size : ℕ} (hs : size ≤ 8) :
    (pb.parserIndex+size ≤ pb.bufferSize ∧ pb.readNumber size =
      (littleEndian (readBytes pb.buffer pb.parserIndex size), false, pb.skip size)) ∨
    (pb.bufferSize < pb.parserIndex+size ∧ pb.readNumber size = (0, true, pb.atEnd)) := by
  have hmax : (8 : ℕ) < maxDataSize := by decide
  have hwrap : (pb.parserIndex+size) % 2^32 = pb.parserIndex+size := Nat.mod_eq_of_lt (by omega)
  rw [XptPacketbuffer.readNumber, hwrap]
  by_cases hfull : pb.parserIndex+size > pb.bufferSize
  · rw [if_pos hfull]
    exact Or.inr ⟨hfull, rfl⟩
  · rw [if_neg hfull]
    exact Or.inl ⟨not_lt.mp hfull, rfl⟩

/-- What a read gives that finds these bytes. -/
def ReadCall.decode (bytes : List UInt8) : ReadCall → PacketValue
  | .u8 => .u8 (UInt8.ofNat (littleEndian bytes))
  | .u16 => .u16 (UInt16.ofNat (littleEndian bytes))
  | .u32 => .u32 (UInt32.ofNat (littleEndian bytes))
  | .u64 => .u64 (UInt64.ofNat (littleEndian bytes))
  | .data _ => .data bytes

/-- What a read gives that finds nothing. -/
def ReadCall.default : ReadCall → PacketValue
  | .u8 => .u8 0
  | .u16 => .u16 0
  | .u32 => .u32 0
  | .u64 => .u64 0
  | .data memory => .data memory

/-- What one call does: it reads what is there, or there is not enough, or the guard skips it. -/
theorem ReadCall.exec_cases (hindex : pb.parserIndex ≤ pb.bufferSize)
    (hsize : pb.bufferSize+maxDataSize ≤ 2^32) (call : ReadCall) (error : Bool) :
    (pb.parserIndex+call.size ≤ pb.bufferSize ∧ call.Short ∧ call.exec pb error =
      (call.decode (readBytes pb.buffer pb.parserIndex call.size), false, pb.skip call.size)) ∨
    (pb.bufferSize < pb.parserIndex+call.size ∧ call.Short ∧
      call.exec pb error = (call.default, true, pb.atEnd)) ∨
    (¬ call.Short ∧ call.exec pb error = (call.default, error, pb)) := by
  -- a number is read as bytes of its size
  have hnumber (call : ReadCall) (f : ℕ → PacketValue) (hs : call.size ≤ 8) (hshort : call.Short)
      (hexec : call.exec pb error = (f (pb.readNumber call.size).1, (pb.readNumber call.size).2))
      (hdecode : ∀ bytes, call.decode bytes = f (littleEndian bytes)) (hdefault : call.default = f 0) :
      (pb.parserIndex+call.size ≤ pb.bufferSize ∧ call.Short ∧ call.exec pb error =
        (call.decode (readBytes pb.buffer pb.parserIndex call.size), false, pb.skip call.size)) ∨
      (pb.bufferSize < pb.parserIndex+call.size ∧ call.Short ∧
        call.exec pb error = (call.default, true, pb.atEnd)) ∨
      (¬ call.Short ∧ call.exec pb error = (call.default, error, pb)) := by
    rw [hexec, hdecode, hdefault]
    rcases readNumber_cases hindex hsize hs with ⟨hroom,heq⟩ | ⟨hfull,heq⟩
    · exact Or.inl ⟨hroom, hshort, by rw [heq]⟩
    · exact Or.inr (Or.inl ⟨hfull, hshort, by rw [heq]⟩)
  cases call with
  | u8 => exact hnumber .u8 (fun v => .u8 (UInt8.ofNat v)) (by decide) trivial rfl (fun _ => rfl) rfl
  | u16 => exact hnumber .u16 (fun v => .u16 (UInt16.ofNat v)) (by decide) trivial rfl (fun _ => rfl) rfl
  | u32 => exact hnumber .u32 (fun v => .u32 (UInt32.ofNat v)) (by decide) trivial rfl (fun _ => rfl) rfl
  | u64 => exact hnumber .u64 (fun v => .u64 (UInt64.ofNat v)) (by decide) trivial rfl (fun _ => rfl) rfl
  | data memory =>
    simp only [ReadCall.exec, ReadCall.Short, ReadCall.size, ReadCall.decode, ReadCall.default,
      XptPacketbuffer.readData]
    by_cases hlong : memory.length ≥ maxDataSize
    · rw [if_pos hlong]
      exact Or.inr (Or.inr ⟨not_lt.mpr hlong, rfl⟩)
    · have hwrap : (pb.parserIndex+memory.length) % 2^32 = pb.parserIndex+memory.length :=
        Nat.mod_eq_of_lt (by omega)
      rw [if_neg hlong, hwrap]
      by_cases hfull : pb.parserIndex+memory.length > pb.bufferSize
      · rw [if_pos hfull]
        exact Or.inr (Or.inl ⟨hfull, not_le.mp hlong, rfl⟩)
      · rw [if_neg hfull]
        exact Or.inl ⟨not_lt.mp hfull, not_le.mp hlong, rfl⟩

/-- However many calls are made, the index stays within the packet. -/
theorem readAll_within (hindex : pb.parserIndex ≤ pb.bufferSize)
    (hsize : pb.bufferSize+maxDataSize ≤ 2^32) (calls : List ReadCall) :
    (pb.readAll error calls).2.2.parserIndex ≤ pb.bufferSize ∧
      (pb.readAll error calls).2.2.bufferSize = pb.bufferSize := by
  induction calls generalizing pb error with
  | nil => exact ⟨hindex, rfl⟩
  | cons call calls ih =>
    rw [XptPacketbuffer.readAll]
    rcases call.exec_cases hindex hsize error with ⟨hroom,-,heq⟩ | ⟨-,-,heq⟩ | ⟨-,heq⟩
    · rw [heq]
      exact @ih (pb.skip call.size) false hroom hsize
    · rw [heq]
      exact @ih pb.atEnd true le_rfl hsize
    · rw [heq]
      exact ih hindex hsize

/-- What is read does not depend on the memory behind the packet. -/
theorem readAll_congr (hindex : pb.parserIndex ≤ pb.bufferSize)
    (hsize : pb.bufferSize+maxDataSize ≤ 2^32) (hsame : pb'.bufferSize = pb.bufferSize)
    (hsame' : pb'.parserIndex = pb.parserIndex)
    (hbuffer : ∀ i < pb.bufferSize, pb'.buffer i = pb.buffer i) (calls : List ReadCall) :
    (pb'.readAll error calls).1 = (pb.readAll error calls).1 ∧
      (pb'.readAll error calls).2.1 = (pb.readAll error calls).2.1 ∧
      (pb'.readAll error calls).2.2.parserIndex = (pb.readAll error calls).2.2.parserIndex := by
  induction calls generalizing pb pb' error with
  | nil => exact ⟨rfl, rfl, hsame'⟩
  | cons call calls ih =>
    have hexec := call.exec_cases hindex hsize error
    have hexec' := @ReadCall.exec_cases pb' (by omega) (by omega) call error
    rw [hsame, hsame'] at hexec'
    rw [XptPacketbuffer.readAll, XptPacketbuffer.readAll]
    rcases hexec with ⟨hroom,hshort,heq⟩ | ⟨hfull,hshort,heq⟩ | ⟨hlong,heq⟩
    · rcases hexec' with ⟨-,-,heq'⟩ | ⟨hfull,-⟩ | ⟨hlong,-⟩
      · have hbytes : readBytes pb'.buffer pb.parserIndex call.size =
            readBytes pb.buffer pb.parserIndex call.size :=
          readBytes_congr fun i hi => hbuffer _ (by omega)
        obtain ⟨hvalues,herrors,hend⟩ := @ih (pb.skip call.size) (pb'.skip call.size) false hroom hsize
          hsame (congrArg (· + call.size) hsame') hbuffer
        rw [heq, heq']
        dsimp only
        rw [hvalues, herrors, hend, hbytes]
        exact ⟨rfl, rfl, rfl⟩
      · omega
      · exact absurd hshort hlong
    · rcases hexec' with ⟨hroom,-⟩ | ⟨-,-,heq'⟩ | ⟨hlong,-⟩
      · omega
      · obtain ⟨hvalues,herrors,hend⟩ := @ih pb.atEnd pb'.atEnd true le_rfl hsize hsame hsame hbuffer
        rw [heq, heq']
        dsimp only
        rw [hvalues, herrors, hend]
        exact ⟨rfl, rfl, rfl⟩
      · exact absurd hshort hlong
    · rcases hexec' with ⟨-,hshort,-⟩ | ⟨-,hshort,-⟩ | ⟨-,heq'⟩
      · exact absurd hshort hlong
      · exact absurd hshort hlong
      · obtain ⟨hvalues,herrors,hend⟩ := @ih pb pb' error hindex hsize hsame hsame' hbuffer
        rw [heq, heq']
        dsimp only
        rw [hvalues, herrors, hend]
        exact ⟨rfl, rfl, rfl⟩

/-- At the end of the packet no call gets away from it. -/
theorem readAll_atEnd (hend : pb.parserIndex = pb.bufferSize)
    (hsize : pb.bufferSize+maxDataSize ≤ 2^32) (calls : List ReadCall) :
    (pb.readAll error calls).2.2.parserIndex = pb.bufferSize := by
  induction calls generalizing pb error with
  | nil => exact hend
  | cons call calls ih =>
    rw [XptPacketbuffer.readAll]
    rcases call.exec_cases hend.le hsize error with ⟨hroom,-,heq⟩ | ⟨-,-,heq⟩ | ⟨-,heq⟩
    · have hzero : call.size = 0 := by omega
      rw [heq]
      exact @ih (pb.skip call.size) false (by rw [hzero]; exact hend) hsize
    · rw [heq]
      exact @ih pb.atEnd true rfl hsize
    · rw [heq]
      exact ih hend hsize

/-- The call reports an error. -/
def ReadCall.Fails (pb : XptPacketbuffer) (call : ReadCall) : Prop := (call.exec pb false).2.1 = true

/-- At the end of the packet a call for at least one byte fails, unless the guard skips it. -/
theorem ReadCall.fails_atEnd (hend : pb.parserIndex = pb.bufferSize)
    (hsize : pb.bufferSize+maxDataSize ≤ 2^32) {call : ReadCall} (hpos : 1 ≤ call.size) :
    call.Fails pb ↔ call.Short := by
  rw [ReadCall.Fails]
  rcases call.exec_cases hend.le hsize false with ⟨hroom,-⟩ | ⟨-,hshort,heq⟩ | ⟨hlong,heq⟩
  · omega
  · rw [heq]
    exact ⟨fun _ => hshort, fun _ => rfl⟩
  · rw [heq]
    exact ⟨fun h => absurd h Bool.false_ne_true, fun h => absurd h hlong⟩

/-- A call that fails leaves the index at the end of the packet. -/
theorem ReadCall.Fails.atEnd (hindex : pb.parserIndex ≤ pb.bufferSize)
    (hsize : pb.bufferSize+maxDataSize ≤ 2^32) {call : ReadCall} (h : call.Fails pb) (error : Bool) :
    (call.exec pb error).2.2 = pb.atEnd := by
  have hshort : call.Short ∧ pb.bufferSize < pb.parserIndex+call.size := by
    rw [ReadCall.Fails] at h
    rcases call.exec_cases hindex hsize false with ⟨-,-,heq⟩ | ⟨hfull,hshort,-⟩ | ⟨-,heq⟩
    · rw [heq] at h
      exact absurd h Bool.false_ne_true
    · exact ⟨hshort, hfull⟩
    · rw [heq] at h
      exact absurd h Bool.false_ne_true
  rcases call.exec_cases hindex hsize error with ⟨hroom,-⟩ | ⟨-,-,heq⟩ | ⟨hlong,-⟩
  · omega
  · rw [heq]
  · exact absurd hshort.1 hlong

end Reading

section RoundTrip
variable {pb : XptPacketbuffer} {opcode : UInt8} {values : List PacketValue}

theorem ReadCall.Fits.spec {call : ReadCall} {value : PacketValue} (h : call.Fits value) :
    call.size = value.bytes.length ∧ (value.Short → call.Short) ∧ call.decode value.bytes = value := by
  cases value with
  | u8 v =>
    cases call <;> try exact h.elim
    refine ⟨rfl, id, ?_⟩
    rw [PacketValue.bytes, ReadCall.decode, littleEndian_numberBytes v.toNat_lt, UInt8.ofNat_toNat]
  | u16 v =>
    cases call <;> try exact h.elim
    refine ⟨rfl, id, ?_⟩
    rw [PacketValue.bytes, ReadCall.decode, littleEndian_numberBytes v.toNat_lt, UInt16.ofNat_toNat]
  | u32 v =>
    cases call <;> try exact h.elim
    refine ⟨rfl, id, ?_⟩
    rw [PacketValue.bytes, ReadCall.decode, littleEndian_numberBytes v.toNat_lt, UInt32.ofNat_toNat]
  | u64 v =>
    cases call <;> try exact h.elim
    refine ⟨rfl, id, ?_⟩
    rw [PacketValue.bytes, ReadCall.decode, littleEndian_numberBytes v.toNat_lt, UInt64.ofNat_toNat]
  | data bytes =>
    cases call with
    | data memory =>
      refine ⟨h, fun hshort => ?_, rfl⟩
      change memory.length < maxDataSize
      rw [show memory.length = bytes.length from h]
      exact hshort
    | _ => exact h.elim

/-- The read functions find the values whose bytes lie ahead. -/
theorem readAll_values {calls : List ReadCall} (hfits : List.Forall₂ ReadCall.Fits calls values)
    (hsize : pb.bufferSize+maxDataSize ≤ 2^32) (hshort : ∀ value ∈ values, value.Short)
    (hroom : pb.parserIndex+(allBytes values).length ≤ pb.bufferSize)
    (hbytes : readBytes pb.buffer pb.parserIndex (allBytes values).length = allBytes values) :
    (pb.readAll false calls).1 = values ∧ (∀ error ∈ (pb.readAll false calls).2.1, error = false) ∧
      (pb.readAll false calls).2.2.parserIndex = pb.parserIndex+(allBytes values).length := by
  induction hfits generalizing pb with
  | nil => exact ⟨rfl, fun error hmem => absurd hmem List.not_mem_nil, rfl⟩
  | @cons call value calls values hfirst hrest ih =>
    obtain ⟨hlen,hcall,hdecode⟩ := hfirst.spec
    have hall : allBytes (value :: values) = value.bytes ++ allBytes values := List.flatMap_cons
    rw [hall, List.length_append] at hroom hbytes ⊢
    rw [readBytes_add] at hbytes
    -- the bytes ahead are those of the first value and those of the others
    obtain ⟨hhead,htail⟩ := List.append_inj hbytes (readBytes_length _ _ _)
    have hcallshort := hcall (hshort value List.mem_cons_self)
    rw [XptPacketbuffer.readAll]
    rcases call.exec_cases (pb.parserIndex.le_add_right _ |>.trans hroom) hsize false with
      ⟨-,-,heq⟩ | ⟨hfull,-⟩ | ⟨hlong,-⟩
    · rw [heq]
      dsimp only
      obtain ⟨hvalues,herrors,hend⟩ := @ih (pb.skip call.size) hsize
        (fun value' hmem => hshort value' (List.mem_cons_of_mem _ hmem))
        (by change pb.parserIndex+call.size+_ ≤ pb.bufferSize; omega)
        (by rw [hlen]; exact htail)
      refine ⟨?_, ?_, ?_⟩
      · rw [hvalues, hlen, hhead, hdecode]
      · intro error hmem
        rcases List.mem_cons.mp hmem with rfl | hmem
        · rfl
        · exact herrors error hmem
      · rw [hend]
        change pb.parserIndex+call.size+_ = _
        rw [hlen, Nat.add_assoc]
    · omega
    · exact absurd hcallshort hlong

/-- The packet that calls without an error or a skip make. -/
theorem writePacket_spec (hlimit : pb.bufferLimit ≤ 2^24) (hshort : ∀ value ∈ values, value.Short)
    (hok : pb.Writes opcode values) :
    (pb.writePacket opcode values).parserIndex = 4+(allBytes values).length ∧
      (allBytes values).length < 2^24 ∧
      littleEndian (readBytes (pb.writePacket opcode values).buffer 0 4) =
        256*(allBytes values).length+opcode.toNat ∧
      readBytes (pb.writePacket opcode values).buffer 4 (allBytes values).length =
        allBytes values := by
  obtain ⟨hwrote,hroom⟩ := @writeAll_wrote (pb.beginWritePacket opcode) hlimit
    (by change 4 ≤ 2^24; decide) values hshort hok
  have hsize : (allBytes values).length < 2^24 := by
    by_cases hnil : values = []
    · rw [hnil]
      decide
    · have hle : 4+(allBytes values).length ≤ pb.bufferLimit := hroom hnil
      omega
  have hopcode : opcode.toNat < 256 := opcode.toNat_lt
  have hmask := and_opcode hopcode
  -- the opcode is still in the first four bytes when the calls are done
  have hheader : littleEndian (readBytes ((pb.beginWritePacket opcode).wrote (allBytes values)).buffer
      0 4) &&& 0x000000ff = opcode.toNat := by
    have hbytes : readBytes ((pb.beginWritePacket opcode).wrote (allBytes values)).buffer 0 4 =
        numberBytes 4 opcode.toNat := by
      have hself := readBytes_writeBytes_self pb.buffer 0 (numberBytes 4 opcode.toNat)
      rw [numberBytes_length] at hself
      rw [← hself]
      apply readBytes_congr
      intro i hi
      rw [XptPacketbuffer.wrote, XptPacketbuffer.beginWritePacket, hmask]
      exact writeBytes_outside (Or.inl (by dsimp only; omega))
    have hfits : opcode.toNat < 256^4 := hopcode.trans (by norm_num)
    rw [hbytes, littleEndian_numberBytes hfits, hmask]
  rw [XptPacketbuffer.writePacket, hwrote]
  have hbits := header_bits hopcode hsize
  have hindex : ((pb.beginWritePacket opcode).wrote (allBytes values)).parserIndex-4 =
      (allBytes values).length := Nat.add_sub_cancel_left 4 _
  generalize hw : (pb.beginWritePacket opcode).wrote (allBytes values) = w at hheader hindex ⊢
  have hfinal : w.finalizeWritePacket = { w with
      buffer := writeBytes w.buffer 0 (numberBytes 4 (256*(allBytes values).length+opcode.toNat)) } := by
    rw [XptPacketbuffer.finalizeWritePacket, hheader, hindex, hbits]
  rw [hfinal]
  refine ⟨?_, hsize, ?_, ?_⟩
  · rw [← hw]
    rfl
  · have hself := readBytes_writeBytes_self w.buffer 0
      (numberBytes 4 (256*(allBytes values).length+opcode.toNat))
    rw [numberBytes_length] at hself
    have hfits : 256*(allBytes values).length+opcode.toNat < 256^4 := by
      norm_num
      omega
    rw [hself, littleEndian_numberBytes hfits]
  · have hbody := readBytes_writeBytes_self (pb.beginWritePacket opcode).buffer 4 (allBytes values)
    rw [← hbody]
    have hlen : (readBytes (writeBytes (pb.beginWritePacket opcode).buffer 4 (allBytes values)) 4
        (allBytes values).length).length = (allBytes values).length := readBytes_length _ _ _
    rw [hlen]
    apply readBytes_congr
    intro i hi
    change writeBytes w.buffer 0 _ (4+i) = _
    rw [writeBytes_outside (Or.inr (by rw [numberBytes_length]; omega)), ← hw]
    rfl

theorem roundTrip_of_short (hlimit : pb.bufferLimit ≤ 2^24)
    (hshort : ∀ value ∈ values, value.Short) (hok : pb.Writes opcode values) :
    pb.RoundTrip opcode values := by
  obtain ⟨hindex,hsize,hheader,hbody⟩ := writePacket_spec hlimit hshort hok
  have hopcode : opcode.toNat < 256 := opcode.toNat_lt
  have hlength : headerSize (256*(allBytes values).length+opcode.toNat) = (allBytes values).length := by
    rw [headerSize]
    omega
  refine ⟨?_, ?_, ?_⟩
  · rw [hheader, headerOpcode]
    omega
  · rw [hheader, hlength, hindex, Nat.add_sub_cancel_left]
  · intro received calls hreceived hbuffer hfits
    rw [hheader, hlength] at hreceived
    have hmax : maxDataSize = 2^24 := by decide
    obtain ⟨hvalues,herrors,hend⟩ := @readAll_values received.beginReadPacket values calls hfits
      (by change received.bufferSize+maxDataSize ≤ 2^32; omega) hshort
      (by change 4+_ ≤ received.bufferSize; omega)
      (by
        change readBytes received.buffer 4 _ = _
        rw [← hbody]
        conv_lhs => rw [hbody]
        exact readBytes_congr fun i hi => hbuffer _ (by omega))
    refine ⟨hvalues, herrors, hend.trans ?_⟩
    change 4+_ = _
    omega

/-- The memory of a read that is not the array it is to hold. -/
def ReadCall.spoiled : PacketValue → ReadCall
  | .u8 _ => .u8
  | .u16 _ => .u16
  | .u32 _ => .u32
  | .u64 _ => .u64
  | .data bytes => .data (bytes.map fun b => b+1)

theorem ReadCall.spoiled_fits (values : List PacketValue) :
    List.Forall₂ ReadCall.Fits (values.map ReadCall.spoiled) values := by
  induction values with
  | nil => exact List.Forall₂.nil
  | cons value values ih =>
    refine List.Forall₂.cons ?_ ih
    cases value with
    | data bytes => exact List.length_map _
    | _ => trivial

/-- A read that the guard skips leaves the memory as it was. -/
theorem short_of_readAll {pb : XptPacketbuffer} {error : Bool}
    (h : (pb.readAll error (values.map ReadCall.spoiled)).1 = values) :
    ∀ value ∈ values, value.Short := by
  induction values generalizing pb error with
  | nil => exact fun value hmem => absurd hmem List.not_mem_nil
  | cons value values ih =>
    rw [List.map_cons, XptPacketbuffer.readAll] at h
    obtain ⟨hfirst,hrest⟩ := List.cons.inj h
    intro value' hmem
    rcases List.mem_cons.mp hmem with rfl | hmem
    · cases value' with
      | data bytes =>
        by_contra hlong
        have hskip : (ReadCall.spoiled (.data bytes)).exec pb error =
            (.data (bytes.map fun b => b+1), error, pb) := by
          rw [ReadCall.spoiled, ReadCall.exec, XptPacketbuffer.readData, List.length_map,
            if_pos (not_lt.mp hlong)]
        rw [hskip] at hfirst
        have hsame : bytes.map (fun b => b+1) = bytes := PacketValue.data.inj hfirst
        cases bytes with
        | nil => exact hlong (by change 0 < maxDataSize; decide)
        | cons b bytes =>
          obtain ⟨hb,-⟩ := List.cons.inj hsame
          have hnat : (b.toNat+1) % 2^8 = b.toNat := by
            conv_rhs => rw [← hb]
            exact (UInt8.toNat_add b 1).symm
          omega
      | _ => trivial
    · exact ih hrest value' hmem

end RoundTrip

section Codec

theorem readAll_append (pb : XptPacketbuffer) (error : Bool) (calls later : List ReadCall) :
    ∃ error', (pb.readAll error (calls ++ later)).2.2 =
      ((pb.readAll error calls).2.2.readAll error' later).2.2 := by
  induction calls generalizing pb error with
  | nil => exact ⟨error, rfl⟩
  | cons call calls ih => exact ih (call.exec pb error).2.2 (call.exec pb error).2.1

/-- A packet comes back as it was written exactly if no byte array of it is as large as the guard.
No read looks behind the packet, and once one has failed every later one for at least one byte
fails, again exactly if the guard does not skip it. No write goes behind the buffer. -/
theorem packet_codec (pb : XptPacketbuffer) :
    (∀ (opcode : UInt8) (values : List PacketValue),
      pb.bufferLimit ≤ 2^24 → pb.Writes opcode values →
      (pb.RoundTrip opcode values ↔ ∀ value ∈ values, value.Short)) ∧
    (∀ calls : List ReadCall, 4 ≤ pb.bufferSize → pb.bufferSize+2^24 ≤ 2^32 →
      (pb.beginReadPacket.readAll false calls).2.2.parserIndex ≤ pb.bufferSize ∧
      (∀ pb' : XptPacketbuffer, pb'.bufferSize = pb.bufferSize →
        (∀ i < pb.bufferSize, pb'.buffer i = pb.buffer i) →
        (pb'.beginReadPacket.readAll false calls).1 = (pb.beginReadPacket.readAll false calls).1 ∧
        (pb'.beginReadPacket.readAll false calls).2.1 =
          (pb.beginReadPacket.readAll false calls).2.1) ∧
      ∀ (call later : ReadCall) (between : List ReadCall),
        call.Fails (pb.beginReadPacket.readAll false calls).2.2 → 1 ≤ later.size →
        (later.Fails (pb.beginReadPacket.readAll false (calls ++ call :: between)).2.2 ↔
          later.Short)) ∧
    (∀ (opcode : UInt8) (values : List PacketValue),
      4 ≤ pb.bufferLimit → pb.bufferLimit ≤ 2^24 →
      ∀ i, pb.bufferLimit ≤ i → (pb.writePacket opcode values).buffer i = pb.buffer i) := by
  refine ⟨?_, ?_, ?_⟩
  · intro opcode values hlimit hok
    constructor
    · intro htrip
      -- a receiver with the bytes of the packet, whose memory holds something else
      obtain ⟨hvalues,-,-⟩ := htrip.read
        { pb.writePacket opcode values with bufferSize := headerSize (littleEndian (readBytes
            (pb.writePacket opcode values).buffer 0 4))+4 } (values.map ReadCall.spoiled) rfl
        (fun _ _ => rfl) (ReadCall.spoiled_fits values)
      exact short_of_readAll hvalues
    · exact fun hshort => roundTrip_of_short hlimit hshort hok
  · intro calls hstart hsize
    have hmax : pb.bufferSize+maxDataSize ≤ 2^32 := hsize
    obtain ⟨hindex,hend⟩ := @readAll_within pb.beginReadPacket false hstart hmax calls
    refine ⟨hindex, fun pb' hsame hbuffer => ?_, fun call later between hfails hpos => ?_⟩
    · obtain ⟨hvalues,herrors,-⟩ := @readAll_congr pb.beginReadPacket pb'.beginReadPacket false hstart
        hmax hsame rfl hbuffer calls
      exact ⟨hvalues, herrors⟩
    · obtain ⟨error,heq⟩ := readAll_append pb.beginReadPacket false calls (call :: between)
      rw [heq, XptPacketbuffer.readAll]
      dsimp only
      have hend' : (pb.beginReadPacket.readAll false calls).2.2.bufferSize = pb.bufferSize := hend
      generalize (pb.beginReadPacket.readAll false calls).2.2 = pb1 at hfails hindex hend'
      rw [hfails.atEnd (hindex.trans hend'.ge) (by omega) error]
      have hsize1 : pb1.atEnd.bufferSize+maxDataSize ≤ 2^32 := by
        change pb1.bufferSize+maxDataSize ≤ 2^32
        omega
      obtain ⟨-,hkeep⟩ := @readAll_within pb1.atEnd (call.exec pb1 error).2.1 le_rfl hsize1 between
      have hstay := @readAll_atEnd pb1.atEnd (call.exec pb1 error).2.1 rfl hsize1 between
      exact ReadCall.fails_atEnd (hstay.trans hkeep.symm) (by omega) hpos
  · intro opcode values hfour hlimit i hi
    obtain ⟨hwithin,-⟩ := @writeAll_within (pb.beginWritePacket opcode) false hlimit hfour values i hi
    rw [XptPacketbuffer.writePacket, XptPacketbuffer.finalizeWritePacket]
    refine (writeBytes_outside (Or.inr ?_)).trans (hwithin.trans (writeBytes_outside (Or.inr ?_)))
    · rw [numberBytes_length]
      omega
    · rw [numberBytes_length]
      omega

/-- The buffer the server sends from. -/
def sendBuffer : XptPacketbuffer := ⟨fun _ => 0, 0, 4096, 0⟩

theorem packet_codec_ping : sendBuffer.RoundTrip 8 [.u64 1400000000000] := by
  have hok : sendBuffer.Writes 8 [.u64 1400000000000] := by
    intro error hmem
    have hflags : ((sendBuffer.beginWritePacket 8).writeAll false [.u64 1400000000000]).1 = [false] := by
      decide +kernel
    rw [hflags] at hmem
    exact List.mem_singleton.mp hmem
  refine ((packet_codec sendBuffer).1 8 [.u64 1400000000000] (by norm_num [sendBuffer]) hok).mpr ?_
  intro value hmem
  obtain rfl := List.mem_singleton.mp hmem
  trivial

private theorem data_lost {pb : XptPacketbuffer} {opcode : UInt8} {bytes : List UInt8}
    (hlong : bytes.length ≥ maxDataSize) : pb.Writes opcode [.data bytes] ∧
      ¬ pb.RoundTrip opcode [.data bytes] := by
  constructor
  · intro error hmem
    rw [XptPacketbuffer.writeAll, PacketValue.write, XptPacketbuffer.writeData, if_pos hlong] at hmem
    exact List.mem_singleton.mp hmem
  · intro htrip
    obtain ⟨hvalues,-,-⟩ := htrip.read
      { pb.writePacket opcode [.data bytes] with
        bufferSize := headerSize (littleEndian (readBytes
          (pb.writePacket opcode [.data bytes]).buffer 0 4))+4 }
      _ rfl (fun _ _ => rfl) (ReadCall.spoiled_fits _)
    exact absurd (short_of_readAll hvalues (.data bytes) List.mem_cons_self) (not_lt.mpr hlong)

/-- A byte array of 16 MiB does not fit into the buffer, and yet no error is reported. -/
theorem large_data_lost : sendBuffer.Writes 8 [.data (List.replicate (2^24) 0)] ∧
    ¬ sendBuffer.RoundTrip 8 [.data (List.replicate (2^24) 0)] := by
  apply data_lost
  rw [List.length_replicate]
  norm_num [maxDataSize]

end Codec

end Candypool.Pool
