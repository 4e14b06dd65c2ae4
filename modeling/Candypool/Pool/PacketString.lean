import Candypool.Pool.Packet
import Mathlib.Data.List.TakeWhile

/-! Strings in a packet: a length of one or two bytes and the characters. The reader and the writer
take the width of the length from the same parameter, but not the longest string. -/
namespace Candypool.Pool
open Candypool.Core

/-- `strlen` as an `uint32_t`. -/
def strlen (stringData : List UInt8) : ℕ := (stringData.takeWhile (· ≠ 0)).length % 2^32

namespace XptPacketbuffer
variable (pb : XptPacketbuffer)

/-- `xptPacketbuffer_writeString`. -/
def writeString (stringData : List UInt8) (maxStringLength : ℕ) : Bool × XptPacketbuffer :=
  if maxStringLength = 0 ∨ maxStringLength > 0xffff then (true, pb)
  else
    -- the '\0' at the end counts
    let maxStringLength := maxStringLength-1
    let stringLength := strlen stringData
    if stringLength > maxStringLength then (true, pb)
    else
      let fullLength := if maxStringLength ≤ 0xff then stringLength+1 else stringLength+2
      if (pb.parserIndex+fullLength) % 2^32 > pb.bufferLimit then (true, pb)
      else
        let size := if maxStringLength ≤ 0xff then 1 else 2
        let pb := { pb with
          buffer := writeBytes pb.buffer pb.parserIndex (numberBytes size stringLength)
          parserIndex := (pb.parserIndex+size) % 2^32 }
        (false, { pb with
          buffer := writeBytes pb.buffer pb.parserIndex (stringData.take stringLength)
          parserIndex := (pb.parserIndex+stringLength) % 2^32 })

/-- The length in front of a string, with the error flag. -/
def readStringLength (maxStringLength : ℕ) : ℕ × Bool × XptPacketbuffer :=
  if maxStringLength ≤ 0xff then (pb.readU8.1.toNat, pb.readU8.2)
  else (pb.readU16.1.toNat, pb.readU16.2)

/-- `xptPacketbuffer_readString` into the memory at `stringData`. -/
def readString (stringData : ℕ → UInt8) (maxStringLength : ℕ) :
    (ℕ → UInt8) × Bool × XptPacketbuffer :=
  if maxStringLength = 0 ∨ maxStringLength > 0xffff then (stringData, true, pb)
  else
    let maxStringLength := maxStringLength-1
    let (stringLength,error,pb) := pb.readStringLength maxStringLength
    if error then (stringData, true, pb)
    else if stringLength ≥ maxStringLength then (stringData, true, pb)
    else if (pb.parserIndex+stringLength) % 2^32 > pb.bufferSize then (stringData, true, pb)
    else
      let stringData := writeBytes stringData 0 (readBytes pb.buffer pb.parserIndex stringLength)
      (writeBytes stringData stringLength [0], false,
        { pb with parserIndex := (pb.parserIndex+stringLength) % 2^32 })

/-- The string that was written comes back, with its terminator in `m` bytes, wherever its bytes
arrive. -/
def StringRoundTrip (stringData : List UInt8) (maxStringLength : ℕ) : Prop :=
  let written := (pb.writeString stringData maxStringLength).2
  let size := written.parserIndex-pb.parserIndex
  ∀ (received : XptPacketbuffer) (memory : ℕ → UInt8),
    received.parserIndex+size ≤ received.bufferSize → received.bufferSize+maxDataSize ≤ 2^32 →
    (∀ i < size, received.buffer (received.parserIndex+i) = written.buffer (pb.parserIndex+i)) →
    let result := received.readString memory maxStringLength
    result.2.1 = false ∧ stringData.length+1 ≤ maxStringLength ∧
      readBytes result.1 0 (stringData.length+1) = stringData ++ [0] ∧
      result.2.2.parserIndex = received.parserIndex+size

/-- The reader writes at most `m` bytes, and nothing from behind the packet makes a difference. -/
structure ReadStringWithin (memory : ℕ → UInt8) (m : ℕ) : Prop where
  outside : ∀ i ≥ m, (pb.readString memory m).1 i = memory i
  index : (pb.readString memory m).2.2.parserIndex ≤ pb.bufferSize
  behind : ∀ pb' : XptPacketbuffer,
    pb'.bufferSize = pb.bufferSize → pb'.parserIndex = pb.parserIndex →
    (∀ i < pb.bufferSize, pb'.buffer i = pb.buffer i) →
    (pb'.readString memory m).1 = (pb.readString memory m).1 ∧
    (pb'.readString memory m).2.1 = (pb.readString memory m).2.1 ∧
    (pb'.readString memory m).2.2.parserIndex = (pb.readString memory m).2.2.parserIndex

end XptPacketbuffer

/-- The bytes of the length. -/
def lengthSize (maxStringLength : ℕ) : ℕ := if maxStringLength-1 ≤ 0xff then 1 else 2

section Strings
variable {pb pb' : XptPacketbuffer} {m : ℕ}

theorem lengthSize_le (m : ℕ) : 1 ≤ lengthSize m ∧ lengthSize m ≤ 2 := by
  rw [lengthSize]
  split_ifs <;> decide

/-- A length that the writer admits fits its bytes. -/
theorem lt_pow_lengthSize {n : ℕ} (hm : m ≤ 0xffff) (hn : n ≤ m-1) : n < 256^lengthSize m := by
  rw [lengthSize]
  split_ifs <;> omega

theorem readStringLength_cases (hindex : pb.parserIndex ≤ pb.bufferSize)
    (hsize : pb.bufferSize+maxDataSize ≤ 2^32) (m : ℕ) :
    (pb.parserIndex+lengthSize m ≤ pb.bufferSize ∧ pb.readStringLength (m-1) =
      (littleEndian (readBytes pb.buffer pb.parserIndex (lengthSize m)) % 256^lengthSize m, false,
        pb.skip (lengthSize m))) ∨
    (pb.bufferSize < pb.parserIndex+lengthSize m ∧
      pb.readStringLength (m-1) = (0, true, pb.atEnd)) := by
  rw [XptPacketbuffer.readStringLength, lengthSize]
  split_ifs
  · rw [XptPacketbuffer.readU8]
    rcases readNumber_cases hindex hsize (by decide : 1 ≤ 8) with ⟨hroom,heq⟩ | ⟨hfull,heq⟩
    · rw [heq]
      exact Or.inl ⟨hroom,rfl⟩
    · rw [heq]
      exact Or.inr ⟨hfull,rfl⟩
  · rw [XptPacketbuffer.readU16]
    rcases readNumber_cases hindex hsize (by decide : 2 ≤ 8) with ⟨hroom,heq⟩ | ⟨hfull,heq⟩
    · rw [heq]
      exact Or.inl ⟨hroom,rfl⟩
    · rw [heq]
      exact Or.inr ⟨hfull,rfl⟩

/-- What the reader does with what lies ahead, in plain numbers. -/
theorem readString_eq (hindex : pb.parserIndex ≤ pb.bufferSize)
    (hsize : pb.bufferSize+maxDataSize ≤ 2^32) (hm : 1 ≤ m ∧ m ≤ 0xffff) (memory : ℕ → UInt8) :
    pb.readString memory m =
      if pb.bufferSize < pb.parserIndex+lengthSize m then (memory, true, pb.atEnd)
      else
        let n := littleEndian (readBytes pb.buffer pb.parserIndex (lengthSize m)) %
          256^lengthSize m
        if m-1 ≤ n ∨ pb.bufferSize < pb.parserIndex+lengthSize m+n then
          (memory, true, pb.skip (lengthSize m))
        else (writeBytes (writeBytes memory 0
          (readBytes pb.buffer (pb.parserIndex+lengthSize m) n)) n [0], false,
          (pb.skip (lengthSize m)).skip n) := by
  have hmax : maxDataSize = 2^24 := by decide
  rw [XptPacketbuffer.readString, if_neg (by omega)]
  dsimp only
  rcases readStringLength_cases hindex hsize m with ⟨hroom,heq⟩ | ⟨hfull,heq⟩
  · rw [heq, if_neg (not_lt.mpr hroom)]
    dsimp only
    rw [if_neg Bool.false_ne_true]
    generalize littleEndian (readBytes pb.buffer pb.parserIndex (lengthSize m)) %
      256^lengthSize m = n
    by_cases hlong : n ≥ m-1
    · rw [if_pos hlong, if_pos (Or.inl hlong)]
    · have hwrap : ((pb.skip (lengthSize m)).parserIndex+n) % 2^32 =
          pb.parserIndex+lengthSize m+n := Nat.mod_eq_of_lt (by
        change pb.parserIndex+lengthSize m+n < 2^32
        omega)
      have hsame : (pb.skip (lengthSize m)).bufferSize = pb.bufferSize := rfl
      rw [if_neg hlong, hwrap, hsame]
      by_cases hend : pb.parserIndex+lengthSize m+n > pb.bufferSize
      · rw [if_pos hend, if_pos (Or.inr hend)]
      · rw [if_neg hend, if_neg (by omega)]
        rfl
  · rw [heq, if_pos hfull]
    rfl

/-- What the writer does when it reports no error. -/
theorem writeString_ok {s : List UInt8} (hzero : 0 ∉ s) (hlimit : pb.bufferLimit ≤ 2^24)
    (hindex : pb.parserIndex ≤ pb.bufferLimit) (hm : 1 ≤ m ∧ m ≤ 0xffff)
    (hok : (pb.writeString s m).1 = false) : s.length % 2^32 ≤ m-1 ∧
      pb.parserIndex+(lengthSize m+s.length % 2^32) ≤ pb.bufferLimit ∧
      (pb.writeString s m).2 = pb.wrote (numberBytes (lengthSize m) (s.length % 2^32) ++
        s.take (s.length % 2^32)) := by
  -- without a zero in it the string is read to its end
  have hstrlen : strlen s = s.length % 2^32 := by
    have hall : s.takeWhile (· ≠ 0) = s := by
      apply List.takeWhile_eq_self_iff.mpr
      intro chData hmem
      exact decide_eq_true (ne_of_mem_of_not_mem hmem hzero)
    rw [strlen, hall]
  have hlen := lengthSize_le m
  have htake : (s.take (s.length % 2^32)).length = s.length % 2^32 := by
    rw [List.length_take]
    exact min_eq_left (Nat.mod_le _ _)
  rw [XptPacketbuffer.writeString, if_neg (by omega), hstrlen] at hok ⊢
  generalize s.length % 2^32 = n at hok htake ⊢
  dsimp only at hok ⊢
  by_cases hlong : n > m-1
  · rw [if_pos hlong] at hok
    exact absurd hok.symm Bool.false_ne_true
  have hsize : (if m-1 ≤ 0xff then 1 else 2) = lengthSize m := rfl
  have hfull : (if m-1 ≤ 0xff then n+1 else n+2) = lengthSize m+n := by
    rw [lengthSize]
    split_ifs <;> exact Nat.add_comm _ _
  -- nothing wraps around below the limit
  have hwrap : (pb.parserIndex+(lengthSize m+n)) % 2^32 = pb.parserIndex+(lengthSize m+n) :=
    Nat.mod_eq_of_lt (by omega)
  rw [if_neg hlong, hfull, hsize, hwrap] at hok ⊢
  by_cases hroom : pb.parserIndex+(lengthSize m+n) > pb.bufferLimit
  · rw [if_pos hroom] at hok
    exact absurd hok.symm Bool.false_ne_true
  refine ⟨not_lt.mp hlong,not_lt.mp hroom,?_⟩
  have hlength : (pb.parserIndex+lengthSize m) % 2^32 = pb.parserIndex+lengthSize m :=
    Nat.mod_eq_of_lt (by omega)
  have hend : (pb.parserIndex+lengthSize m+n) % 2^32 = pb.parserIndex+lengthSize m+n :=
    Nat.mod_eq_of_lt (by omega)
  rw [if_neg hroom, ← wrote_wrote, hlength, hend]
  simp only [XptPacketbuffer.wrote, numberBytes_length, htake]

/-- The bytes of a string that lie ahead. -/
theorem readString_ahead {n : ℕ} {bytes : List UInt8} (hbytes : bytes.length = n)
    (hm : 1 ≤ m ∧ m ≤ 0xffff) (hn : n ≤ m-1) (hsize : pb.bufferSize+maxDataSize ≤ 2^32)
    (hroom : pb.parserIndex+(lengthSize m+n) ≤ pb.bufferSize)
    (hahead : readBytes pb.buffer pb.parserIndex (lengthSize m+n) =
      numberBytes (lengthSize m) n ++ bytes) (memory : ℕ → UInt8) :
    pb.readString memory m = if m-1 ≤ n then (memory, true, pb.skip (lengthSize m))
      else (writeBytes (writeBytes memory 0 bytes) n [0], false,
        (pb.skip (lengthSize m)).skip n) := by
  rw [readBytes_add] at hahead
  obtain ⟨hlength,hrest⟩ := List.append_inj hahead
    ((readBytes_length _ _ _).trans (numberBytes_length _ _).symm)
  have hfits := lt_pow_lengthSize hm.2 hn
  rw [readString_eq (by omega) hsize hm, if_neg (by omega), hlength, littleEndian_numberBytes hfits,
    Nat.mod_eq_of_lt hfits]
  dsimp only
  rw [hrest]
  by_cases hlong : m-1 ≤ n
  · rw [if_pos hlong, if_pos (Or.inl hlong)]
  · rw [if_neg hlong, if_neg (by omega)]

/-- Of the strings that the writer takes, the reader takes those that are shorter by one. -/
theorem stringRoundTrip_iff {s : List UInt8} (hzero : 0 ∉ s) (hlimit : pb.bufferLimit ≤ 2^24)
    (hindex : pb.parserIndex ≤ pb.bufferLimit) (hm : 1 ≤ m ∧ m ≤ 65535)
    (hok : (pb.writeString s m).1 = false) : pb.StringRoundTrip s m ↔ s.length+1 < m := by
  have hmax : maxDataSize = 2^24 := by decide
  obtain ⟨hle,hroom,hwrote⟩ := writeString_ok hzero hlimit hindex hm hok
  have hbytes : (s.take (s.length % 2^32)).length = s.length % 2^32 := by
    rw [List.length_take]
    exact min_eq_left (Nat.mod_le _ _)
  -- a packet that holds what was written
  have hahead {received : XptPacketbuffer} (hsame : ∀ i < lengthSize m+s.length % 2^32,
      received.buffer (received.parserIndex+i) =
        (pb.writeString s m).2.buffer (pb.parserIndex+i)) :
      readBytes received.buffer received.parserIndex (lengthSize m+s.length % 2^32) =
        numberBytes (lengthSize m) (s.length % 2^32) ++ s.take (s.length % 2^32) := by
    have hself := readBytes_writeBytes_self pb.buffer pb.parserIndex
      (numberBytes (lengthSize m) (s.length % 2^32) ++ s.take (s.length % 2^32))
    rw [List.length_append, numberBytes_length, hbytes] at hself
    rw [← hself]
    apply List.map_congr_left
    intro i hi
    rw [hsame i (List.mem_range.mp hi), hwrote]
    rfl
  have hspan : (pb.writeString s m).2.parserIndex-pb.parserIndex =
      lengthSize m+s.length % 2^32 := by
    rw [hwrote, XptPacketbuffer.wrote, List.length_append, numberBytes_length, hbytes]
    exact Nat.add_sub_cancel_left _ _
  rw [XptPacketbuffer.StringRoundTrip]
  dsimp only
  rw [hspan]
  constructor
  · intro hback
    obtain ⟨herror,hfit,-⟩ := hback
      { (pb.writeString s m).2 with
        parserIndex := pb.parserIndex
        bufferSize := pb.parserIndex+(lengthSize m+s.length % 2^32) } (fun _ => 0) le_rfl
      (by dsimp only; omega) (fun _ _ => rfl)
    rw [readString_ahead hbytes hm hle (by dsimp only; omega) le_rfl
      (hahead fun _ _ => rfl)] at herror
    have hlong : ¬ m-1 ≤ s.length % 2^32 := by
      intro hlong
      rw [if_pos hlong] at herror
      exact Bool.false_ne_true herror.symm
    omega
  · intro hshort received memory hroom hsize hsame
    have hmod : s.length % 2^32 = s.length := Nat.mod_eq_of_lt (by omega)
    rw [readString_ahead hbytes hm hle hsize hroom (hahead hsame), if_neg (by omega), hmod,
      List.take_length]
    refine ⟨rfl,by omega,?_,?_⟩
    · have hwhole := readBytes_writeBytes (writeBytes memory 0 s) s.length [0]
      have hself := readBytes_writeBytes_self memory 0 s
      rw [hself] at hwhole
      exact hwhole
    · change received.parserIndex+lengthSize m+s.length = _
      exact Nat.add_assoc _ _ _

theorem readString_within (hindex : pb.parserIndex ≤ pb.bufferSize)
    (hsize : pb.bufferSize+maxDataSize ≤ 2^32) (memory : ℕ → UInt8) (m : ℕ) :
    pb.ReadStringWithin memory m := by
  by_cases hm : 1 ≤ m ∧ m ≤ 0xffff
  · refine ⟨?_,?_,?_⟩
    · intro i hi
      rw [readString_eq hindex hsize hm]
      dsimp only
      split_ifs with hfull hlong
      · rfl
      · rfl
      · have hlast : m-1 > littleEndian (readBytes pb.buffer pb.parserIndex (lengthSize m)) %
            256^lengthSize m := by omega
        dsimp only
        rw [writeBytes_outside (Or.inr (by rw [List.length_singleton]; omega)),
          writeBytes_outside (Or.inr (by rw [readBytes_length]; omega))]
    · rw [readString_eq hindex hsize hm]
      dsimp only
      split_ifs with hfull hlong
      · exact le_rfl
      · exact not_lt.mp hfull
      · exact not_lt.mp fun hlt => hlong (Or.inr hlt)
    · intro pb' hsame hsame' hbuffer
      rw [readString_eq hindex hsize hm, readString_eq (by omega) (by omega) hm, hsame, hsame']
      by_cases hfull : pb.bufferSize < pb.parserIndex+lengthSize m
      · rw [if_pos hfull, if_pos hfull]
        exact ⟨rfl,rfl,hsame⟩
      · have hlength : readBytes pb'.buffer pb.parserIndex (lengthSize m) =
            readBytes pb.buffer pb.parserIndex (lengthSize m) :=
          readBytes_congr fun i hi => hbuffer _ (by omega)
        rw [if_neg hfull, if_neg hfull, hlength]
        generalize littleEndian (readBytes pb.buffer pb.parserIndex (lengthSize m)) %
          256^lengthSize m = n
        dsimp only
        by_cases hlong : m-1 ≤ n ∨ pb.bufferSize < pb.parserIndex+lengthSize m+n
        · rw [if_pos hlong, if_pos hlong]
          exact ⟨rfl,rfl,congrArg (· + lengthSize m) hsame'⟩
        · have hchars : readBytes pb'.buffer (pb.parserIndex+lengthSize m) n =
              readBytes pb.buffer (pb.parserIndex+lengthSize m) n :=
            readBytes_congr fun i hi => hbuffer _ (by omega)
          rw [if_neg hlong, if_neg hlong, hchars]
          exact ⟨rfl,rfl,congrArg (· + lengthSize m+n) hsame'⟩
  · have hrefused (pb : XptPacketbuffer) : pb.readString memory m = (memory, true, pb) := by
      rw [XptPacketbuffer.readString, if_pos (by omega)]
    refine ⟨fun _ _ => by rw [hrefused],by rwa [hrefused],?_⟩
    intro pb' _ hsame' _
    rw [hrefused, hrefused]
    exact ⟨rfl,rfl,hsame'⟩

/-- A string that was written comes back exactly if the two limits leave it a byte; what the reader
touches is within its bounds whatever is in the packet. -/
theorem string_codec_iff {s : List UInt8} (hzero : 0 ∉ s) (hlimit : pb.bufferLimit ≤ 2^24)
    (hindex : pb.parserIndex ≤ pb.bufferLimit) (hm : 1 ≤ m ∧ m ≤ 65535)
    (hok : (pb.writeString s m).1 = false) :
    (pb.StringRoundTrip s m ↔ s.length+1 < m) ∧
    ∀ (received : XptPacketbuffer) (memory : ℕ → UInt8),
      received.parserIndex ≤ received.bufferSize → received.bufferSize+maxDataSize ≤ 2^32 →
      received.ReadStringWithin memory m := by
  refine ⟨stringRoundTrip_iff hzero hlimit hindex hm hok,?_⟩
  intro received memory hreceived hsize
  exact readString_within hreceived hsize memory m

/-- Three characters and the terminator in four bytes: written, and refused by the reader. -/
theorem string_longest_lost : (0 : UInt8) ∉ [97,98,99] ∧
    (sendBuffer.writeString [97,98,99] 4).1 = false ∧
    ¬ sendBuffer.StringRoundTrip [97,98,99] 4 := by
  refine ⟨by decide,by decide +kernel,?_⟩
  intro hback
  have herror := (hback { (sendBuffer.writeString [97,98,99] 4).2 with
    parserIndex := 0, bufferSize := 4 } (fun _ => 0) (by decide +kernel) (by decide)
    (fun _ _ => rfl)).1
  revert herror
  decide +kernel

/-- With one more byte it comes back. -/
theorem string_codec_iff_shorter : sendBuffer.StringRoundTrip [97,98,99] 5 :=
  (@string_codec_iff sendBuffer 5 [97,98,99] (by decide) (by decide) (by decide) (by decide)
    (by decide +kernel)).1.mpr (by decide)

end Strings

end Candypool.Pool
