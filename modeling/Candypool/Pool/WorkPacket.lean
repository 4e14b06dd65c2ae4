import Candypool.Pool.PacketHandlers

/-! The packet that carries work to a miner: `xptServer_sendBlockData` from the result of
`xptCallback_generateWork` on. The number of workloads is the one that the miner asked for. -/
namespace Candypool.Pool
open Candypool.Prime Candypool.Core

/-- `XPT_OPC_S_WORKDATA1`. -/
def opcWorkData : UInt8 := 3

/-- The fields in the order of the packet. -/
def workValues (info : BlockWorkInfo) (payloadNum : ℕ) (merkleRoot : ℕ → Uint256) :
    List PacketValue :=
  [.u32 (UInt32.ofNat info.version), .u32 (UInt32.ofNat info.height),
    .u32 (UInt32.ofNat info.nBits.toNat), .u32 (UInt32.ofNat info.nBitsShare.toNat),
    .u32 (UInt32.ofNat info.nTime), .data (serializeUint256 info.prevBlock),
    .u32 (UInt32.ofNat payloadNum)] ++
  (List.range payloadNum).map fun i => .data (serializeUint256 (merkleRoot i))

namespace XptPacketbuffer

/-- Calls that write, up to the first that reports an error. -/
def writeUntilError (pb : XptPacketbuffer) : List PacketValue → Bool × XptPacketbuffer
  | [] => (false, pb)
  | value :: values =>
    let (sendError,pb) := value.write pb false
    if sendError then (true, pb) else writeUntilError pb values

/-- `xptServer_sendBlockData` behind the call of `xptCallback_generateWork`: what is sent, or
nothing after a write error. -/
def sendWork (sendBuffer : XptPacketbuffer) (info : BlockWorkInfo) (payloadNum : ℕ)
    (merkleRoot : ℕ → Uint256) : Option XptPacketbuffer :=
  let (sendError,sendBuffer) := (sendBuffer.beginWritePacket opcWorkData).writeUntilError
    (workValues info payloadNum merkleRoot)
  if sendError then none else some sendBuffer.finalizeWritePacket

/-- A packet is sent, and a receiver that reads the fields finds them. -/
def DeliversWork (sendBuffer : XptPacketbuffer) (info : BlockWorkInfo) (payloadNum : ℕ)
    (merkleRoot : ℕ → Uint256) : Prop :=
  sendBuffer.sendWork info payloadNum merkleRoot =
    some (sendBuffer.writePacket opcWorkData (workValues info payloadNum merkleRoot)) ∧
  sendBuffer.RoundTrip opcWorkData (workValues info payloadNum merkleRoot)

end XptPacketbuffer

section Work
variable {pb : XptPacketbuffer} {info : BlockWorkInfo} {payloadNum : ℕ} {merkleRoot : ℕ → Uint256}

/-- Stopping at the first error makes no difference when there is none. -/
theorem writeUntilError_eq (values : List PacketValue) :
    ((∀ error ∈ (pb.writeAll false values).1, error = false) →
      pb.writeUntilError values = (false, (pb.writeAll false values).2)) ∧
    ((pb.writeUntilError values).1 = false →
      ∀ error ∈ (pb.writeAll false values).1, error = false) := by
  induction values generalizing pb with
  | nil => exact ⟨fun _ => rfl,fun _ error hmem => absurd hmem List.not_mem_nil⟩
  | cons value values ih =>
    rw [XptPacketbuffer.writeAll, XptPacketbuffer.writeUntilError]
    generalize value.write pb false = result
    obtain ⟨sendError,pb'⟩ := result
    dsimp only
    obtain ⟨hall,hstop⟩ := @ih pb'
    constructor
    · intro hok
      obtain rfl : sendError = false := hok _ List.mem_cons_self
      rw [if_neg Bool.false_ne_true]
      exact hall fun error hmem => hok error (List.mem_cons_of_mem _ hmem)
    · intro hdone
      cases sendError with
      | true => exact absurd hdone.symm Bool.false_ne_true
      | false =>
        rw [if_neg Bool.false_ne_true] at hdone
        intro error hmem
        rcases List.mem_cons.mp hmem with rfl | hmem
        · rfl
        · exact hstop hdone error hmem

theorem workValues_short : ∀ value ∈ workValues info payloadNum merkleRoot, value.Short := by
  have hhash (hash : Uint256) : (PacketValue.data (serializeUint256 hash)).Short := by
    change (serializeUint256 hash).length < maxDataSize
    rw [serializeUint256, numberBytes_length]
    decide
  rw [workValues]
  intro value hmem
  rcases List.mem_append.mp hmem with hmem | hmem
  · simp only [List.mem_cons, List.not_mem_nil, or_false] at hmem
    rcases hmem with rfl | rfl | rfl | rfl | rfl | rfl | rfl <;> first | trivial | exact hhash _
  · obtain ⟨i,-,rfl⟩ := List.mem_map.mp hmem
    exact hhash _

/-- The block info, and 32 bytes for each workload. -/
theorem workValues_length : (allBytes (workValues info payloadNum merkleRoot)).length =
    56+32*payloadNum := by
  have hroots (is : List ℕ) : (allBytes (is.map fun i =>
      PacketValue.data (serializeUint256 (merkleRoot i)))).length = 32*is.length := by
    induction is with
    | nil => rfl
    | cons i is ih =>
      have hcons : allBytes ((i :: is).map fun i =>
          PacketValue.data (serializeUint256 (merkleRoot i))) =
          serializeUint256 (merkleRoot i) ++ allBytes (is.map fun i =>
            PacketValue.data (serializeUint256 (merkleRoot i))) := List.flatMap_cons
      rw [hcons, List.length_append, ih, serializeUint256, numberBytes_length, List.length_cons]
      ring
  rw [workValues, allBytes, List.flatMap_append, List.length_append]
  have hrest := hroots (List.range payloadNum)
  rw [allBytes, List.length_range] at hrest
  rw [hrest]
  simp only [List.flatMap_cons, List.flatMap_nil, PacketValue.bytes, serializeUint256,
    List.length_append, List.length_nil, numberBytes_length]

theorem write_of_room (hindex : pb.parserIndex ≤ 2^24) {value : PacketValue} (hshort : value.Short)
    (hroom : pb.parserIndex+value.bytes.length ≤ pb.bufferLimit) :
    value.write pb false = (false, pb.wrote value.bytes) := by
  have hnumber {size v : ℕ} (hsize : size ≤ 8)
      (hroom : pb.parserIndex+(numberBytes size v).length ≤ pb.bufferLimit) :
      pb.writeNumber size v = (false, pb.wrote (numberBytes size v)) := by
    rcases writeNumber_cases hindex hsize v with ⟨-,heq⟩ | ⟨hfull,-⟩
    · exact heq
    · rw [numberBytes_length] at hroom
      omega
  cases value with
  | u8 v => exact hnumber (by decide) hroom
  | u16 v => exact hnumber (by decide) hroom
  | u32 v => exact hnumber (by decide) hroom
  | u64 v => exact hnumber (by decide) hroom
  | data bytes =>
    have hlong : ¬ bytes.length ≥ maxDataSize := not_le.mpr hshort
    have hmax : maxDataSize = 2^24 := by decide
    have hfit : pb.parserIndex+bytes.length ≤ pb.bufferLimit := hroom
    have hwrap : (pb.parserIndex+bytes.length) % 2^32 = pb.parserIndex+bytes.length :=
      Nat.mod_eq_of_lt (by omega)
    rw [PacketValue.write, XptPacketbuffer.writeData, if_neg hlong, hwrap,
      if_neg (not_lt.mpr hfit)]
    rfl

/-- Values that the guard lets pass are written without an error exactly if there is room. -/
theorem writeAll_ok_iff (hlimit : pb.bufferLimit ≤ 2^24) (hindex : pb.parserIndex ≤ pb.bufferLimit)
    {values : List PacketValue} (hshort : ∀ value ∈ values, value.Short) :
    (∀ error ∈ (pb.writeAll false values).1, error = false) ↔
      pb.parserIndex+(allBytes values).length ≤ pb.bufferLimit := by
  constructor
  · intro hok
    obtain ⟨-,hroom⟩ := writeAll_wrote hlimit (hindex.trans hlimit) hshort hok
    by_cases hnil : values = []
    · rw [hnil]
      exact hindex
    · exact hroom hnil
  · intro hroom
    induction values generalizing pb with
    | nil => exact fun error hmem => absurd hmem List.not_mem_nil
    | cons value values ih =>
      have hall : allBytes (value :: values) = value.bytes ++ allBytes values := List.flatMap_cons
      rw [hall, List.length_append] at hroom
      have hfirst := write_of_room (hindex.trans hlimit) (hshort value List.mem_cons_self)
        (by omega)
      rw [XptPacketbuffer.writeAll, hfirst]
      intro error hmem
      rcases List.mem_cons.mp hmem with rfl | hmem
      · rfl
      · refine @ih (pb.wrote value.bytes) hlimit ?_ ?_ ?_ error hmem
        · change pb.parserIndex+value.bytes.length ≤ pb.bufferLimit
          omega
        · exact fun value' hmem' => hshort value' (List.mem_cons_of_mem _ hmem')
        · change pb.parserIndex+value.bytes.length+_ ≤ pb.bufferLimit
          omega

theorem deliversWork_iff (hlimit : pb.bufferLimit = 4096) :
    pb.DeliversWork info payloadNum merkleRoot ↔ payloadNum ≤ 126 := by
  have hle : pb.bufferLimit ≤ 2^24 := by omega
  have hstart : (pb.beginWritePacket opcWorkData).parserIndex ≤
      (pb.beginWritePacket opcWorkData).bufferLimit := by
    change 4 ≤ pb.bufferLimit
    omega
  have hok := @writeAll_ok_iff (pb.beginWritePacket opcWorkData) hle hstart
    (workValues info payloadNum merkleRoot) workValues_short
  rw [workValues_length, show (pb.beginWritePacket opcWorkData).parserIndex = 4 from rfl,
    show (pb.beginWritePacket opcWorkData).bufferLimit = 4096 from hlimit] at hok
  obtain ⟨hsame,hstop⟩ := @writeUntilError_eq (pb.beginWritePacket opcWorkData)
    (workValues info payloadNum merkleRoot)
  constructor
  · rintro ⟨hsend,-⟩
    have hdone : ((pb.beginWritePacket opcWorkData).writeUntilError
        (workValues info payloadNum merkleRoot)).1 = false := by
      rw [XptPacketbuffer.sendWork] at hsend
      by_contra herror
      dsimp only at hsend
      rw [if_pos (Bool.not_eq_false _ ▸ herror)] at hsend
      exact absurd hsend.symm (Option.some_ne_none _)
    have hroom := hok.mp (hstop hdone)
    omega
  · intro hnum
    have hwrites : pb.Writes opcWorkData (workValues info payloadNum merkleRoot) :=
      hok.mpr (by omega)
    refine ⟨?_,roundTrip_of_short hle workValues_short hwrites⟩
    rw [XptPacketbuffer.sendWork, hsame hwrites]
    rfl

/-- A miner that has logged in asks for 1 to 128 workloads, and gets its work exactly if it asked
for no more than 126, whatever the work is. -/
theorem work_delivered_iff {client : WorkClient} {cpb : XptPacketbuffer} {request : AuthRequest}
    (hstart : 4 ≤ cpb.bufferSize) (hsize : cpb.bufferSize+maxDataSize ≤ 2^32)
    (hlogin : (processAuthRequest client cpb).1 = some request) :
    (1 ≤ request.payloadNum ∧ request.payloadNum ≤ 128) ∧
    ∀ (worker : ℕ × ℕ) (sendBuffer : XptPacketbuffer), sendBuffer.bufferLimit = 4096 →
      ∀ (info : BlockWorkInfo) (merkleRoot : ℕ → Uint256),
        sendBuffer.DeliversWork info (acceptLogin client worker request).payloadNum merkleRoot ↔
          request.payloadNum ≤ 126 := by
  constructor
  · rw [processAuthRequest] at hlogin
    split_ifs at hlogin
    exact (readAuthRequest_sound hstart hsize).2 request hlogin
  · intro worker sendBuffer hlimit info merkleRoot
    exact deliversWork_iff hlimit

/-- A client before its login. -/
def visitorClient : WorkClient := { minerClient with loggedIn := false }

/-- The login of a worker "a" with the password "b". -/
def loginPacket (payloadNum : UInt8) : XptPacketbuffer :=
  { buffer := fun i => [0,0,0,0,0,0,0,0,1,97,1,98,payloadNum,0,0,0].getD i 0
    parserIndex := 0, bufferLimit := 4096, bufferSize := 16 }

def testInfo : BlockWorkInfo := ⟨1,2,1400000000,poolDifficult,poolDifficult,0⟩

theorem work_delivered_iff_most : sendBuffer.DeliversWork testInfo 126 fun _ => 0 := by
  have hlogin : (processAuthRequest visitorClient (loginPacket 126)).1 = some ⟨[97],[98],126⟩ := by
    decide +kernel
  exact ((work_delivered_iff (by decide) (by decide) hlogin).2 (1,1) sendBuffer rfl testInfo
    fun _ => 0).mpr (by decide)

/-- A miner that asked for 128 workloads has logged in, and nothing is sent. -/
theorem work_not_delivered :
    (processAuthRequest visitorClient (loginPacket 128)).1 = some ⟨[97],[98],128⟩ ∧
    ¬ sendBuffer.DeliversWork testInfo
      (acceptLogin visitorClient (1,1) ⟨[97],[98],128⟩).payloadNum fun _ => 0 := by
  refine ⟨by decide +kernel,?_⟩
  intro hdelivers
  exact absurd ((deliversWork_iff rfl).mp hdelivers) (by decide)

end Work

end Candypool.Pool
