import Candypool.Core.Serialize
import Mathlib

/-! The messages of the peers in a byte stream: the send queue with its partial sends, and the reader
that takes the stream in pieces. -/
namespace Candypool.Net
open Candypool.Prime Candypool.Core

/-- `memcpy` into a buffer. -/
def overwrite (buffer : List UInt8) (pos : ℕ) (bytes : List UInt8) : List UInt8 :=
  buffer.take pos ++ bytes ++ buffer.drop (pos+bytes.length)

theorem overwrite_length {buffer : List UInt8} {pos : ℕ} {bytes : List UInt8}
    (h : pos+bytes.length ≤ buffer.length) : (overwrite buffer pos bytes).length = buffer.length := by
  rw [overwrite, List.length_append, List.length_append, List.length_take, List.length_drop]
  omega

/-- What was written up to there stays, and the new bytes follow. -/
theorem overwrite_take {buffer : List UInt8} {pos : ℕ} {bytes : List UInt8} (h : pos ≤ buffer.length) :
    (overwrite buffer pos bytes).take (pos+bytes.length) = buffer.take pos ++ bytes := by
  rw [overwrite]
  apply List.take_left'
  rw [List.length_append, List.length_take]
  omega

theorem overwrite_middle (first second third bytes : List UInt8) (h : bytes.length = second.length) :
    overwrite (first ++ second ++ third) first.length bytes = first ++ bytes ++ third := by
  rw [overwrite, h, ← List.length_append, List.drop_left, List.append_assoc first second third,
    List.take_left]

structure CMessageHeader where
  pchMessageStart : List UInt8
  pchCommand : List UInt8
  nMessageSize : ℕ
  nChecksum : ℕ
  deriving DecidableEq

def pchMessageStart (fTestNet : Bool) : List UInt8 :=
  if fTestNet then [0xfb, 0xfe, 0xcb, 0xc3] else [0xe4, 0xe7, 0xe5, 0xe7]

/-- `strncpy`: up to the end of the C string, filled up with zeros. -/
def strncpy (pszCommand : List UInt8) (size : ℕ) : List UInt8 :=
  (pszCommand.takeWhile (· ≠ 0) ++ List.replicate size 0).take size

namespace CMessageHeader

/-- The constructor. -/
def make (fTestNet : Bool) (pszCommand : List UInt8) (nMessageSizeIn : ℕ) : CMessageHeader :=
  ⟨Net.pchMessageStart fTestNet, strncpy pszCommand 12, nMessageSizeIn, 0⟩

def serialize (hdr : CMessageHeader) : List UInt8 :=
  hdr.pchMessageStart ++ hdr.pchCommand ++ (numberBytes 4 hdr.nMessageSize ++ numberBytes 4 hdr.nChecksum)

/-- From a buffer of 24 bytes, so that nothing throws. -/
def unserialize (hdrbuf : List UInt8) : CMessageHeader where
  pchMessageStart := hdrbuf.take 4
  pchCommand := (hdrbuf.drop 4).take 12
  nMessageSize := littleEndian ((hdrbuf.drop 16).take 4)
  nChecksum := littleEndian ((hdrbuf.drop 20).take 4)

/-- The lengths and widths of the fields. -/
structure Fits (hdr : CMessageHeader) : Prop where
  start : hdr.pchMessageStart.length = 4
  command : hdr.pchCommand.length = 12
  size : hdr.nMessageSize ≤ maxSize
  checksum : hdr.nChecksum < 2^32

variable {hdr : CMessageHeader}

theorem Fits.serialize_length (h : hdr.Fits) : hdr.serialize.length = 24 := by
  simp only [serialize, List.length_append, h.start, h.command, numberBytes_length]

theorem Fits.unserialize_serialize (h : hdr.Fits) : unserialize hdr.serialize = hdr := by
  have hsize : hdr.nMessageSize < 256^4 := lt_of_le_of_lt h.size (by decide)
  have hchecksum : hdr.nChecksum < 256^4 := lt_of_lt_of_eq h.checksum (by norm_num)
  have hfirst : (hdr.pchMessageStart ++ hdr.pchCommand).length = 16 := by
    rw [List.length_append, h.start, h.command]
  have hdrop16 : hdr.serialize.drop 16 = numberBytes 4 hdr.nMessageSize ++ numberBytes 4 hdr.nChecksum :=
    List.drop_left' hfirst
  have hdrop20 : hdr.serialize.drop 20 = numberBytes 4 hdr.nChecksum := by
    have hdrop : (hdr.serialize.drop 16).drop 4 = numberBytes 4 hdr.nChecksum := by
      rw [hdrop16]
      exact List.drop_left' (numberBytes_length 4 _)
    rwa [List.drop_drop] at hdrop
  have hstart : hdr.serialize.take 4 = hdr.pchMessageStart := by
    rw [serialize, List.append_assoc]
    exact List.take_left' h.start
  have hcommand : (hdr.serialize.drop 4).take 12 = hdr.pchCommand := by
    rw [serialize, List.append_assoc, List.drop_left' h.start]
    exact List.take_left' h.command
  have hmessage : littleEndian ((hdr.serialize.drop 16).take 4) = hdr.nMessageSize := by
    rw [hdrop16, List.take_left' (numberBytes_length 4 _), littleEndian_numberBytes hsize]
  have hcheck : littleEndian ((hdr.serialize.drop 20).take 4) = hdr.nChecksum := by
    rw [hdrop20, List.take_of_length_le (numberBytes_length 4 _).le, littleEndian_numberBytes hchecksum]
  rw [unserialize, hstart, hcommand, hmessage, hcheck]

end CMessageHeader

/-- A header with its payload. -/
structure Message where
  hdr : CMessageHeader
  payload : List UInt8
  deriving DecidableEq

def Message.bytes (m : Message) : List UInt8 := m.hdr.serialize ++ m.payload

/-- A message that a reader accepts: the header's size is the payload's, and not too large. -/
structure Message.Valid (m : Message) : Prop where
  fits : m.hdr.Fits
  size : m.hdr.nMessageSize = m.payload.length

theorem Message.Valid.bytes_length {m : Message} (h : m.Valid) :
    m.bytes.length = 24+m.payload.length := by
  rw [Message.bytes, List.length_append, h.fits.serialize_length]

section Send

/-- The sending half of `CNode`. `wire` is what `send()` has taken. -/
structure SendSide where
  ssSend : List UInt8
  vSendMsg : List (List UInt8)
  nSendOffset : ℕ
  nSendSize : ℕ
  wire : List UInt8

/-- `send()` answers at most the length that it is asked for, or an error. -/
def sendResult (replies : List ℤ) (length : ℕ) : ℤ := min (replies.headD (-1)) length

/-- The loop over `vSendMsg`, with the results of `send()`; none is an assert that fires. Where no result
is left the socket would block. -/
def socketSendLoop : List (List UInt8) → List ℤ → SendSide → Option SendSide
  | [], _, node =>
    if node.nSendOffset = 0 ∧ node.nSendSize = 0 then some { node with vSendMsg := [] } else none
  | data :: rest, replies, node =>
    if data.length > node.nSendOffset then
      let nBytes := sendResult replies (data.length-node.nSendOffset)
      if nBytes > 0 then
        let sent := { node with
          wire := node.wire ++ (data.drop node.nSendOffset).take nBytes.toNat
          nSendOffset := node.nSendOffset+nBytes.toNat }
        if sent.nSendOffset = data.length then
          socketSendLoop rest replies.tail
            { sent with nSendOffset := 0, nSendSize := sent.nSendSize-data.length }
        -- could not send full message; stop sending more
        else some { sent with vSendMsg := data :: rest }
      -- couldn't send anything at all
      else some { node with vSendMsg := data :: rest }
    else none

def socketSendData (node : SendSide) (replies : List ℤ) : Option SendSide :=
  socketSendLoop node.vSendMsg replies node

def beginMessage (fTestNet : Bool) (node : SendSide) (pszCommand : List UInt8) : Option SendSide :=
  if node.ssSend.length = 0 then
    some { node with ssSend := node.ssSend ++ (CMessageHeader.make fTestNet pszCommand 0).serialize }
  else none

def abortMessage (node : SendSide) : SendSide := { node with ssSend := [] }

/-- `dropped` is the outcome of `-dropmessagestest`. -/
def endMessage (hash : List UInt8 → Uint256) (node : SendSide) (dropped : Bool) (replies : List ℤ) :
    Option SendSide :=
  if dropped then some (abortMessage node)
  else if node.ssSend.length = 0 then some node
  else
    -- Set the size
    let ssSend := overwrite node.ssSend 16 (numberBytes 4 (node.ssSend.length-24))
    -- Set the checksum
    let nChecksum := (hash (ssSend.drop 24)).toNat % 2^32
    if ssSend.length ≥ 20+4 then
      let data := overwrite ssSend 20 (numberBytes 4 nChecksum)
      let queued := { node with
        ssSend := []
        vSendMsg := node.vSendMsg ++ [data]
        nSendSize := node.nSendSize+data.length }
      -- If write queue empty, attempt "optimistic write"
      if node.vSendMsg = [] then socketSendData queued replies else some queued
    else none

/-- The queue and its counters: what is still to be sent follows the offset in the first message. -/
structure SendSide.Queued (node : SendSide) (vSendMsg : List (List UInt8)) : Prop where
  size : node.nSendSize = (vSendMsg.map List.length).sum
  nonempty : ∀ data ∈ vSendMsg, 0 < data.length
  first : ∀ data ∈ vSendMsg.head?, node.nSendOffset < data.length
  empty : vSendMsg = [] → node.nSendOffset = 0

/-- The bytes that `send()` has not taken. -/
def SendSide.pending (node : SendSide) : List UInt8 := node.vSendMsg.flatten.drop node.nSendOffset

/-- Whatever `send()` does, no assert fires and no byte is lost or sent twice. -/
theorem socketSendLoop_spec (queue : List (List UInt8)) (replies : List ℤ) (node : SendSide)
    (h : node.Queued queue) : ∃ node', socketSendLoop queue replies node = some node' ∧
      node'.Queued node'.vSendMsg ∧ node'.ssSend = node.ssSend ∧
      node'.wire ++ node'.pending = node.wire ++ queue.flatten.drop node.nSendOffset ∧
      node.wire <+: node'.wire := by
  induction queue generalizing replies node with
  | nil =>
    have hoffset := h.empty rfl
    have hsize : node.nSendSize = 0 := h.size
    refine ⟨{ node with vSendMsg := [] }, ?_, ⟨h.size, h.nonempty, h.first, h.empty⟩, rfl, rfl,
      List.prefix_rfl⟩
    rw [socketSendLoop, if_pos ⟨hoffset, hsize⟩]
  | cons data rest ih =>
    have hfirst : node.nSendOffset < data.length := h.first data rfl
    have hsum : node.nSendSize = data.length+(rest.map List.length).sum := h.size
    rw [socketSendLoop, if_pos hfirst]
    have hresult : sendResult replies (data.length-node.nSendOffset) ≤
        (data.length-node.nSendOffset : ℕ) := min_le_right _ _
    dsimp only
    generalize sendResult replies (data.length-node.nSendOffset) = nBytes at hresult
    by_cases hpos : nBytes > 0
    · rw [if_pos hpos]
      by_cases hfull : node.nSendOffset+nBytes.toNat = data.length
      · -- the whole message is out, and the loop goes on with the next
        rw [if_pos hfull]
        have htaken : (data.drop node.nSendOffset).take nBytes.toNat = data.drop node.nSendOffset := by
          apply List.take_of_length_le
          rw [List.length_drop]
          omega
        rw [htaken]
        obtain ⟨node',heq,hqueued,hss,hwire,hpart⟩ := ih replies.tail
          { node with
            wire := node.wire ++ data.drop node.nSendOffset
            nSendOffset := 0
            nSendSize := node.nSendSize-data.length }
          ⟨by
              change node.nSendSize-data.length = _
              omega,
            fun next hnext => h.nonempty next (List.mem_cons_of_mem _ hnext),
            fun next hnext => h.nonempty next (List.mem_cons_of_mem _ (List.mem_of_mem_head? hnext)),
            fun _ => rfl⟩
        refine ⟨node', heq, hqueued, hss, ?_, (List.prefix_append _ _).trans hpart⟩
        rw [hwire, List.drop_zero, List.flatten_cons, List.drop_append_of_le_length hfirst.le,
          List.append_assoc]
      · rw [if_neg hfull]
        refine ⟨_, rfl, ⟨h.size, h.nonempty, ?_, fun hnil => ?_⟩, rfl, ?_, List.prefix_append _ _⟩
        · intro next hnext
          obtain rfl := Option.mem_some_iff.mp hnext
          change node.nSendOffset+nBytes.toNat < data.length
          omega
        · cases hnil
        · change node.wire ++ (data.drop node.nSendOffset).take nBytes.toNat ++
            (data :: rest).flatten.drop (node.nSendOffset+nBytes.toNat) = _
          rw [List.flatten_cons, List.drop_append_of_le_length (by omega),
            List.drop_append_of_le_length hfirst.le, ← List.drop_drop, List.append_assoc,
            ← List.append_assoc (List.take _ _), List.take_append_drop]
    · rw [if_neg hpos]
      exact ⟨_, rfl, ⟨h.size, h.nonempty, h.first, h.empty⟩, rfl, rfl, List.prefix_rfl⟩

end Send

section Push

variable (fTestNet : Bool) (hash : List UInt8 → Uint256)

/-- What a receiver is to get for a command and its payload. -/
def pushedMessage (pszCommand payload : List UInt8) : Message where
  hdr := { CMessageHeader.make fTestNet pszCommand payload.length with
    nChecksum := (hash payload).toNat % 2^32 }
  payload := payload

theorem pchMessageStart_length : (pchMessageStart fTestNet).length = 4 := by
  cases fTestNet
  all_goals rfl

theorem strncpy_length (pszCommand : List UInt8) (size : ℕ) : (strncpy pszCommand size).length = size := by
  rw [strncpy, List.length_take, List.length_append, List.length_replicate]
  omega

theorem pushedMessage_valid (pszCommand : List UInt8) {payload : List UInt8}
    (h : payload.length ≤ maxSize) : (pushedMessage fTestNet hash pszCommand payload).Valid :=
  ⟨⟨pchMessageStart_length fTestNet, strncpy_length pszCommand 12, h, Nat.mod_lt _ (by decide)⟩, rfl⟩

variable {node : SendSide}

theorem SendSide.Queued.drop_append (h : node.Queued node.vSendMsg) (data : List UInt8) :
    (node.vSendMsg ++ [data]).flatten.drop node.nSendOffset = node.pending ++ data := by
  rw [SendSide.pending, List.flatten_append, List.flatten_singleton]
  apply List.drop_append_of_le_length
  cases hqueue : node.vSendMsg with
  | nil =>
    rw [h.empty hqueue]
    exact Nat.zero_le _
  | cons first rest =>
    have hfirst := h.first first (by rw [hqueue]; rfl)
    rw [List.flatten_cons, List.length_append]
    omega

/-- `EndMessage` puts the message behind what is still to be sent. -/
theorem endMessage_spec (pszCommand payload : List UInt8) (replies : List ℤ)
    (h : node.Queued node.vSendMsg)
    (hdraft : node.ssSend = (CMessageHeader.make fTestNet pszCommand 0).serialize ++ payload) :
    ∃ node', endMessage hash node false replies = some node' ∧ node'.Queued node'.vSendMsg ∧
      node'.ssSend = [] ∧ node'.wire ++ node'.pending =
        node.wire ++ (node.pending ++ (pushedMessage fTestNet hash pszCommand payload).bytes) ∧
      node.wire <+: node'.wire := by
  have hstart := pchMessageStart_length fTestNet
  have hcommand := strncpy_length pszCommand 12
  have hfirst : (pchMessageStart fTestNet ++ strncpy pszCommand 12).length = 16 := by
    rw [List.length_append, hstart, hcommand]
  -- the draft holds zeros where size and checksum belong
  have hbytes : node.ssSend = pchMessageStart fTestNet ++ strncpy pszCommand 12 ++ numberBytes 4 0 ++
      (numberBytes 4 0 ++ payload) := by
    rw [hdraft, CMessageHeader.serialize, CMessageHeader.make]
    simp only [List.append_assoc]
  have hlen : node.ssSend.length = 24+payload.length := by
    rw [hbytes]
    simp only [List.length_append, numberBytes_length, hstart, hcommand]
    omega
  -- the size replaces four of the zeros
  have hsized : overwrite node.ssSend 16 (numberBytes 4 (node.ssSend.length-24)) =
      pchMessageStart fTestNet ++ strncpy pszCommand 12 ++ numberBytes 4 payload.length ++
        numberBytes 4 0 ++ payload := by
    have hmiddle := overwrite_middle (pchMessageStart fTestNet ++ strncpy pszCommand 12)
      (numberBytes 4 0) (numberBytes 4 0 ++ payload) (numberBytes 4 payload.length)
      (by rw [numberBytes_length, numberBytes_length])
    rw [hfirst] at hmiddle
    rw [hlen, Nat.add_sub_cancel_left, hbytes, hmiddle]
    simp only [List.append_assoc]
  have hfirst' : (pchMessageStart fTestNet ++ strncpy pszCommand 12 ++
      numberBytes 4 payload.length).length = 20 := by
    rw [List.length_append, hfirst, numberBytes_length]
  have hpayload : (pchMessageStart fTestNet ++ strncpy pszCommand 12 ++ numberBytes 4 payload.length ++
      numberBytes 4 0 ++ payload).drop 24 = payload := by
    apply List.drop_left'
    rw [List.length_append, hfirst', numberBytes_length]
  -- and the checksum the four behind it
  have hdata : overwrite (pchMessageStart fTestNet ++ strncpy pszCommand 12 ++
      numberBytes 4 payload.length ++ numberBytes 4 0 ++ payload) 20
      (numberBytes 4 ((hash payload).toNat % 2^32)) =
        (pushedMessage fTestNet hash pszCommand payload).bytes := by
    have hmiddle := overwrite_middle (pchMessageStart fTestNet ++ strncpy pszCommand 12 ++
      numberBytes 4 payload.length) (numberBytes 4 0) payload
      (numberBytes 4 ((hash payload).toNat % 2^32)) (by rw [numberBytes_length, numberBytes_length])
    rw [hfirst'] at hmiddle
    rw [hmiddle, Message.bytes, CMessageHeader.serialize, pushedMessage, CMessageHeader.make]
    simp only [List.append_assoc]
  have hnonempty : ¬node.ssSend.length = 0 := by omega
  have hassert : (pchMessageStart fTestNet ++ strncpy pszCommand 12 ++ numberBytes 4 payload.length ++
      numberBytes 4 0 ++ payload).length ≥ 20+4 := by
    rw [List.length_append, List.length_append, hfirst', numberBytes_length]
    omega
  have hpos : 0 < (pushedMessage fTestNet hash pszCommand payload).bytes.length := by
    rw [← hdata, overwrite_length (by rw [numberBytes_length]; omega)]
    omega
  rw [endMessage, if_neg Bool.false_ne_true, if_neg hnonempty]
  dsimp only
  rw [hsized, hpayload, hdata, if_pos hassert]
  generalize (pushedMessage fTestNet hash pszCommand payload).bytes = data at hpos
  have hdrop := h.drop_append data
  have hqueued : SendSide.Queued { node with
      ssSend := []
      vSendMsg := node.vSendMsg ++ [data]
      nSendSize := node.nSendSize+data.length } (node.vSendMsg ++ [data]) := by
    refine ⟨?_, fun next hnext => ?_, fun next hnext => ?_, fun hnil => ?_⟩
    · rw [List.map_append, List.sum_append, ← h.size]
      rfl
    · rcases List.mem_append.mp hnext with hnext | hnext
      · exact h.nonempty next hnext
      · rw [List.mem_singleton.mp hnext]
        exact hpos
    · cases hqueue : node.vSendMsg with
      | nil =>
        rw [hqueue] at hnext
        obtain rfl := Option.mem_some_iff.mp hnext
        change node.nSendOffset < data.length
        rw [h.empty hqueue]
        exact hpos
      | cons first rest =>
        rw [hqueue] at hnext
        obtain rfl := Option.mem_some_iff.mp hnext
        exact h.first first (by rw [hqueue]; rfl)
    · exact absurd hnil (List.append_ne_nil_of_right_ne_nil _ (List.cons_ne_nil _ _))
  -- an idle connection sends at once, a busy one queues the message
  by_cases hempty : node.vSendMsg = []
  · rw [if_pos hempty, socketSendData]
    obtain ⟨node',heq,hqueued',hss,hwire,hle⟩ := socketSendLoop_spec _ replies _ hqueued
    refine ⟨node', heq, hqueued', hss, hwire.trans ?_, hle⟩
    rw [← hdrop]
  · rw [if_neg hempty]
    refine ⟨_, rfl, hqueued, rfl, ?_, List.prefix_rfl⟩
    rw [← hdrop]
    rfl

end Push

section Receive

structure CNetMessage where
  in_data : Bool
  hdrbuf : List UInt8
  hdr : CMessageHeader
  nHdrPos : ℕ
  vRecv : List UInt8
  nDataPos : ℕ

namespace CNetMessage

/-- The constructor, with the default header. -/
def make (fTestNet : Bool) : CNetMessage where
  in_data := false
  hdrbuf := List.replicate 24 0
  hdr := ⟨pchMessageStart fTestNet, [0, 1] ++ List.replicate 10 0, 2^32-1, 0⟩
  nHdrPos := 0
  vRecv := []
  nDataPos := 0

variable (msg : CNetMessage) (pch : List UInt8)

def complete : Bool := msg.in_data && msg.hdr.nMessageSize == msg.nDataPos

/-- The message and how many bytes it has taken, or -1. -/
def readHeader : Option (CNetMessage × ℕ) :=
  let nCopy := min (24-msg.nHdrPos) pch.length
  let read := { msg with
    hdrbuf := overwrite msg.hdrbuf msg.nHdrPos (pch.take nCopy)
    nHdrPos := msg.nHdrPos+nCopy }
  -- if header incomplete, exit
  if read.nHdrPos < 24 then some (read, nCopy)
  else
    let hdr := CMessageHeader.unserialize read.hdrbuf
    -- reject messages larger than MAX_SIZE
    if hdr.nMessageSize > maxSize then none
    -- switch state to reading message data
    else some ({ read with
      hdr := hdr
      in_data := true
      vRecv := List.replicate hdr.nMessageSize 0 }, nCopy)

def readData : CNetMessage × ℕ :=
  let nCopy := min (msg.hdr.nMessageSize-msg.nDataPos) pch.length
  ({ msg with
    vRecv := overwrite msg.vRecv msg.nDataPos (pch.take nCopy)
    nDataPos := msg.nDataPos+nCopy }, nCopy)

/-- The network data goes to the header or to the payload. -/
def absorb : Option (CNetMessage × ℕ) :=
  if !msg.in_data then msg.readHeader pch else some (msg.readData pch)

end CNetMessage

/-- The current incomplete message, or a new one, and the messages before it. The back of `vRecvMsg`
comes first. -/
def currentMessage (fTestNet : Bool) : List CNetMessage → CNetMessage × List CNetMessage
  | [] => (CNetMessage.make fTestNet, [])
  | msg :: older => if msg.complete then (CNetMessage.make fTestNet, msg :: older) else (msg, older)

/-- The loop of `ReceiveMsgBytes`, at most `fuel` times. -/
def receiveLoop (fTestNet : Bool) : ℕ → List CNetMessage → List UInt8 → Option (Bool × List CNetMessage)
  | 0, vRecvMsg, pch => if pch = [] then some (true, vRecvMsg) else none
  | fuel+1, vRecvMsg, pch =>
    if pch = [] then some (true, vRecvMsg)
    else
      let current := currentMessage fTestNet vRecvMsg
      match current.1.absorb pch with
      | none => some (false, current.1 :: current.2)
      | some (msg,handled) => receiveLoop fTestNet fuel (msg :: current.2) (pch.drop handled)

def receiveMsgBytes (fTestNet : Bool) (vRecvMsg : List CNetMessage) (pch : List UInt8) :
    Option (Bool × List CNetMessage) :=
  receiveLoop fTestNet pch.length vRecvMsg pch

/-- The message has taken the first bytes of `m`. -/
structure Absorbed (m : Message) (part : List UInt8) (msg : CNetMessage) : Prop where
  le : part <+: m.bytes
  header : part.length < 24 → msg.in_data = false ∧ msg.nHdrPos = part.length ∧
    msg.hdrbuf.length = 24 ∧ msg.hdrbuf.take part.length = part ∧ msg.nDataPos = 0
  data : 24 ≤ part.length → msg.in_data = true ∧ msg.hdr = m.hdr ∧ 24+msg.nDataPos = part.length ∧
    msg.vRecv.length = m.payload.length ∧ msg.vRecv.take msg.nDataPos = part.drop 24

variable {m : Message} {part pch : List UInt8} {msg : CNetMessage}

theorem Absorbed.make (fTestNet : Bool) (m : Message) : Absorbed m [] (CNetMessage.make fTestNet) :=
  ⟨List.nil_prefix, fun _ => ⟨rfl, rfl, rfl, rfl, rfl⟩, fun h => absurd h (by decide)⟩

/-- A message is complete exactly when it has taken all of `m`. -/
theorem Absorbed.complete_iff (hm : m.Valid) (h : Absorbed m part msg) :
    msg.complete = true ↔ part = m.bytes := by
  have hlen := hm.bytes_length
  rw [CNetMessage.complete, Bool.and_eq_true, beq_iff_eq]
  by_cases hshort : part.length < 24
  · obtain ⟨hdata,-⟩ := h.header hshort
    constructor
    · rintro ⟨htrue,-⟩
      rw [hdata] at htrue
      cases htrue
    · rintro rfl
      omega
  · obtain ⟨hdata,hhdr,hpos,-⟩ := h.data (by omega)
    rw [hhdr, hm.size]
    constructor
    · rintro ⟨-,hsize⟩
      exact h.le.eq_of_length (by omega)
    · rintro rfl
      exact ⟨hdata, by omega⟩

theorem Absorbed.full (hm : m.Valid) (h : Absorbed m m.bytes msg) :
    (⟨msg.hdr, msg.vRecv⟩ : Message) = m := by
  have hlen := hm.bytes_length
  obtain ⟨-,hhdr,hpos,hrecv,htake⟩ := h.data (by omega)
  rw [List.take_of_length_le (by omega), Message.bytes,
    List.drop_left' hm.fits.serialize_length] at htake
  rw [hhdr, htake]

/-- One step of the reader takes bytes, and only bytes of this message. -/
theorem Absorbed.absorb {later : List UInt8} (hm : m.Valid) (h : Absorbed m part msg)
    (hlt : part.length < m.bytes.length) (hpch : pch ≠ [])
    (hstream : part ++ pch <+: m.bytes ++ later) : ∃ msg' handled, msg.absorb pch = some (msg', handled) ∧
      0 < handled ∧ handled ≤ pch.length ∧ Absorbed m (part ++ pch.take handled) msg' := by
  have hlen := hm.bytes_length
  have hpos : 0 < pch.length := List.length_pos_iff.mpr hpch
  have htaken : ∀ n ≤ pch.length, (pch.take n).length = n := fun n hn => by
    rw [List.length_take]
    omega
  have hle : ∀ n ≤ pch.length, part.length+n ≤ m.bytes.length → part ++ pch.take n <+: m.bytes := by
    intro n hn hfit
    have hpart : part ++ pch.take n <+: m.bytes ++ later :=
      ((List.prefix_append_right_inj part).mpr (List.take_prefix n pch)).trans hstream
    apply List.prefix_of_prefix_length_le hpart (List.prefix_append m.bytes later)
    rw [List.length_append, htaken n hn]
    exact hfit
  by_cases hshort : part.length < 24
  · obtain ⟨hdata,hhdrpos,hbuf,htake,hzero⟩ := h.header hshort
    rw [CNetMessage.absorb, hdata, Bool.not_false, if_pos rfl, CNetMessage.readHeader]
    dsimp only
    rw [hhdrpos]
    generalize hn : min (24-part.length) pch.length = n
    have hnle : n ≤ pch.length := by omega
    have hnlen := htaken n hnle
    have hbuf' : (overwrite msg.hdrbuf part.length (pch.take n)).length = 24 := by
      rw [overwrite_length (by rw [hnlen]; omega), hbuf]
    have htake' : (overwrite msg.hdrbuf part.length (pch.take n)).take (part.length+n) =
        part ++ pch.take n := by
      have hover : (overwrite msg.hdrbuf part.length (pch.take n)).take
          (part.length+(pch.take n).length) = msg.hdrbuf.take part.length ++ pch.take n :=
        overwrite_take (by omega)
      rwa [hnlen, htake] at hover
    have hpart' : (part ++ pch.take n).length = part.length+n := by
      rw [List.length_append, hnlen]
    by_cases hmore : part.length+n < 24
    · rw [if_pos hmore]
      refine ⟨_, n, rfl, by omega, hnle, hle n hnle (by omega), fun _ => ?_, fun hfull => ?_⟩
      · rw [hpart']
        exact ⟨hdata, rfl, hbuf', htake', hzero⟩
      · omega
    · -- the header is there
      have hfull : part.length+n = 24 := by omega
      have hheader : overwrite msg.hdrbuf part.length (pch.take n) = m.hdr.serialize := by
        have hpart : part ++ pch.take n <+: m.hdr.serialize ++ m.payload := hle n hnle (by omega)
        have heq := List.prefix_iff_eq_take.mp hpart
        rw [hpart', hfull, List.take_left' hm.fits.serialize_length] at heq
        rw [hfull, List.take_of_length_le hbuf'.le, heq] at htake'
        exact htake'
      rw [if_neg hmore, hheader, hm.fits.unserialize_serialize, if_neg (not_lt.mpr hm.fits.size)]
      refine ⟨_, n, rfl, by omega, hnle, hle n hnle (by omega), fun hless => ?_, fun _ => ?_⟩
      · omega
      · refine ⟨rfl, rfl, ?_, ?_, ?_⟩
        · rw [hpart']
          change 24+msg.nDataPos = _
          omega
        · change (List.replicate m.hdr.nMessageSize 0).length = _
          rw [List.length_replicate, hm.size]
        · change (List.replicate m.hdr.nMessageSize 0).take msg.nDataPos = _
          rw [hzero, List.take_zero, List.drop_eq_nil_of_le (by omega)]
  · obtain ⟨hdata,hhdr,hdatapos,hrecv,htake⟩ := h.data (by omega)
    rw [CNetMessage.absorb, hdata, Bool.not_true, if_neg Bool.false_ne_true, CNetMessage.readData]
    rw [hhdr, hm.size]
    generalize hn : min (m.payload.length-msg.nDataPos) pch.length = n
    have hnle : n ≤ pch.length := by omega
    have hnlen := htaken n hnle
    have hpart' : (part ++ pch.take n).length = part.length+n := by
      rw [List.length_append, hnlen]
    refine ⟨_, n, rfl, by omega, hnle, hle n hnle (by omega), fun hless => by omega, fun _ => ?_⟩
    refine ⟨hdata, rfl, ?_, ?_, ?_⟩
    · rw [hpart']
      change 24+(msg.nDataPos+n) = _
      omega
    · change (overwrite msg.vRecv msg.nDataPos (pch.take n)).length = _
      rw [overwrite_length (by rw [hnlen]; omega), hrecv]
    · change (overwrite msg.vRecv msg.nDataPos (pch.take n)).take (msg.nDataPos+n) = _
      have hover : (overwrite msg.vRecv msg.nDataPos (pch.take n)).take
          (msg.nDataPos+(pch.take n).length) = msg.vRecv.take msg.nDataPos ++ pch.take n :=
        overwrite_take (by omega)
      rw [hnlen, htake] at hover
      rw [hover, List.drop_append_of_le_length (by omega)]

end Receive

end Candypool.Net
