import Candypool.Core.Script

/-! The packet reader of the pool server: `xptServer_receiveData` takes what one `read` returns and
hands a packet to its handler once it is complete. However the stream is cut, the handler sees the
packets of the stream. -/
namespace Candypool.Pool
open Candypool.Core

/-- `xptPacketbuffer_t`; `buffer` is memory up to `bufferLimit`. -/
structure XptPacketbuffer where
  buffer : ℕ → UInt8
  parserIndex : ℕ
  bufferLimit : ℕ
  bufferSize : ℕ

/-- `xptPacketbuffer_changeSizeLimit`. -/
def XptPacketbuffer.changeSizeLimit (pb : XptPacketbuffer) (sizeLimit : ℕ) : XptPacketbuffer :=
  { pb with bufferLimit := sizeLimit
            bufferSize := min pb.bufferSize sizeLimit
            parserIndex := min pb.parserIndex sizeLimit }

/-- What `read` puts at an address. -/
def writeBytes (buffer : ℕ → UInt8) (start : ℕ) (bytes : List UInt8) : ℕ → UInt8 := fun i =>
  if start ≤ i ∧ i < start+bytes.length then bytes.getD (i-start) 0 else buffer i

def readBytes (buffer : ℕ → UInt8) (start size : ℕ) : List UInt8 :=
  (List.range size).map fun i => buffer (start+i)

/-- The client as the reader sees it; `session` is all that only the packet handlers look at. -/
structure XptServerClient (S : Type) where
  disconnected : Bool
  packetbuffer : XptPacketbuffer
  recvIndex : ℕ
  recvSize : ℕ
  opcode : ℕ
  session : S

/-- A client that has just connected; the memory is whatever `malloc` found. -/
def newClient {S : Type} (memory : ℕ → UInt8) (session : S) : XptServerClient S where
  disconnected := false
  packetbuffer := ⟨memory, 0, 4096, 0⟩
  recvIndex := 0
  recvSize := 0
  opcode := 2^32-1
  session := session

/-- What `read` returns: some bytes, nothing yet (`EAGAIN`), the end of the stream, or an error. -/
inductive ReadResult
  | data (bytes : List UInt8)
  | again
  | closed
  | failed

/-- The handlers: `xptServer_processPacket` returns false if the client is to be disconnected. -/
abbrev Handler (S : Type) := S → ℕ → List UInt8 → Bool × S

/-- Packets from this size on are refused. -/
def maxPacketSize : ℕ := 1024*1024*2-4

/-- What a call leaves, and the packet it has handed over. -/
structure Received (S : Type) where
  alive : Bool
  client : XptServerClient S
  packet : Option (ℕ × List UInt8)

section Defs
variable {S : Type} (process : Handler S)

def packetFullSize (client : XptServerClient S) : ℕ :=
  if client.recvSize > 0 then 4+client.recvSize else 4

def bytesToReceive (client : XptServerClient S) : ℕ := packetFullSize client-client.recvIndex

/-- The header of a packet: the opcode is in its first byte, the length in the three others. -/
def headerOpcode (header : ℕ) : ℕ := header % 256
def headerSize (header : ℕ) : ℕ := header/256 % 2^24

/-- The second half of a call, once the header is known. -/
def finishPacket (client : XptServerClient S) : Received S :=
  if client.recvIndex ≥ client.recvSize+4 then
    let client := { client with
      packetbuffer := { client.packetbuffer with bufferSize := client.recvSize+4 } }
    let payload := readBytes client.packetbuffer.buffer 4 client.recvSize
    let (ok,session) := process client.session client.opcode payload
    if !ok then
      ⟨false, { client with session := session, disconnected := true },
        some (client.opcode, payload)⟩
    else
      ⟨true, { client with session := session, recvIndex := 0, opcode := 0, recvSize := 0 },
        some (client.opcode, payload)⟩
  else ⟨true, client, none⟩

/-- The bytes that were read, in the buffer. -/
def storeBytes (client : XptServerClient S) (bytes : List UInt8) : XptServerClient S :=
  { client with
    packetbuffer := { client.packetbuffer with
      buffer := writeBytes client.packetbuffer.buffer client.recvIndex bytes }
    recvIndex := client.recvIndex+bytes.length }

/-- The value of the header in the buffer. -/
def headerVal (client : XptServerClient S) : ℕ :=
  littleEndian (readBytes client.packetbuffer.buffer 0 4)

/-- The size and the opcode of a header that is complete; the buffer grows to hold the packet. -/
def storeHeader (client : XptServerClient S) : XptServerClient S :=
  { client with
    recvSize := headerSize (headerVal client)
    opcode := headerOpcode (headerVal client)
    packetbuffer :=
      if headerSize (headerVal client)+4 > client.packetbuffer.bufferLimit then
        client.packetbuffer.changeSizeLimit (headerSize (headerVal client)+4)
      else client.packetbuffer }

def receiveData (client : XptServerClient S) : ReadResult → Received S
  | .again => ⟨true, client, none⟩
  | .closed => ⟨false, { client with disconnected := true }, none⟩
  | .failed => ⟨false, { client with disconnected := true }, none⟩
  | .data bytes =>
    if (storeBytes client bytes).recvIndex = packetFullSize client ∧ packetFullSize client = 4 then
      if headerSize (headerVal (storeBytes client bytes)) ≥ maxPacketSize then
        ⟨false, storeBytes client bytes, none⟩
      else finishPacket process (storeHeader (storeBytes client bytes))
    else finishPacket process (storeBytes client bytes)

/-- Repeated calls, until one returns false: the packets handed over and what is left. -/
def receiveAll : XptServerClient S → List ReadResult → List (ℕ × List UInt8) × Received S
  | client, [] => ([], ⟨true, client, none⟩)
  | client, result :: results =>
    let r := receiveData process client result
    if r.alive then
      let (packets,final) := receiveAll r.client results
      (r.packet.toList ++ packets, final)
    else (r.packet.toList, r)

/-- `read` returns between one byte and all that were asked for, as long as it is called. -/
def ValidReads : XptServerClient S → List ReadResult → Prop
  | _, [] => True
  | client, .again :: results => ValidReads client results
  | client, .data bytes :: results =>
    1 ≤ bytes.length ∧ bytes.length ≤ bytesToReceive client ∧
      ((receiveData process client (.data bytes)).alive = true →
        ValidReads (receiveData process client (.data bytes)).client results)
  | _, _ => False

/-- The bytes of the stream. -/
def streamOf (results : List ReadResult) : List UInt8 :=
  results.flatMap fun result => match result with
    | .data bytes => bytes
    | _ => []

/-- What the stream begins with. -/
inductive Frame
  | incomplete
  | oversized
  | packet (opcode : ℕ) (payload rest : List UInt8)

def frameOf (stream : List UInt8) : Frame :=
  if stream.length < 4 then .incomplete
  else
    let header := littleEndian (stream.take 4)
    if headerSize header ≥ maxPacketSize then .oversized
    else if (stream.drop 4).length < headerSize header then .incomplete
    else .packet (headerOpcode header) ((stream.drop 4).take (headerSize header))
      ((stream.drop 4).drop (headerSize header))

theorem frameOf_packet {stream payload rest : List UInt8} {opcode : ℕ}
    (h : frameOf stream = .packet opcode payload rest) : rest.length < stream.length := by
  rw [frameOf] at h
  split_ifs at h with hlen
  dsimp only at h
  split_ifs at h
  obtain ⟨-,-,rfl⟩ := Frame.packet.inj h
  rw [List.length_drop, List.length_drop]
  omega

/-- The packets of a stream, up to the first that is too large or that its handler rejects. -/
def parseStream (session : S) (stream : List UInt8) : List (ℕ × List UInt8) :=
  match h : frameOf stream with
  | .packet opcode payload rest =>
    have := frameOf_packet h
    let r := process session opcode payload
    (opcode, payload) :: if r.1 then parseStream r.2 rest else []
  | _ => []
termination_by stream.length

end Defs

section Bytes
variable {buffer : ℕ → UInt8}

theorem readBytes_length (buffer : ℕ → UInt8) (start size : ℕ) :
    (readBytes buffer start size).length = size := by
  rw [readBytes, List.length_map, List.length_range]

theorem readBytes_add (buffer : ℕ → UInt8) (start m n : ℕ) :
    readBytes buffer start (m+n) = readBytes buffer start m ++ readBytes buffer (start+m) n := by
  unfold readBytes
  rw [List.range_add, List.map_append, List.map_map]
  congr 2
  funext i
  exact congrArg buffer (Nat.add_assoc start m i).symm

theorem readBytes_writeBytes (buffer : ℕ → UInt8) (n : ℕ) (bytes : List UInt8) :
    readBytes (writeBytes buffer n bytes) 0 (n+bytes.length) = readBytes buffer 0 n ++ bytes := by
  rw [readBytes_add]
  congr 1
  · apply List.map_congr_left
    intro i hi
    rw [List.mem_range] at hi
    exact if_neg (by omega)
  · apply List.ext_getElem
    · exact readBytes_length _ _ _
    · intro i hi hi'
      have hget : (readBytes (writeBytes buffer n bytes) (0+n) bytes.length)[i] =
          writeBytes buffer n bytes (0+n+i) := by
        simp only [readBytes, List.getElem_map, List.getElem_range]
      rw [hget, zero_add, writeBytes, if_pos ⟨by omega, by omega⟩, Nat.add_sub_cancel_left,
        List.getD_eq_getElem?_getD, List.getElem?_eq_getElem hi', Option.getD_some]

theorem readBytes_writeBytes_before (buffer : ℕ → UInt8) {n k : ℕ} (bytes : List UInt8)
    (h : k ≤ n) : readBytes (writeBytes buffer n bytes) 0 k = readBytes buffer 0 k := by
  apply List.map_congr_left
  intro i hi
  rw [List.mem_range] at hi
  exact if_neg (by omega)

end Bytes

section Framing
variable {S : Type} {process : Handler S} {client : XptServerClient S}

/-- The bytes of the packet that is being received. -/
def pending (client : XptServerClient S) : List UInt8 :=
  readBytes client.packetbuffer.buffer 0 client.recvIndex

/-- Between two calls there is room for the rest of the packet and something of it is missing; a
size other than 0 is that of the header in the buffer. -/
structure Framed (client : XptServerClient S) : Prop where
  index : client.recvIndex < client.recvSize+4
  limit : client.recvSize+4 ≤ client.packetbuffer.bufferLimit
  header : client.recvSize > 0 → 4 ≤ client.recvIndex ∧ client.recvSize < maxPacketSize ∧
    client.recvSize = headerSize (headerVal client) ∧
    client.opcode = headerOpcode (headerVal client)

theorem newClient_framed (memory : ℕ → UInt8) (session : S) :
    Framed (newClient memory session) where
  index := Nat.zero_lt_succ 3
  limit := Nat.le_add_left 4 4092
  header := fun h => absurd h (lt_irrefl 0)

theorem frameOf_complete {header payload rest : List UInt8} (hlen : header.length = 4)
    (hsize : headerSize (littleEndian header) = payload.length)
    (hmax : payload.length < maxPacketSize) :
    frameOf (header ++ payload ++ rest) = .packet (headerOpcode (littleEndian header)) payload rest := by
  have htake : (header ++ (payload ++ rest)).take 4 = header := List.take_left' hlen
  have hdrop : (header ++ (payload ++ rest)).drop 4 = payload ++ rest := List.drop_left' hlen
  rw [List.append_assoc, frameOf, if_neg (by rw [List.length_append]; omega), htake, hdrop]
  dsimp only
  rw [hsize, if_neg (by omega), if_neg (by rw [List.length_append]; omega), List.take_left,
    List.drop_left]

theorem frameOf_oversized {header rest : List UInt8} (hlen : header.length = 4)
    (hmax : headerSize (littleEndian header) ≥ maxPacketSize) :
    frameOf (header ++ rest) = .oversized := by
  rw [frameOf, if_neg (by rw [List.length_append]; omega), List.take_left' hlen]
  exact if_pos hmax

theorem parseStream_packet {session : S} {stream payload rest : List UInt8} {opcode : ℕ}
    (h : frameOf stream = .packet opcode payload rest) :
    parseStream process session stream = (opcode,payload) ::
      if (process session opcode payload).1 then
        parseStream process (process session opcode payload).2 rest else [] := by
  rw [parseStream]
  split
  · rename_i opcode' payload' rest' h'
    obtain ⟨rfl,rfl,rfl⟩ := Frame.packet.inj (h.symm.trans h')
    rfl
  · rename_i hne
    exact absurd h (hne _ _ _)

theorem parseStream_stop {session : S} {stream : List UInt8}
    (h : ∀ opcode payload rest, frameOf stream ≠ .packet opcode payload rest) :
    parseStream process session stream = [] := by
  rw [parseStream]
  split
  · rename_i h'
    exact absurd h' (h _ _ _)
  · rfl

/-- What a call that returns `r` has done to the packets of a stream that goes on with `rest`. -/
def Handed (process : Handler S) (session : S) (pre rest : List UInt8) (r : Received S) : Prop :=
  parseStream process session (pre ++ rest) = r.packet.toList ++
    if r.alive then parseStream process r.client.session (pending r.client ++ rest) else []

/-- A packet that is not complete is kept. -/
theorem finishPacket_keeps (process : Handler S) (hindex : client.recvIndex < client.recvSize+4) (rest : List UInt8) :
    (finishPacket process client).alive = true ∧ (finishPacket process client).client = client ∧
      Handed process client.session (pending client) rest (finishPacket process client) := by
  have heq : finishPacket process client = ⟨true, client, none⟩ := if_neg (by omega)
  rw [Handed, heq]
  exact ⟨rfl, rfl, rfl⟩

/-- A packet that is complete is handed over. -/
theorem finishPacket_hands (hindex : client.recvIndex = client.recvSize+4)
    (hlimit : 4 ≤ client.packetbuffer.bufferLimit) (hmax : client.recvSize < maxPacketSize)
    (hsize : client.recvSize = headerSize (headerVal client))
    (hopcode : client.opcode = headerOpcode (headerVal client)) (rest : List UInt8) :
    ((finishPacket process client).alive = true → Framed (finishPacket process client).client) ∧
      Handed process client.session (pending client) rest (finishPacket process client) := by
  generalize hp : readBytes client.packetbuffer.buffer 4 client.recvSize = payload
  have hlen : payload.length = client.recvSize := by rw [← hp, readBytes_length]
  have hpending : pending client = readBytes client.packetbuffer.buffer 0 4 ++ payload := by
    rw [pending, hindex, Nat.add_comm, readBytes_add, zero_add, hp]
  have hframe : frameOf (pending client ++ rest) = .packet client.opcode payload rest := by
    rw [hpending, frameOf_complete (readBytes_length _ _ _) (hsize.symm.trans hlen.symm) (by omega),
      hopcode]
    rfl
  rw [Handed, parseStream_packet hframe]
  generalize hr : process client.session client.opcode payload = r
  obtain ⟨ok,session⟩ := r
  cases ok with
  | false =>
    have heq : finishPacket process client = ⟨false, { client with
        packetbuffer := { client.packetbuffer with bufferSize := client.recvSize+4 }
        session := session, disconnected := true }, some (client.opcode, payload)⟩ := by
      rw [finishPacket, if_pos (by omega)]
      simp only [hp, hr, Bool.not_false, if_true]
    rw [heq]
    exact ⟨fun halive => absurd halive Bool.false_ne_true, rfl⟩
  | true =>
    have heq : finishPacket process client = ⟨true, { client with
        packetbuffer := { client.packetbuffer with bufferSize := client.recvSize+4 }
        session := session, recvIndex := 0, opcode := 0, recvSize := 0 },
        some (client.opcode, payload)⟩ := by
      rw [finishPacket, if_pos (by omega)]
      simp only [hp, hr, Bool.not_true, Bool.false_eq_true, if_false]
    rw [heq]
    exact ⟨fun _ => ⟨Nat.zero_lt_succ 3, hlimit, fun h => absurd h (lt_irrefl 0)⟩, rfl⟩

theorem pending_storeBytes (client : XptServerClient S) (bytes : List UInt8) :
    pending (storeBytes client bytes) = pending client ++ bytes :=
  readBytes_writeBytes _ _ _

theorem storeHeader_buffer (client : XptServerClient S) :
    (storeHeader client).packetbuffer.buffer = client.packetbuffer.buffer ∧
      headerSize (headerVal client)+4 ≤ (storeHeader client).packetbuffer.bufferLimit := by
  rw [storeHeader]
  dsimp only
  split_ifs with hlimit
  · exact ⟨rfl, le_refl _⟩
  · exact ⟨rfl, by omega⟩

/-- A complete header that is not too large leaves the frame of its packet. -/
theorem storeHeader_framed (hindex : client.recvIndex = 4)
    (hmax : headerSize (headerVal client) < maxPacketSize) (rest : List UInt8) :
    ((finishPacket process (storeHeader client)).alive = true →
      Framed (finishPacket process (storeHeader client)).client) ∧
    Handed process client.session (pending client) rest
      (finishPacket process (storeHeader client)) := by
  obtain ⟨hbuffer,hlimit⟩ := storeHeader_buffer client
  have hheader : headerVal (storeHeader client) = headerVal client := by
    rw [headerVal, hbuffer]
    rfl
  have hpending : pending (storeHeader client) = pending client := by
    rw [pending, hbuffer]
    rfl
  have hsize : (storeHeader client).recvSize = headerSize (headerVal (storeHeader client)) := by
    rw [hheader]
    rfl
  have hopcode : (storeHeader client).opcode = headerOpcode (headerVal (storeHeader client)) := by
    rw [hheader]
    rfl
  have hrecv : (storeHeader client).recvIndex = 4 := hindex
  have hsession : (storeHeader client).session = client.session := rfl
  rw [← hheader, ← hsize] at hmax hlimit
  rw [← hpending, ← hsession]
  rcases Nat.eq_zero_or_pos (storeHeader client).recvSize with hzero | hmore
  · exact finishPacket_hands (by omega) (by omega) hmax hsize hopcode rest
  · have hless : (storeHeader client).recvIndex < (storeHeader client).recvSize+4 := by omega
    obtain ⟨-,hsame,hhanded⟩ := finishPacket_keeps process hless rest
    rw [hsame]
    exact ⟨fun _ => ⟨hless, hlimit, fun _ => ⟨by omega, hmax, hsize, hopcode⟩⟩, hhanded⟩

/-- One read keeps the frame and hands over what it completes. -/
theorem receiveData_spec (process : Handler S) {bytes : List UInt8} (h : Framed client) (hpos : 1 ≤ bytes.length)
    (hle : bytes.length ≤ bytesToReceive client) (rest : List UInt8) :
    ((receiveData process client (.data bytes)).alive = true →
      Framed (receiveData process client (.data bytes)).client) ∧
    Handed process client.session (pending client ++ bytes) rest
      (receiveData process client (.data bytes)) := by
  have hindex := h.index
  have hlimit := h.limit
  have hrecv : (storeBytes client bytes).recvIndex = client.recvIndex+bytes.length := rfl
  have hsize : (storeBytes client bytes).recvSize = client.recvSize := rfl
  have hbuf : (storeBytes client bytes).packetbuffer.bufferLimit =
      client.packetbuffer.bufferLimit := rfl
  have hsession : (storeBytes client bytes).session = client.session := rfl
  rw [← pending_storeBytes, ← hsession, receiveData]
  generalize hc : storeBytes client bytes = c at *
  rcases Nat.eq_zero_or_pos client.recvSize with hzero | hmore
  · -- the header is being received
    have hfull : packetFullSize client = 4 := if_neg (by omega)
    rw [bytesToReceive, hfull] at hle
    rw [hfull]
    by_cases hfour : c.recvIndex = 4
    · rw [if_pos ⟨hfour, rfl⟩]
      by_cases hmax : headerSize (headerVal c) ≥ maxPacketSize
      · rw [if_pos hmax]
        refine ⟨fun halive => absurd halive Bool.false_ne_true, ?_⟩
        have hpending : pending c = readBytes c.packetbuffer.buffer 0 4 := by rw [pending, hfour]
        have hover : frameOf (pending c ++ rest) = .oversized := by
          rw [hpending]
          exact frameOf_oversized (readBytes_length _ _ _) hmax
        rw [Handed, parseStream_stop]
        · rfl
        · intro opcode payload rest' hframe
          rw [hover] at hframe
          cases hframe
      · rw [if_neg hmax]
        exact storeHeader_framed hfour (by omega) rest
    · rw [if_neg fun hboth => hfour hboth.1]
      have hless : c.recvIndex < c.recvSize+4 := by omega
      obtain ⟨-,hsame,hhanded⟩ := finishPacket_keeps process hless rest
      rw [hsame]
      exact ⟨fun _ => ⟨hless, by omega, fun hs => by omega⟩, hhanded⟩
  · -- the payload is being received
    obtain ⟨hfirst,hmax,hheader,hopcode⟩ := h.header hmore
    have hfull : packetFullSize client = 4+client.recvSize := if_pos hmore
    rw [bytesToReceive, hfull] at hle
    have hkept : headerVal c = headerVal client := by
      rw [← hc]
      exact congrArg littleEndian (readBytes_writeBytes_before _ bytes hfirst)
    have hop : c.opcode = client.opcode := by rw [← hc]; rfl
    rw [← hkept, ← hsize] at hheader
    rw [← hkept, ← hop] at hopcode
    rw [hfull, if_neg (by omega)]
    by_cases hdone : c.recvIndex = c.recvSize+4
    · exact finishPacket_hands hdone (by omega) (by omega) hheader hopcode rest
    · have hless : c.recvIndex < c.recvSize+4 := by omega
      obtain ⟨-,hsame,hhanded⟩ := finishPacket_keeps process hless rest
      rw [hsame]
      exact ⟨fun _ => ⟨hless, by omega, fun _ => ⟨by omega, by omega, hheader, hopcode⟩⟩, hhanded⟩

/-- What is pending is never a whole packet. -/
theorem Framed.incomplete (h : Framed client) : frameOf (pending client) = .incomplete := by
  have hindex := h.index
  have hlen : (pending client).length = client.recvIndex := readBytes_length _ _ _
  rcases Nat.eq_zero_or_pos client.recvSize with hzero | hmore
  · rw [frameOf, if_pos (by omega)]
  · obtain ⟨hfirst,hmax,hsize,-⟩ := h.header hmore
    have hsplit : pending client = readBytes client.packetbuffer.buffer 0 4 ++
        readBytes client.packetbuffer.buffer (0+4) (client.recvIndex-4) := by
      rw [← readBytes_add, pending]
      congr 1
      omega
    have htake : (pending client).take 4 = readBytes client.packetbuffer.buffer 0 4 := by
      rw [hsplit]
      exact List.take_left' (readBytes_length _ _ _)
    rw [frameOf, if_neg (by omega), htake]
    have hval : littleEndian (readBytes client.packetbuffer.buffer 0 4) = headerVal client := rfl
    dsimp only
    rw [hval, ← hsize, if_neg (by omega), if_pos]
    rw [List.length_drop]
    omega

theorem receiveAll_spec {results : List ReadResult} (h : Framed client)
    (hvalid : ValidReads process client results) :
    (receiveAll process client results).1 =
        parseStream process client.session (pending client ++ streamOf results) ∧
      ((receiveAll process client results).2.alive = true →
        Framed (receiveAll process client results).2.client) := by
  induction results generalizing client with
  | nil =>
    refine ⟨?_, fun _ => h⟩
    rw [parseStream_stop]
    · rfl
    · intro opcode payload rest hframe
      change frameOf (pending client ++ []) = _ at hframe
      rw [List.append_nil, h.incomplete] at hframe
      cases hframe
  | cons result results ih =>
    cases result with
    | again => exact ih h hvalid
    | closed => exact hvalid.elim
    | failed => exact hvalid.elim
    | data bytes =>
      obtain ⟨hpos,hle,hrest⟩ := hvalid
      obtain ⟨hframed,hhanded⟩ := receiveData_spec process h hpos hle (streamOf results)
      rw [Handed, List.append_assoc] at hhanded
      rw [receiveAll]
      dsimp only
      have hstream : streamOf (.data bytes :: results) = bytes ++ streamOf results :=
        List.flatMap_cons
      rw [hstream, hhanded]
      by_cases halive : (receiveData process client (.data bytes)).alive = true
      · rw [if_pos halive, if_pos halive]
        obtain ⟨hpackets,hfinal⟩ := ih (hframed halive) (hrest halive)
        exact ⟨congrArg _ hpackets, hfinal⟩
      · rw [if_neg halive, if_neg halive, List.append_nil]
        exact ⟨rfl, fun h => absurd h halive⟩

/-- However the stream is cut, the handler sees the packets of the stream; and after every call
the next read asks for at least one byte and stays inside the buffer. -/
theorem framing_independent_of_reads (process : Handler S) (memory : ℕ → UInt8) (session : S)
    (results : List ReadResult) (hvalid : ValidReads process (newClient memory session) results) :
    (receiveAll process (newClient memory session) results).1 =
        parseStream process session (streamOf results) ∧
      ∀ client, (receiveAll process (newClient memory session) results).2.alive = true →
        (receiveAll process (newClient memory session) results).2.client = client →
        client.recvIndex < client.recvSize+4 ∧
        client.recvSize+4 ≤ client.packetbuffer.bufferLimit ∧ 0 < bytesToReceive client ∧
        client.recvIndex+bytesToReceive client ≤ client.packetbuffer.bufferLimit := by
  obtain ⟨hpackets,hframed⟩ := receiveAll_spec (newClient_framed memory session) hvalid
  refine ⟨hpackets, ?_⟩
  rintro client halive rfl
  have hindex := (hframed halive).index
  have hlimit := (hframed halive).limit
  refine ⟨hindex, hlimit, ?_⟩
  rw [bytesToReceive, packetFullSize]
  split_ifs <;> omega

/-- A handler that takes every packet. -/
def acceptAll : Handler Unit := fun session _ _ => (true, session)

/-- A ping in three pieces with nothing in between once, and an empty packet after it. -/
def pingReads : List ReadResult :=
  [.data [8, 2], .again, .data [0, 0], .data [5, 6], .data [9, 0, 0, 0]]

theorem framing_independent_of_reads_ping :
    (receiveAll acceptAll (newClient (fun _ => 0) ()) pingReads).1 =
      parseStream acceptAll () [8, 2, 0, 0, 5, 6, 9, 0, 0, 0] ∧
    (receiveAll acceptAll (newClient (fun _ => 0) ()) pingReads).1 = [(8, [5, 6]), (9, [])] := by
  have hvalid : ValidReads acceptAll (newClient (fun _ => 0) ()) pingReads := by
    refine ⟨by decide, by decide, fun _ => ⟨by decide, by decide, fun _ => ⟨by decide, by decide,
      fun _ => ⟨by decide, by decide, fun _ => trivial⟩⟩⟩⟩
  exact ⟨(framing_independent_of_reads acceptAll (fun _ => 0) () pingReads hvalid).1, by decide⟩

end Framing

end Candypool.Pool
