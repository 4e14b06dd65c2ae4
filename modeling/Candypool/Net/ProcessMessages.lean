import Candypool.Net.MessageStream

/-! The messages of a peer on their way through `ProcessMessages`, with the socket thread filling the
queue that the message thread empties, and with either of them closing the connection. -/
namespace Candypool.Net
open Candypool.Prime Candypool.Core

section Header

/-- Printable characters, and only zeros after the first zero. -/
def commandOk : List UInt8 → Bool
  | [] => true
  | p1 :: rest =>
    if p1 = 0 then rest.all (· == 0)
    else if p1 < 0x20 || p1 > 0x7e then false
    else commandOk rest

namespace CMessageHeader

def isValid (fTestNet : Bool) (hdr : CMessageHeader) : Bool :=
  -- Check start string
  if hdr.pchMessageStart ≠ Net.pchMessageStart fTestNet then false
  -- Check the command string for errors
  else if !commandOk hdr.pchCommand then false
  -- Message size
  else if hdr.nMessageSize > maxSize then false
  else true

def getCommand (hdr : CMessageHeader) : List UInt8 :=
  if hdr.pchCommand[11]? = some 0 then hdr.pchCommand.takeWhile (· ≠ 0) else hdr.pchCommand

end CMessageHeader

/-- What is left of a command in the twelve bytes of a header. -/
def sentCommand (pszCommand : List UInt8) : List UInt8 := (pszCommand.takeWhile (· ≠ 0)).take 12

def printable (p1 : UInt8) : Bool := !(p1 < 0x20 || p1 > 0x7e)

theorem commandOk_zeros {text : List UInt8} (htext : ∀ p1 ∈ text, p1 ≠ 0) (n : ℕ) :
    commandOk (text ++ List.replicate n 0) = text.all printable := by
  induction text with
  | nil =>
    cases n with
    | zero => rfl
    | succ n =>
      rw [List.nil_append, List.replicate_succ, commandOk, if_pos rfl, List.all_replicate]
      split_ifs
      all_goals rfl
  | cons p1 text ih =>
    have hrest := ih fun p1 hmem => htext p1 (List.mem_cons_of_mem _ hmem)
    rw [List.cons_append, commandOk, if_neg (htext p1 List.mem_cons_self), hrest, List.all_cons,
      printable]
    cases hbad : (decide (p1 < 0x20) || decide (p1 > 0x7e))
    · rfl
    · rfl

/-- A command and the zeros it is filled up with. -/
theorem strncpy_eq (pszCommand : List UInt8) :
    strncpy pszCommand 12 = sentCommand pszCommand ++
      List.replicate (12-(sentCommand pszCommand).length) 0 := by
  rw [strncpy, sentCommand, List.take_append, List.take_replicate, List.length_take]
  congr 2
  omega

theorem sentCommand_ne_zero (pszCommand : List UInt8) : ∀ p1 ∈ sentCommand pszCommand, p1 ≠ 0 := by
  intro p1 hmem
  have hwhile := List.mem_takeWhile_imp (List.mem_of_mem_take hmem)
  exact of_decide_eq_true hwhile

theorem commandOk_strncpy (pszCommand : List UInt8) :
    commandOk (strncpy pszCommand 12) = (sentCommand pszCommand).all printable := by
  rw [strncpy_eq, commandOk_zeros (sentCommand_ne_zero pszCommand)]

theorem getCommand_make (fTestNet : Bool) (pszCommand : List UInt8) (nMessageSize nChecksum : ℕ) :
    CMessageHeader.getCommand { CMessageHeader.make fTestNet pszCommand nMessageSize with
      nChecksum := nChecksum } = sentCommand pszCommand := by
  have hlen : (sentCommand pszCommand).length ≤ 12 := by
    rw [sentCommand, List.length_take]
    omega
  have hzero := sentCommand_ne_zero pszCommand
  rw [CMessageHeader.getCommand, CMessageHeader.make]
  dsimp only
  rw [strncpy_eq]
  generalize sentCommand pszCommand = text at hlen hzero
  by_cases hfull : text.length = 12
  · -- no room for a zero
    have hlast : (text ++ List.replicate (12-text.length) 0)[11]? ≠ some 0 := by
      rw [hfull, Nat.sub_self, List.replicate_zero, List.append_nil,
        List.getElem?_eq_getElem (by omega : 11 < text.length)]
      exact fun h => hzero _ (List.getElem_mem _) (Option.some.inj h)
    rw [if_neg hlast, hfull, Nat.sub_self, List.replicate_zero, List.append_nil]
  · have hlast : (text ++ List.replicate (12-text.length) 0)[11]? = some 0 := by
      rw [List.getElem?_append_right (by omega), List.getElem?_replicate, if_pos (by omega)]
    have htext : text.takeWhile (· ≠ 0) = text :=
      List.takeWhile_eq_self_iff.mpr fun p1 hmem => decide_eq_true (hzero p1 hmem)
    rw [if_pos hlast, List.takeWhile_append, htext, if_pos rfl, List.takeWhile_replicate]
    rw [if_neg (by decide), List.append_nil]

end Header

section Process

/-- A peer is disconnected by its flag, or by `CloseSocketDisconnect`, which wipes the buffer if it gets
the lock. -/
inductive Disconnect where
  | flag
  | close (lockRecv : Bool)

/-- What the surroundings do during one call: whether a disconnection and how much in the send buffer
are found before each message. The messages are counted from the back of the queue. -/
structure ProcessIO where
  sendBufferSize : ℕ
  disconnect : ℕ → Option Disconnect
  nSendSize : ℕ → ℕ

/-- A call of `ProcessMessage`: the command and the data. -/
abbrev MessageCall := List UInt8 × List UInt8

/-- `rest` is what `it` and the messages after it hold. -/
structure Processed where
  fOk : Bool
  disconnect : Option Disconnect
  rest : List CNetMessage
  calls : List MessageCall

variable (fTestNet : Bool) (hash : List UInt8 → Uint256)

/-- The loop from the front of the queue. Whatever `ProcessMessage` returns or throws is only logged. -/
def processLoop (io : ProcessIO) : List CNetMessage → Processed
  | [] => ⟨true, io.disconnect 0, [], []⟩
  | msg :: rest =>
    let n := rest.length+1
    if (io.disconnect n).isSome then ⟨true, io.disconnect n, msg :: rest, []⟩
    -- Don't bother if send buffer is too full to respond anyway
    else if io.nSendSize n ≥ io.sendBufferSize then ⟨true, none, msg :: rest, []⟩
    -- end, if an incomplete message is found
    else if !msg.complete then ⟨true, none, msg :: rest, []⟩
    -- Scan for message start
    else if msg.hdr.pchMessageStart ≠ pchMessageStart fTestNet then ⟨false, none, rest, []⟩
    -- Read header
    else if !msg.hdr.isValid fTestNet then processLoop io rest
    -- Checksum
    else if (hash (msg.vRecv.take msg.hdr.nMessageSize)).toNat % 2^32 ≠ msg.hdr.nChecksum then
      processLoop io rest
    -- Process message
    else
      let more := processLoop io rest
      { more with calls := (msg.hdr.getCommand, msg.vRecv) :: more.calls }

/-- The connection as its receiving end sees it: `hSocket` is whether there is a socket, and `calls`
are those of `ProcessMessage` so far. -/
structure Session where
  link : Link
  fDisconnect : Bool
  hSocket : Bool
  calls : List MessageCall

def Session.start : Session := ⟨Link.start, false, true, []⟩

def closeSocketDisconnect (lockRecv : Bool) (s : Session) : Session where
  link := if lockRecv then { s.link with vRecvMsg := [] } else s.link
  fDisconnect := true
  hSocket := false
  calls := s.calls

def Disconnect.exec (s : Session) : Disconnect → Session
  | .flag => { s with fDisconnect := true }
  | .close lockRecv => closeSocketDisconnect lockRecv s

def processMessages (io : ProcessIO) (s : Session) : Bool × Session :=
  if s.fDisconnect then (true, s)
  else
    let done := processLoop fTestNet hash io s.link.vRecvMsg.reverse
    let s := { s with calls := s.calls ++ done.calls }
    -- In case the connection got shut down, its receive buffer was wiped
    match done.disconnect with
    | some how => (done.fOk, how.exec s)
    | none => (done.fOk, { s with link := { s.link with vRecvMsg := done.rest.reverse } })

/-- The round of `ThreadMessageHandler`. -/
def messageRound (io : ProcessIO) (s : Session) : Session :=
  if s.fDisconnect then s
  else
    match processMessages fTestNet hash io s with
    | (true,s) => s
    | (false,s) => closeSocketDisconnect true s

inductive SessionOp where
  | link (op : LinkOp)
  | messageRound (io : ProcessIO)
  | disconnect (how : Disconnect)

/-- Only an open socket receives. -/
def SessionOp.Allowed (s : Session) : SessionOp → Prop
  | .link (.receiveMsgBytes pch) => s.hSocket = true ∧ (LinkOp.receiveMsgBytes pch).Allowed s.link
  | .link op => op.Allowed s.link
  | _ => True

def SessionOp.exec (s : Session) : SessionOp → Option Session
  | .link op => (op.exec fTestNet hash s.link).map fun link => { s with link := link }
  | .messageRound io => some (Net.messageRound fTestNet hash io s)
  | .disconnect how => some (how.exec s)

inductive SessionReaches : Session → Prop where
  | start : SessionReaches Session.start
  | step {s s' : Session} (h : SessionReaches s) (op : SessionOp) (hop : op.Allowed s)
      (hexec : op.exec fTestNet hash s = some s') : SessionReaches s'

/-- The calls that a sequence of messages is to cause. -/
def deliver (msgs : List Message) : List MessageCall :=
  (msgs.filter fun m => m.hdr.isValid fTestNet).map fun m => (m.hdr.getCommand, m.payload)

/-- A round that nothing cuts short. -/
structure ProcessIO.Quiet (io : ProcessIO) : Prop where
  connected : ∀ n, io.disconnect n = none
  room : ∀ n, io.nSendSize n < io.sendBufferSize

end Process

section Loop
variable {fTestNet : Bool} {hash : List UInt8 → Uint256}

def CNetMessage.message (msg : CNetMessage) : Message := ⟨msg.hdr, msg.vRecv⟩

/-- A message that the sender pushed. -/
def Pushed (fTestNet : Bool) (hash : List UInt8 → Uint256) (m : Message) : Prop :=
  ∃ pszCommand payload, payload.length ≤ maxSize ∧ m = pushedMessage fTestNet hash pszCommand payload

theorem Pushed.isValid {pszCommand payload : List UInt8} (h : payload.length ≤ maxSize) :
    (pushedMessage fTestNet hash pszCommand payload).hdr.isValid fTestNet =
      (sentCommand pszCommand).all printable := by
  have hcommand : commandOk (pushedMessage fTestNet hash pszCommand payload).hdr.pchCommand =
      (sentCommand pszCommand).all printable := commandOk_strncpy pszCommand
  have hstart : (pushedMessage fTestNet hash pszCommand payload).hdr.pchMessageStart =
      pchMessageStart fTestNet := rfl
  have hsize : ¬(pushedMessage fTestNet hash pszCommand payload).hdr.nMessageSize > maxSize :=
    not_lt.mpr h
  rw [CMessageHeader.isValid, if_neg (not_not.mpr hstart), hcommand, if_neg hsize]
  cases (sentCommand pszCommand).all printable
  · rfl
  · rfl

theorem deliver_cons (m : Message) (msgs : List Message) : deliver fTestNet (m :: msgs) =
    (if m.hdr.isValid fTestNet then [(m.hdr.getCommand, m.payload)] else []) ++ deliver fTestNet msgs := by
  rw [deliver, List.filter_cons]
  split_ifs
  · rfl
  · rfl

theorem deliver_append (msgs more : List Message) :
    deliver fTestNet (msgs ++ more) = deliver fTestNet msgs ++ deliver fTestNet more := by
  rw [deliver, List.filter_append, List.map_append]
  rfl

theorem deliver_initial {msgs more : List Message} (h : msgs <+: more) :
    deliver fTestNet msgs <+: deliver fTestNet more := by
  obtain ⟨later,rfl⟩ := h
  rw [deliver_append]
  exact List.prefix_append _ _

/-- The loop takes messages that are complete, calls `ProcessMessage` for each of them that has a
proper command, and stops early only when it is made to. -/
theorem processLoop_spec (io : ProcessIO) {queue : List CNetMessage}
    (hpushed : ∀ msg ∈ queue, msg.complete = true → Pushed fTestNet hash msg.message) :
    ∃ taken, queue = taken ++ (processLoop fTestNet hash io queue).rest ∧
      (∀ msg ∈ taken, msg.complete = true) ∧
      (processLoop fTestNet hash io queue).calls = deliver fTestNet (taken.map CNetMessage.message) ∧
      (processLoop fTestNet hash io queue).fOk = true ∧
      (io.Quiet → (∀ msg ∈ queue, msg.complete = true) →
        (processLoop fTestNet hash io queue).rest = [] ∧
        (processLoop fTestNet hash io queue).disconnect = none) := by
  induction queue with
  | nil => exact ⟨[], rfl, fun _ hmem => absurd hmem List.not_mem_nil, rfl, rfl,
      fun hquiet _ => ⟨rfl, hquiet.connected 0⟩⟩
  | cons msg queue ih =>
    obtain ⟨taken,hsplit,hcomplete,hcalls,hok,hall⟩ :=
      ih fun msg hmem => hpushed msg (List.mem_cons_of_mem _ hmem)
    rw [processLoop]
    dsimp only
    -- the loop may end before it looks at the message, which then stays in the queue
    by_cases hdisconnect : (io.disconnect (queue.length+1)).isSome = true
    · rw [if_pos hdisconnect]
      refine ⟨[], rfl, fun _ hmem => absurd hmem List.not_mem_nil, rfl, rfl, fun hquiet _ => ?_⟩
      rw [hquiet.connected] at hdisconnect
      cases hdisconnect
    rw [if_neg hdisconnect]
    by_cases hroom : io.nSendSize (queue.length+1) ≥ io.sendBufferSize
    · rw [if_pos hroom]
      exact ⟨[], rfl, fun _ hmem => absurd hmem List.not_mem_nil, rfl, rfl,
        fun hquiet _ => absurd (hquiet.room _) (not_lt.mpr hroom)⟩
    rw [if_neg hroom]
    cases hmsg : msg.complete with
    | false =>
      rw [Bool.not_false, if_pos rfl]
      refine ⟨[], rfl, fun _ hmem => absurd hmem List.not_mem_nil, rfl, rfl, fun _ hevery => ?_⟩
      have htrue := hevery msg List.mem_cons_self
      rw [hmsg] at htrue
      cases htrue
    | true =>
      rw [Bool.not_true, if_neg Bool.false_ne_true]
      -- of a pushed message only the command can be improper: start and checksum are right
      obtain ⟨pszCommand,payload,hsize,hmessage⟩ := hpushed msg List.mem_cons_self hmsg
      obtain ⟨hhdr,hrecv⟩ := Message.mk.inj hmessage
      have hvalid : msg.hdr.isValid fTestNet = (sentCommand pszCommand).all printable := by
        rw [hhdr]
        exact Pushed.isValid hsize
      have hstart : msg.hdr.pchMessageStart = pchMessageStart fTestNet := by
        rw [hhdr]
        rfl
      have hchecksum : (hash (msg.vRecv.take msg.hdr.nMessageSize)).toNat % 2^32 =
          msg.hdr.nChecksum := by
        rw [hhdr, hrecv]
        change (hash (payload.take payload.length)).toNat % 2^32 = (hash payload).toNat % 2^32
        rw [List.take_length]
      have htaken : ∀ msg' ∈ msg :: taken, msg'.complete = true := by
        intro msg' hmem
        rcases List.mem_cons.mp hmem with rfl | hmem
        · exact hmsg
        · exact hcomplete msg' hmem
      have hquiet' := fun (hquiet : io.Quiet) (hevery : ∀ msg' ∈ msg :: queue, msg'.complete = true) =>
        hall hquiet fun msg' hmem => hevery msg' (List.mem_cons_of_mem _ hmem)
      have hlist : msg :: queue = (msg :: taken) ++ (processLoop fTestNet hash io queue).rest :=
        congrArg (msg :: ·) hsplit
      rw [if_neg (not_not.mpr hstart), if_neg (not_not.mpr hchecksum)]
      refine ⟨msg :: taken, ?_, htaken, ?_, ?_, ?_⟩
      · split_ifs
        all_goals exact hlist
      · rw [List.map_cons, deliver_cons, ← hcalls]
        cases hproper : msg.hdr.isValid fTestNet with
        | false =>
          rw [Bool.not_false, if_pos rfl, if_neg (show ¬msg.message.hdr.isValid fTestNet = true from
            fun h => Bool.false_ne_true (hproper.symm.trans h))]
          rfl
        | true =>
          rw [Bool.not_true, if_neg Bool.false_ne_true, if_pos (show msg.message.hdr.isValid fTestNet =
            true from hproper)]
          rfl
      · split_ifs
        all_goals exact hok
      · split_ifs
        all_goals exact hquiet'

end Loop

section Older
variable {fTestNet : Bool} {erased : List CNetMessage}

/-- Complete messages at the front of the queue are of no account to the reader at its back. -/
theorem currentMessage_append (herased : ∀ msg ∈ erased, msg.complete = true)
    (vRecvMsg : List CNetMessage) : currentMessage fTestNet (vRecvMsg ++ erased) =
      ((currentMessage fTestNet vRecvMsg).1, (currentMessage fTestNet vRecvMsg).2 ++ erased) := by
  cases vRecvMsg with
  | nil =>
    cases erased with
    | nil => rfl
    | cons msg erased =>
      exact if_pos (herased msg List.mem_cons_self)
  | cons msg older =>
    rw [List.cons_append, currentMessage, currentMessage]
    split_ifs
    · rfl
    · rfl

theorem receiveLoop_append (herased : ∀ msg ∈ erased, msg.complete = true) (fuel : ℕ)
    (vRecvMsg : List CNetMessage) (pch : List UInt8) :
    receiveLoop fTestNet fuel (vRecvMsg ++ erased) pch =
      (receiveLoop fTestNet fuel vRecvMsg pch).map fun r => (r.1, r.2 ++ erased) := by
  induction fuel generalizing vRecvMsg pch with
  | zero =>
    rw [receiveLoop, receiveLoop]
    split_ifs
    · rfl
    · rfl
  | succ fuel ih =>
    rw [receiveLoop, receiveLoop]
    by_cases hpch : pch = []
    · rw [if_pos hpch, if_pos hpch]
      rfl
    rw [if_neg hpch, if_neg hpch, currentMessage_append herased]
    dsimp only
    cases (currentMessage fTestNet vRecvMsg).1.absorb pch with
    | none => rfl
    | some taken => exact ih (taken.1 :: (currentMessage fTestNet vRecvMsg).2) _

/-- The link as if nothing had been erased. -/
def Link.withErased (s : Link) (erased : List CNetMessage) : Link :=
  { s with vRecvMsg := s.vRecvMsg ++ erased }

theorem LinkOp.exec_withErased (hash : List UInt8 → Uint256)
    (herased : ∀ msg ∈ erased, msg.complete = true) (op : LinkOp) (s : Link) :
    op.exec fTestNet hash (s.withErased erased) =
      (op.exec fTestNet hash s).map fun s' => s'.withErased erased := by
  cases op with
  | beginMessage pszCommand =>
    change (Net.beginMessage fTestNet s.node pszCommand).map _ =
      ((Net.beginMessage fTestNet s.node pszCommand).map _).map _
    rw [Option.map_map]
    rfl
  | write bytes => rfl
  | abortMessage => rfl
  | endMessage dropped replies =>
    change (Net.endMessage hash s.node dropped replies).map _ =
      ((Net.endMessage hash s.node dropped replies).map _).map _
    rw [Option.map_map]
    rfl
  | socketSendData replies =>
    change (Net.socketSendData s.node replies).map _ =
      ((Net.socketSendData s.node replies).map _).map _
    rw [Option.map_map]
    rfl
  | receiveMsgBytes pch =>
    rw [LinkOp.exec, LinkOp.exec, Link.withErased, Net.receiveMsgBytes, Net.receiveMsgBytes,
      receiveLoop_append herased]
    rcases receiveLoop fTestNet pch.length s.vRecvMsg pch with _ | ⟨_ | _,vRecvMsg⟩
    all_goals rfl

theorem LinkOp.Allowed.withErased {op : LinkOp} {s : Link} (h : op.Allowed s) :
    op.Allowed (s.withErased erased) := by
  cases op
  all_goals exact h

theorem completed_append (vRecvMsg older : List CNetMessage) :
    completed (vRecvMsg ++ older) = completed older ++ completed vRecvMsg := by
  rw [completed, List.filter_append, List.map_append, List.reverse_append]
  rfl

theorem completed_reverse {taken : List CNetMessage} (h : ∀ msg ∈ taken, msg.complete = true) :
    completed taken.reverse = taken.map CNetMessage.message := by
  have hall : taken.reverse.filter CNetMessage.complete = taken.reverse :=
    List.filter_eq_self.mpr fun msg hmem => h msg (List.mem_reverse.mp hmem)
  rw [completed, hall, List.map_reverse, List.reverse_reverse]
  rfl

theorem mem_completed {vRecvMsg : List CNetMessage} {msg : CNetMessage} (hmem : msg ∈ vRecvMsg)
    (h : msg.complete = true) : msg.message ∈ completed vRecvMsg :=
  List.mem_reverse.mpr (List.mem_map_of_mem (List.mem_filter.mpr ⟨hmem, h⟩))

/-- When all messages have come out of the queue, none of its entries is incomplete. -/
theorem Received.all_complete {msgs : List Message} {vRecvMsg : List CNetMessage} {taken : List UInt8}
    (h : Received msgs vRecvMsg taken) (hall : Net.completed vRecvMsg = msgs) :
    ∀ msg ∈ vRecvMsg, msg.complete = true := by
  have hlen := congrArg List.length hall
  rw [Net.completed, List.length_reverse, List.length_map] at hlen
  have hle : vRecvMsg.length ≤ msgs.length := by
    rcases h with ⟨rfl,-⟩ | ⟨done,m,later,part,msg,older,rfl,-,rfl,-,hdone⟩
    · exact Nat.zero_le _
    · have holder := hdone.length_eq
      rw [List.length_reverse] at holder
      rw [List.length_cons, List.length_append, List.length_cons]
      omega
  exact List.length_filter_eq_length_iff.mp
    (le_antisymm (List.length_filter_le _ _) (hle.trans hlen.ge))

end Older

theorem LinkOk.all_received {s : Link} (h : LinkOk fTestNet s) (hsent : s.node.vSendMsg = [])
    (harrived : s.received = s.node.wire) : s.received = s.pushed.flatMap Message.bytes := by
  rw [harrived, ← h.stream, SendSide.pending, hsent, List.flatten_nil, List.drop_nil, List.append_nil]

section Sessions
variable (fTestNet : Bool) (hash : List UInt8 → Uint256)

/-- Without what it has erased the receiver is that of the link, and the calls are those for what is
erased; once disconnected there are no more calls. -/
structure SessionOk (s : Session) : Prop where
  pushed : ∀ m ∈ s.link.pushed, Pushed fTestNet hash m
  called : s.calls <+: deliver fTestNet s.link.pushed
  reading : s.hSocket = true → ∃ erased, (∀ msg ∈ erased, msg.complete = true) ∧
    LinkOk fTestNet (s.link.withErased erased) ∧
    (s.fDisconnect = false → s.calls = deliver fTestNet (completed erased))
  closed : s.hSocket = false → s.fDisconnect = true

variable {fTestNet hash} {s s' : Session}

/-- What is pushed stays. -/
theorem LinkOp.exec_pushed {op : LinkOp} {l l' : Link} (hop : op.Allowed l)
    (h : op.exec fTestNet hash l = some l') (hpushed : ∀ m ∈ l.pushed, Pushed fTestNet hash m) :
    l.pushed <+: l'.pushed ∧ ∀ m ∈ l'.pushed, Pushed fTestNet hash m := by
  cases op with
  | beginMessage pszCommand =>
    obtain ⟨node,-,rfl⟩ := Option.map_eq_some_iff.mp h
    exact ⟨List.prefix_rfl, hpushed⟩
  | write bytes =>
    obtain rfl := Option.some.inj h
    exact ⟨List.prefix_rfl, hpushed⟩
  | abortMessage =>
    obtain rfl := Option.some.inj h
    exact ⟨List.prefix_rfl, hpushed⟩
  | endMessage dropped replies =>
    obtain ⟨node,-,rfl⟩ := Option.map_eq_some_iff.mp h
    cases dropped with
    | true => exact ⟨List.prefix_rfl, hpushed⟩
    | false =>
      refine ⟨List.prefix_append _ _, fun m hmem => ?_⟩
      rcases List.mem_append.mp hmem with hmem | hmem
      · exact hpushed m hmem
      · exact ⟨l.pszCommand, l.payload, hop.2, List.mem_singleton.mp hmem⟩
  | socketSendData replies =>
    obtain ⟨node,-,rfl⟩ := Option.map_eq_some_iff.mp h
    exact ⟨List.prefix_rfl, hpushed⟩
  | receiveMsgBytes pch =>
    rw [LinkOp.exec] at h
    rcases hreceive : Net.receiveMsgBytes fTestNet l.vRecvMsg pch with _ | ⟨_ | _,vRecvMsg⟩
    · rw [hreceive] at h
      cases h
    · rw [hreceive] at h
      cases h
    · rw [hreceive] at h
      obtain rfl := Option.some.inj h
      exact ⟨List.prefix_rfl, hpushed⟩

theorem Session.start_ok : SessionOk fTestNet hash Session.start := by
  refine ⟨fun _ hmem => absurd hmem List.not_mem_nil, List.nil_prefix, fun _ => ⟨[], ?_, ?_, ?_⟩, ?_⟩
  · exact fun _ hmem => absurd hmem List.not_mem_nil
  · exact Link.start_ok
  · exact fun _ => rfl
  · exact fun hclosed => nomatch hclosed

theorem SessionOk.disconnect (h : SessionOk fTestNet hash s) (how : Disconnect) :
    SessionOk fTestNet hash (how.exec s) := by
  cases how with
  | flag =>
    refine ⟨h.pushed, h.called, fun hsocket => ?_, fun _ => rfl⟩
    obtain ⟨erased,herased,hok,-⟩ := h.reading hsocket
    exact ⟨erased, herased, hok, fun hconnected => nomatch hconnected⟩
  | close lockRecv =>
    have hpushed : (Net.closeSocketDisconnect lockRecv s).link.pushed = s.link.pushed := by
      rw [closeSocketDisconnect]
      split_ifs
      · rfl
      · rfl
    refine ⟨fun m hmem => h.pushed m (hpushed ▸ hmem), ?_, fun hsocket => (nomatch hsocket), fun _ => rfl⟩
    change s.calls <+: deliver fTestNet (Net.closeSocketDisconnect lockRecv s).link.pushed
    rw [hpushed]
    exact h.called

/-- What one round does in a session that is connected: it calls `ProcessMessage` for the complete
messages it takes and leaves the others for the next round. -/
theorem SessionOk.processMessages (h : SessionOk fTestNet hash s) (hconnected : s.fDisconnect = false)
    (io : ProcessIO) : (Net.processMessages fTestNet hash io s).1 = true ∧
      SessionOk fTestNet hash (Net.processMessages fTestNet hash io s).2 ∧
      (io.Quiet → s.link.node.vSendMsg = [] → s.link.received = s.link.node.wire →
        (Net.processMessages fTestNet hash io s).2.calls = deliver fTestNet s.link.pushed ∧
        (Net.processMessages fTestNet hash io s).2.link.vRecvMsg = []) := by
  have hsocket : s.hSocket = true := by
    by_contra hclosed
    rw [h.closed (Bool.eq_false_of_not_eq_true hclosed)] at hconnected
    cases hconnected
  obtain ⟨erased,herased,hok,hcalls⟩ := h.reading hsocket
  -- the reader of the link is the queue with what was erased of it
  obtain ⟨hbegins,hevery⟩ := hok.reader.completed hok.valid
  have hpushed : ∀ msg ∈ s.link.vRecvMsg.reverse, msg.complete = true →
      Pushed fTestNet hash msg.message := by
    intro msg hmem hmsg
    apply h.pushed
    have hfull : msg ∈ s.link.vRecvMsg ++ erased := List.mem_append_left _ (List.mem_reverse.mp hmem)
    exact hbegins.subset (mem_completed hfull hmsg)
  obtain ⟨taken,hsplit,htaken,hmore,hfOk,hquiet⟩ := processLoop_spec io hpushed
  rw [Net.processMessages, if_neg (by rw [hconnected]; exact Bool.false_ne_true)]
  dsimp only
  generalize processLoop fTestNet hash io s.link.vRecvMsg.reverse = done at *
  -- the queue is what stays and, before it, what is taken
  have hqueue : s.link.vRecvMsg = done.rest.reverse ++ taken.reverse := by
    rw [← List.reverse_append, ← hsplit, List.reverse_reverse]
  have herased' : ∀ msg ∈ taken.reverse ++ erased, msg.complete = true := by
    intro msg hmem
    rcases List.mem_append.mp hmem with hmem | hmem
    · exact htaken msg (List.mem_reverse.mp hmem)
    · exact herased msg hmem
  have hcalls' : s.calls ++ done.calls = deliver fTestNet (completed (taken.reverse ++ erased)) := by
    rw [completed_append, completed_reverse htaken, deliver_append, hcalls hconnected, hmore]
  have hfull : completed (s.link.vRecvMsg ++ erased) =
      completed (taken.reverse ++ erased) ++ completed done.rest.reverse := by
    rw [hqueue, List.append_assoc, completed_append]
  have hcalled : s.calls ++ done.calls <+: deliver fTestNet s.link.pushed := by
    have hle : completed (taken.reverse ++ erased) <+: s.link.pushed := by
      refine List.IsPrefix.trans ?_ hbegins
      change _ <+: completed (s.link.vRecvMsg ++ erased)
      rw [hfull]
      exact List.prefix_append _ _
    rw [hcalls']
    exact deliver_initial hle
  have hwhole : s.link.node.vSendMsg = [] → s.link.received = s.link.node.wire →
      completed (s.link.vRecvMsg ++ erased) = s.link.pushed := fun hsent harrived =>
    hevery (hok.all_received hsent harrived)
  have hend : io.Quiet → s.link.node.vSendMsg = [] → s.link.received = s.link.node.wire →
      done.rest = [] ∧ done.disconnect = none := by
    intro hio hsent harrived
    have hcomplete := hok.reader.all_complete (hwhole hsent harrived)
    exact hquiet hio fun msg hmem => hcomplete msg (List.mem_append_left _ (List.mem_reverse.mp hmem))
  cases hdisconnect : done.disconnect with
  | some how =>
    have hafter : SessionOk fTestNet hash { s with calls := s.calls ++ done.calls, fDisconnect := true } :=
      ⟨h.pushed, hcalled, fun _ => ⟨erased, herased, hok, fun hfalse => nomatch hfalse⟩, fun _ => rfl⟩
    refine ⟨hfOk, ?_, fun hio hsent harrived => ?_⟩
    · cases how with
      | flag => exact hafter
      | close lockRecv => exact hafter.disconnect (.close lockRecv)
    · have hnone := (hend hio hsent harrived).2
      rw [hdisconnect] at hnone
      cases hnone
  | none =>
    have hlink : (s.link.withErased erased) =
        ({ s.link with vRecvMsg := done.rest.reverse } : Link).withErased (taken.reverse ++ erased) := by
      rw [Link.withErased, Link.withErased, hqueue, List.append_assoc]
    refine ⟨hfOk, ⟨h.pushed, hcalled, fun _ => ⟨_, herased', hlink ▸ hok, fun _ => hcalls'⟩, h.closed⟩,
      fun hio hsent harrived => ?_⟩
    have hrest := (hend hio hsent harrived).1
    constructor
    · change s.calls ++ done.calls = _
      rw [hcalls', ← hwhole hsent harrived, hfull, hrest, List.reverse_nil]
      exact congrArg _ (List.append_nil _).symm
    · change done.rest.reverse = []
      rw [hrest, List.reverse_nil]

/-- Every step keeps the agreement. -/
theorem SessionOk.exec (h : SessionOk fTestNet hash s) {op : SessionOp} (hop : op.Allowed s)
    (hexec : op.exec fTestNet hash s = some s') : SessionOk fTestNet hash s' := by
  cases op with
  | link op =>
    obtain ⟨link,hlink,rfl⟩ := Option.map_eq_some_iff.mp hexec
    have hallowed : op.Allowed s.link := by
      cases op
      case receiveMsgBytes => exact hop.2
      all_goals exact hop
    obtain ⟨hle,hpushed⟩ := LinkOp.exec_pushed hallowed hlink h.pushed
    refine ⟨hpushed, h.called.trans (deliver_initial hle), fun hsocket => ?_, h.closed⟩
    obtain ⟨erased,herased,hok,hcalls⟩ := h.reading hsocket
    -- the link with nothing erased makes the same step, and it is right about that one
    obtain ⟨link',heq,hok'⟩ : ∃ link', op.exec fTestNet hash (s.link.withErased erased) = some link' ∧
        LinkOk fTestNet link' := hok.exec op hallowed.withErased
    rw [LinkOp.exec_withErased hash herased, hlink] at heq
    obtain rfl := Option.some.inj heq
    exact ⟨erased, herased, hok', hcalls⟩
  | messageRound io =>
    obtain rfl := Option.some.inj hexec
    rw [Net.messageRound]
    split_ifs with hdisconnected
    · exact h
    have hround := h.processMessages (Bool.eq_false_of_not_eq_true hdisconnected) io
    generalize Net.processMessages fTestNet hash io s = r at hround
    obtain ⟨fOk,after⟩ := r
    obtain ⟨rfl,hafter,-⟩ := hround
    exact hafter
  | disconnect how =>
    obtain rfl := Option.some.inj hexec
    exact h.disconnect how

theorem SessionReaches.ok (h : SessionReaches fTestNet hash s) : SessionOk fTestNet hash s := by
  induction h with
  | start => exact Session.start_ok
  | step _ op hop hexec ih => exact ih.exec hop hexec

variable (fTestNet hash)

/-- However the threads take turns, `ProcessMessage` is called for the messages that were pushed with
a proper command, for each at most once and in their order; no round finds a message that closes the
connection, and a round that nothing cuts short, once all bytes are there, calls it for all of them. -/
theorem messages_handled_once (s : Session) (h : SessionReaches fTestNet hash s) :
    s.calls <+: deliver fTestNet s.link.pushed ∧
    (∀ m ∈ s.link.pushed, ∃ pszCommand payload, m = pushedMessage fTestNet hash pszCommand payload ∧
      m.hdr.isValid fTestNet = (sentCommand pszCommand).all printable ∧
      m.hdr.getCommand = sentCommand pszCommand) ∧
    ∀ io : ProcessIO, s.fDisconnect = false →
      (processMessages fTestNet hash io s).1 = true ∧
      (io.Quiet → s.link.node.vSendMsg = [] → s.link.received = s.link.node.wire →
        (processMessages fTestNet hash io s).2.calls = deliver fTestNet s.link.pushed ∧
        (processMessages fTestNet hash io s).2.link.vRecvMsg = []) := by
  have hok := h.ok
  refine ⟨hok.called, fun m hmem => ?_, fun io hconnected => ?_⟩
  · obtain ⟨pszCommand,payload,hsize,rfl⟩ := hok.pushed m hmem
    exact ⟨pszCommand, payload, rfl, Pushed.isValid hsize, getCommand_make fTestNet pszCommand _ _⟩
  · obtain ⟨htrue,-,hall⟩ := hok.processMessages hconnected io
    exact ⟨htrue, hall⟩

end Sessions

section Sample

def quietIO : ProcessIO := ⟨1000, fun _ => none, fun _ => 0⟩

/-- The message arrives in two pieces, and a round in between finds nothing to do. -/
theorem verack_session : ∃ s, SessionReaches false (fun _ => 0) s ∧ s.fDisconnect = false ∧
    s.link.node.vSendMsg = [] ∧ s.link.received = s.link.node.wire ∧
    s.link.pushed = [pushedMessage false (fun _ => 0) verack []] := by
  have hopen := SessionReaches.start.step (.link (.beginMessage verack)) rfl
    (by rfl : SessionOp.exec false (fun _ => 0) Session.start _ = some _)
  have hsent := (hopen.step (.link (.endMessage false [10])) ⟨rfl, by decide⟩ rfl).step
    (.link (.socketSendData [100])) rfl rfl
  have hfirst := hsent.step (.link (.receiveMsgBytes verackStart))
    ⟨rfl, List.prefix_append verackStart (List.replicate 14 0)⟩ rfl
  have hround := hfirst.step (.messageRound quietIO) trivial rfl
  have hlast := hround.step (.link (.receiveMsgBytes (List.replicate 14 0)))
    ⟨rfl, (List.prefix_rfl : verackStart ++ List.replicate 14 0 <+: _)⟩ rfl
  exact ⟨_, hlast, rfl, rfl, rfl, rfl⟩

theorem messages_handled_once_verack : ∃ s : Session,
    (processMessages false (fun _ => 0) quietIO s).2.calls = [(verack, [])] := by
  obtain ⟨s,hreaches,hconnected,hsent,harrived,hpushed⟩ := verack_session
  obtain ⟨-,-,hround⟩ := messages_handled_once false (fun _ => 0) s hreaches
  have hquiet : quietIO.Quiet := ⟨fun _ => rfl, fun _ => (by decide : 0 < 1000)⟩
  have hcalls := ((hround quietIO hconnected).2 hquiet hsent harrived).1
  refine ⟨s, hcalls.trans ?_⟩
  rw [hpushed]
  decide

end Sample

end Candypool.Net
