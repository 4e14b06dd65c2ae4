import Candypool.Net.Message

/-! Messages from one peer to another: what the receiver has completed is a prefix of what was pushed,
however the socket cuts the stream on either side. -/
namespace Candypool.Net
open Candypool.Prime Candypool.Core

section Received

variable {msgs : List Message} {vRecvMsg : List CNetMessage} {taken pch : List UInt8}

/-- The bytes taken so far are complete messages and a part of the next one. -/
def Received (msgs : List Message) (vRecvMsg : List CNetMessage) (taken : List UInt8) : Prop :=
  (vRecvMsg = [] ∧ taken = []) ∨ ∃ done m later part msg older, msgs = done ++ m :: later ∧
    taken = done.flatMap Message.bytes ++ part ∧ vRecvMsg = msg :: older ∧ Absorbed m part msg ∧
    List.Forall₂ (fun m msg => Absorbed m m.bytes msg) done.reverse older

/-- The messages that are complete, in the order of arrival. -/
def completed (vRecvMsg : List CNetMessage) : List Message :=
  ((vRecvMsg.filter CNetMessage.complete).map fun msg => ⟨msg.hdr, msg.vRecv⟩).reverse

theorem completed_of_full {done : List Message} {older : List CNetMessage}
    (hvalid : ∀ m ∈ done, m.Valid)
    (h : List.Forall₂ (fun m msg => Absorbed m m.bytes msg) done older) :
    (older.filter CNetMessage.complete).map (fun msg => (⟨msg.hdr, msg.vRecv⟩ : Message)) = done := by
  induction h with
  | nil => rfl
  | cons habsorbed _ ih =>
    have hm := hvalid _ List.mem_cons_self
    rw [List.filter_cons_of_pos ((habsorbed.complete_iff hm).mpr rfl), List.map_cons,
      habsorbed.full hm, ih fun m hm => hvalid m (List.mem_cons_of_mem _ hm)]

theorem Received.mono (h : Received msgs vRecvMsg taken) (more : List Message) :
    Received (msgs ++ more) vRecvMsg taken := by
  rcases h with h | ⟨done,m,later,part,msg,older,rfl,h⟩
  · exact Or.inl h
  · refine Or.inr ⟨done, m, later ++ more, part, msg, older, ?_, h⟩
    rw [List.append_assoc, List.cons_append]

/-- What is complete was pushed; when every byte has arrived, it is all that was pushed. -/
theorem Received.completed (hvalid : ∀ m ∈ msgs, m.Valid) (h : Received msgs vRecvMsg taken) :
    Net.completed vRecvMsg <+: msgs ∧
      (taken = msgs.flatMap Message.bytes → Net.completed vRecvMsg = msgs) := by
  have hbytes : ∀ m ∈ msgs, m.bytes ≠ [] := by
    intro m hm hnil
    have hlen := (hvalid m hm).bytes_length
    rw [hnil, List.length_nil] at hlen
    omega
  rcases h with ⟨rfl,rfl⟩ | ⟨done,m,later,part,msg,older,rfl,rfl,rfl,habsorbed,hdone⟩
  · refine ⟨List.nil_prefix, fun hall => ?_⟩
    cases msgs with
    | nil => rfl
    | cons m msgs =>
      rw [List.flatMap_cons] at hall
      exact absurd (List.append_eq_nil_iff.mp hall.symm).1 (hbytes m List.mem_cons_self)
  · have hm := hvalid m (List.mem_append_right _ List.mem_cons_self)
    have holder := completed_of_full
      (fun m hm => hvalid m (List.mem_append_left _ (List.mem_reverse.mp hm))) hdone
    -- the message in progress is complete, or bytes of it are still to come
    by_cases hfull : part = m.bytes
    · subst hfull
      have hall : Net.completed (msg :: older) = done ++ [m] := by
        rw [Net.completed, List.filter_cons_of_pos ((habsorbed.complete_iff hm).mpr rfl),
          List.map_cons, holder, List.reverse_cons, List.reverse_reverse, habsorbed.full hm]
      rw [hall]
      refine ⟨⟨later, by rw [List.append_assoc]; rfl⟩, fun htaken => ?_⟩
      rw [List.flatMap_append, List.flatMap_cons, List.append_cancel_left_eq,
        List.self_eq_append_right] at htaken
      cases later with
      | nil => rfl
      | cons next later =>
        rw [List.flatMap_cons] at htaken
        exact absurd (List.append_eq_nil_iff.mp htaken).1
          (hbytes next (List.mem_append_right _ (List.mem_cons_of_mem _ List.mem_cons_self)))
    · have hall : Net.completed (msg :: older) = done := by
        rw [Net.completed, List.filter_cons_of_neg fun h => hfull ((habsorbed.complete_iff hm).mp h),
          holder, List.reverse_reverse]
      rw [hall]
      refine ⟨List.prefix_append _ _, fun htaken => absurd ?_ hfull⟩
      rw [List.flatMap_append, List.flatMap_cons, List.append_cancel_left_eq] at htaken
      apply habsorbed.le.eq_of_length
      have hle := habsorbed.le.length_le
      rw [htaken, List.length_append] at hle ⊢
      omega

/-- More bytes are to come, so there is a message they are of, and it is not complete. -/
theorem Received.current (fTestNet : Bool) (hvalid : ∀ m ∈ msgs, m.Valid)
    (h : Received msgs vRecvMsg taken) (hpch : pch ≠ [])
    (hstream : taken ++ pch <+: msgs.flatMap Message.bytes) :
    ∃ done m later part, msgs = done ++ m :: later ∧ taken = done.flatMap Message.bytes ++ part ∧
      part.length < m.bytes.length ∧ Absorbed m part (currentMessage fTestNet vRecvMsg).1 ∧
      List.Forall₂ (fun m msg => Absorbed m m.bytes msg) done.reverse
        (currentMessage fTestNet vRecvMsg).2 := by
  -- nothing is in progress, or a message is
  rcases h with ⟨rfl,rfl⟩ | ⟨done,m,later,part,msg,older,rfl,rfl,rfl,habsorbed,hdone⟩
  · cases msgs with
    | nil => exact absurd (List.prefix_nil.mp hstream) hpch
    | cons m later =>
      refine ⟨[], m, later, [], rfl, rfl, ?_, Absorbed.make fTestNet m, List.Forall₂.nil⟩
      have hlen := (hvalid m List.mem_cons_self).bytes_length
      rw [List.length_nil]
      omega
  · have hm := hvalid m (List.mem_append_right _ List.mem_cons_self)
    by_cases hfull : part = m.bytes
    · subst hfull
      have hcomplete : msg.complete = true := (habsorbed.complete_iff hm).mpr rfl
      rw [List.flatMap_append, List.flatMap_cons, List.append_assoc,
        List.prefix_append_right_inj, List.prefix_append_right_inj] at hstream
      cases later with
      | nil => exact absurd (List.prefix_nil.mp hstream) hpch
      | cons next later =>
        rw [currentMessage, if_pos hcomplete]
        refine ⟨done ++ [m], next, later, [], ?_, ?_, ?_, Absorbed.make fTestNet next, ?_⟩
        · rw [List.append_assoc]
          rfl
        · rw [List.flatMap_append, List.flatMap_singleton, List.append_nil]
        · have hlen := (hvalid next (List.mem_append_right _
            (List.mem_cons_of_mem _ List.mem_cons_self))).bytes_length
          rw [List.length_nil]
          omega
        · rw [List.reverse_append]
          exact List.Forall₂.cons habsorbed hdone
    · have hcomplete : ¬msg.complete = true := fun h => hfull ((habsorbed.complete_iff hm).mp h)
      rw [currentMessage, if_neg hcomplete]
      refine ⟨done, m, later, part, rfl, rfl, ?_, habsorbed, hdone⟩
      apply lt_of_le_of_ne habsorbed.le.length_le
      exact fun hlen => hfull (habsorbed.le.eq_of_length hlen)

/-- The reader takes every chunk of the stream. -/
theorem receiveLoop_spec (fTestNet : Bool) (hvalid : ∀ m ∈ msgs, m.Valid) (fuel : ℕ)
    (hfuel : pch.length ≤ fuel) (h : Received msgs vRecvMsg taken)
    (hstream : taken ++ pch <+: msgs.flatMap Message.bytes) :
    ∃ vRecvMsg', receiveLoop fTestNet fuel vRecvMsg pch = some (true, vRecvMsg') ∧
      Received msgs vRecvMsg' (taken ++ pch) := by
  induction fuel generalizing vRecvMsg taken pch with
  | zero =>
    obtain rfl : pch = [] := List.length_eq_zero_iff.mp (by omega)
    refine ⟨vRecvMsg, ?_, ?_⟩
    · rw [receiveLoop, if_pos rfl]
    · rwa [List.append_nil]
  | succ fuel ih =>
    by_cases hpch : pch = []
    · subst hpch
      refine ⟨vRecvMsg, ?_, ?_⟩
      · rw [receiveLoop, if_pos rfl]
      · rwa [List.append_nil]
    -- the bytes continue the message in progress
    obtain ⟨done,m,later,part,rfl,rfl,hlt,habsorbed,hdone⟩ :=
      h.current fTestNet hvalid hpch hstream
    have hm := hvalid m (List.mem_append_right _ List.mem_cons_self)
    have hrest : part ++ pch <+: m.bytes ++ later.flatMap Message.bytes := by
      rwa [List.flatMap_append, List.flatMap_cons, List.append_assoc,
        List.prefix_append_right_inj] at hstream
    obtain ⟨msg,handled,heq,hpos,hle,habsorbed'⟩ := habsorbed.absorb hm hlt hpch hrest
    have hreceived : Received (done ++ m :: later)
        (msg :: (currentMessage fTestNet vRecvMsg).2)
        (done.flatMap Message.bytes ++ part ++ pch.take handled) := by
      refine Or.inr ⟨done, m, later, part ++ pch.take handled, msg, _, rfl, ?_, rfl, habsorbed', hdone⟩
      rw [List.append_assoc]
    have hsplit : done.flatMap Message.bytes ++ part ++ pch.take handled ++ pch.drop handled =
        done.flatMap Message.bytes ++ part ++ pch := by
      rw [List.append_assoc _ (pch.take handled), List.take_append_drop]
    obtain ⟨vRecvMsg',hloop,hfinal⟩ := @ih _ _ (pch.drop handled)
      (by rw [List.length_drop]; omega) hreceived (by rwa [hsplit])
    refine ⟨vRecvMsg', ?_, ?_⟩
    · rw [receiveLoop, if_neg hpch]
      simp only [heq, hloop]
    · rwa [hsplit] at hfinal

end Received

section Link

/-- A peer that sends to another one. `fOpen` is the lock between `BeginMessage` and `EndMessage` or
`AbortMessage`, with the command and the payload of the message in work; `pushed` are the messages
that went into the queue, and `received` the bytes that have reached the other end. -/
structure Link where
  node : SendSide
  fOpen : Bool
  pszCommand : List UInt8
  payload : List UInt8
  pushed : List Message
  vRecvMsg : List CNetMessage
  received : List UInt8

def Link.start : Link := ⟨⟨[], [], 0, 0, []⟩, false, [], [], [], [], []⟩

inductive LinkOp where
  | beginMessage (pszCommand : List UInt8)
  | write (bytes : List UInt8)
  | abortMessage
  | endMessage (dropped : Bool) (replies : List ℤ)
  | socketSendData (replies : List ℤ)
  | receiveMsgBytes (pch : List UInt8)

variable (fTestNet : Bool) (hash : List UInt8 → Uint256)

/-- What may come next: the lock is kept, a payload has at most `MAX_SIZE` bytes, and the receiver is
given what follows in the stream, in any pieces. -/
def LinkOp.Allowed (s : Link) : LinkOp → Prop
  | .beginMessage _ => s.fOpen = false
  | .write _ => s.fOpen = true
  | .abortMessage => s.fOpen = true
  | .endMessage _ _ => s.fOpen = true ∧ s.payload.length ≤ maxSize
  | .socketSendData _ => s.fOpen = false
  | .receiveMsgBytes pch => s.received ++ pch <+: s.node.wire

/-- None is an assert that fires, or a receiver that refuses the bytes. -/
def LinkOp.exec (s : Link) : LinkOp → Option Link
  | .beginMessage pszCommand => (Net.beginMessage fTestNet s.node pszCommand).map fun node =>
    { s with node := node, fOpen := true, pszCommand := pszCommand, payload := [] }
  | .write bytes => some { s with
      node := { s.node with ssSend := s.node.ssSend ++ bytes }
      payload := s.payload ++ bytes }
  | .abortMessage => some { s with node := Net.abortMessage s.node, fOpen := false }
  | .endMessage dropped replies => (Net.endMessage hash s.node dropped replies).map fun node =>
    { s with
      node := node
      fOpen := false
      pushed := if dropped then s.pushed
        else s.pushed ++ [pushedMessage fTestNet hash s.pszCommand s.payload] }
  | .socketSendData replies => (Net.socketSendData s.node replies).map fun node =>
    { s with node := node }
  | .receiveMsgBytes pch =>
    match Net.receiveMsgBytes fTestNet s.vRecvMsg pch with
    | some (true,vRecvMsg) => some { s with vRecvMsg := vRecvMsg, received := s.received ++ pch }
    | _ => none

inductive LinkReaches : Link → Prop where
  | start : LinkReaches Link.start
  | step {s s' : Link} (h : LinkReaches s) (op : LinkOp) (hop : op.Allowed s)
      (hexec : op.exec fTestNet hash s = some s') : LinkReaches s'

/-- Sender, stream and receiver agree. -/
structure LinkOk (s : Link) : Prop where
  queued : s.node.Queued s.node.vSendMsg
  stream : s.node.wire ++ s.node.pending = s.pushed.flatMap Message.bytes
  draft : s.fOpen = true → s.node.ssSend =
    (CMessageHeader.make fTestNet s.pszCommand 0).serialize ++ s.payload
  closed : s.fOpen = false → s.node.ssSend = []
  valid : ∀ m ∈ s.pushed, m.Valid
  arrived : s.received <+: s.node.wire
  reader : Received s.pushed s.vRecvMsg s.received

variable {fTestNet hash} {s : Link}

theorem Link.start_ok : LinkOk fTestNet Link.start := by
  refine ⟨⟨rfl, ?_, ?_, fun _ => rfl⟩, rfl, ?_, fun _ => rfl, ?_, List.prefix_rfl, Or.inl ⟨rfl, rfl⟩⟩
  · exact fun data hdata => absurd hdata List.not_mem_nil
  · exact fun data hdata => absurd hdata (Option.not_mem_none data)
  · exact fun hopen => absurd hopen Bool.false_ne_true
  · exact fun m hm => absurd hm List.not_mem_nil

/-- A call succeeds and keeps the agreement. -/
theorem LinkOk.exec (h : LinkOk fTestNet s) (op : LinkOp) (hop : op.Allowed s) :
    ∃ s', op.exec fTestNet hash s = some s' ∧ LinkOk fTestNet s' := by
  cases op with
  | beginMessage pszCommand =>
    have hbegin : Net.beginMessage fTestNet s.node pszCommand = some { s.node with
        ssSend := (CMessageHeader.make fTestNet pszCommand 0).serialize } := by
      rw [Net.beginMessage, h.closed hop, List.length_nil, if_pos rfl, List.nil_append]
    refine ⟨{ s with
      node := { s.node with ssSend := (CMessageHeader.make fTestNet pszCommand 0).serialize }
      fOpen := true
      pszCommand := pszCommand
      payload := [] }, ?_,
      ⟨⟨h.queued.size, h.queued.nonempty, h.queued.first, h.queued.empty⟩, h.stream, fun _ => ?_,
        fun hclosed => ?_, h.valid, h.arrived, h.reader⟩⟩
    · rw [LinkOp.exec, hbegin]
      rfl
    · exact (List.append_nil _).symm
    · cases hclosed
  | write bytes =>
    have hopen : s.fOpen = true := hop
    refine ⟨_, rfl, ⟨⟨h.queued.size, h.queued.nonempty, h.queued.first, h.queued.empty⟩, h.stream,
      fun _ => ?_, fun hclosed => ?_, h.valid, h.arrived, h.reader⟩⟩
    · change s.node.ssSend ++ bytes = _ ++ (s.payload ++ bytes)
      rw [h.draft hopen, List.append_assoc]
    · change s.fOpen = false at hclosed
      rw [hopen] at hclosed
      cases hclosed
  | abortMessage =>
    refine ⟨_, rfl, ⟨⟨h.queued.size, h.queued.nonempty, h.queued.first, h.queued.empty⟩, h.stream,
      fun hopen => ?_, fun _ => rfl, h.valid, h.arrived, h.reader⟩⟩
    cases hopen
  | endMessage dropped replies =>
    obtain ⟨hopen,hsize⟩ := hop
    cases dropped with
    | true =>
      refine ⟨_, rfl, ⟨⟨h.queued.size, h.queued.nonempty, h.queued.first, h.queued.empty⟩, h.stream,
        fun hopen => ?_, fun _ => rfl, h.valid, h.arrived, h.reader⟩⟩
      cases hopen
    | false =>
      obtain ⟨node,heq,hqueued,hss,hwire,hle⟩ := endMessage_spec fTestNet hash s.pszCommand s.payload
        replies h.queued (h.draft hopen)
      have hvalid := pushedMessage_valid fTestNet hash s.pszCommand hsize
      refine ⟨{ s with
        node := node
        fOpen := false
        pushed := s.pushed ++ [pushedMessage fTestNet hash s.pszCommand s.payload] }, ?_,
        ⟨hqueued, ?_, fun hopen => ?_, fun _ => hss, ?_, h.arrived.trans hle, h.reader.mono _⟩⟩
      · rw [LinkOp.exec, heq]
        rfl
      · rw [List.flatMap_append, List.flatMap_singleton, ← h.stream, List.append_assoc]
        exact hwire
      · cases hopen
      · intro m hm
        rcases List.mem_append.mp hm with hm | hm
        · exact h.valid m hm
        · rw [List.mem_singleton.mp hm]
          exact hvalid
  | socketSendData replies =>
    obtain ⟨node,heq,hqueued,hss,hwire,hle⟩ := socketSendLoop_spec _ replies s.node h.queued
    refine ⟨{ s with node := node }, ?_, ⟨hqueued, hwire.trans h.stream, fun hopen => ?_,
      fun hclosed => ?_, h.valid, h.arrived.trans hle, h.reader⟩⟩
    · rw [LinkOp.exec, socketSendData, heq]
      rfl
    · exact hss.trans (h.draft hopen)
    · exact hss.trans (h.closed hclosed)
  | receiveMsgBytes pch =>
    -- what arrives is the next part of what was sent
    have hwire : s.received ++ pch <+: s.node.wire := hop
    have hstream : s.received ++ pch <+: s.pushed.flatMap Message.bytes := by
      rw [← h.stream]
      exact hwire.trans (List.prefix_append _ _)
    obtain ⟨vRecvMsg,heq,hreader⟩ :=
      receiveLoop_spec fTestNet h.valid pch.length le_rfl h.reader hstream
    refine ⟨{ s with vRecvMsg := vRecvMsg, received := s.received ++ pch }, ?_,
      ⟨h.queued, h.stream, h.draft, h.closed, h.valid, hwire, hreader⟩⟩
    rw [LinkOp.exec, receiveMsgBytes, heq]

theorem LinkReaches.ok (h : LinkReaches fTestNet hash s) : LinkOk fTestNet s := by
  induction h with
  | start => exact Link.start_ok
  | step _ op hop hexec ih =>
    obtain ⟨s',heq,hok⟩ := ih.exec op hop
    rw [hexec] at heq
    rwa [Option.some.inj heq]

variable (fTestNet hash)

/-- In every state of a link no allowed call fires an assert or is refused, the complete messages
are a prefix of the pushed ones, and all of them once every byte is delivered; the counters of the send
queue are right. -/
theorem messages_survive (s : Link) (h : LinkReaches fTestNet hash s) :
    (∀ op : LinkOp, op.Allowed s → (op.exec fTestNet hash s).isSome = true) ∧
    completed s.vRecvMsg <+: s.pushed ∧
    (s.node.vSendMsg = [] → s.received = s.node.wire → completed s.vRecvMsg = s.pushed) ∧
    s.node.nSendSize = (s.node.vSendMsg.map List.length).sum ∧
    (∀ data ∈ s.node.vSendMsg.head?, s.node.nSendOffset < data.length) ∧
    (s.node.vSendMsg = [] → s.node.nSendOffset = 0) := by
  have hok := h.ok
  obtain ⟨hle,hall⟩ := hok.reader.completed hok.valid
  refine ⟨fun op hop => ?_, hle, fun hempty hwire => hall ?_, hok.queued.size, hok.queued.first,
    hok.queued.empty⟩
  · obtain ⟨s',heq,-⟩ := @LinkOk.exec fTestNet hash s hok op hop
    rw [heq, Option.isSome_some]
  · rw [hwire, ← hok.stream, SendSide.pending, hempty, List.flatten_nil, List.drop_nil,
      List.append_nil]

end Link

section Sample

/-- The command of a message without a payload. -/
def verack : List UInt8 := [118, 101, 114, 97, 99, 107]

def verackStart : List UInt8 := [0xe4, 0xe7, 0xe5, 0xe7] ++ verack

/-- Ten bytes are sent at once, the others later, and they arrive in two pieces. -/
theorem verack_reached : ∃ s, LinkReaches false (fun _ => 0) s ∧ s.node.vSendMsg = [] ∧
    s.received = s.node.wire ∧ s.received = verackStart ++ List.replicate 14 0 ∧
    s.pushed = [pushedMessage false (fun _ => 0) verack []] := by
  have hopen := LinkReaches.start.step (.beginMessage verack) rfl
    (by rfl : LinkOp.exec false (fun _ => 0) Link.start (.beginMessage verack) = some _)
  have hsent := (hopen.step (.endMessage false [10]) ⟨rfl, by decide⟩ rfl).step
    (.socketSendData [100]) rfl rfl
  have hfirst := hsent.step (.receiveMsgBytes verackStart)
    (List.prefix_append verackStart (List.replicate 14 0)) rfl
  exact ⟨_, hfirst.step (.receiveMsgBytes (List.replicate 14 0))
    (List.prefix_rfl : verackStart ++ List.replicate 14 0 <+: _) rfl, rfl, rfl, rfl, rfl⟩

theorem messages_survive_sample : ∃ s : Link, s.received = verackStart ++ List.replicate 14 0 ∧
    completed s.vRecvMsg = [pushedMessage false (fun _ => 0) verack []] := by
  obtain ⟨s,hreaches,hempty,hwire,hreceived,hpushed⟩ := verack_reached
  obtain ⟨-,-,hall,-⟩ := messages_survive false (fun _ => 0) s hreaches
  exact ⟨s, hreceived, (hall hempty hwire).trans hpushed⟩

end Sample

end Candypool.Net
