import Candypool.Pool.CheckWork

/-! The pool server as a machine: the node moves its tip, clients log in and submit shares, and the
server polls for new blocks, in any order. -/
namespace Candypool.Pool
open Candypool.Prime Candypool.Core Candypool.Chain

/-- What identifies the work a share pays for. -/
structure Solution where
  merkleRoot : Uint256
  version : ℕ
  nTime : ℕ
  nBits : BitVec 32
  nonce : ℕ
  chainMultiplier : CBigNum
  deriving DecidableEq, Repr

def solutionOf (share : SubmittedShare) : Solution :=
  ⟨share.merkleRoot, share.version, share.nTime, share.nBits, share.nonce,
    setvch share.chainMultiplier⟩

/-- The node's tip, the server and its clients. `credited` lists the solutions of the `SaveShare`
calls so far. -/
structure PoolState where
  tip : NodeTip
  server : XptServer
  clients : ℕ → WorkClient
  monitored : List ℕ
  credited : List Solution

/-- `tip` is a new best block of the node, `poll` one call of `xptServer_checkForNewBlocks` with
the block that `CreateNewBlock` would return. -/
inductive PoolEvent
  | tip (newTip : NodeTip)
  | login (id workerId userId payloadNum : ℕ) (io : WorkIO)
  | poll (blockTemplate : Option CBlock) (io : ℕ → WorkIO)
  | submit (id : ℕ) (payload : List UInt8) (io : CheckIO)
  | disconnect (id : ℕ)

/-- A client that has just connected. -/
def newWorkClient : WorkClient := ⟨false, false, 0, 0, 0, [], false⟩

namespace PoolState
variable (s : PoolState)

/-- A client is monitored from its first packet on. -/
def monitor (id : ℕ) : PoolState :=
  { s with monitored := if id ∈ s.monitored then s.monitored else s.monitored ++ [id] }

/-- The client is deleted. -/
def drop (id : ℕ) : PoolState :=
  { s with monitored := s.monitored.erase id
           clients := Function.update s.clients id newWorkClient }

def setClient (id : ℕ) (client : WorkClient) : PoolState :=
  { s with clients := Function.update s.clients id client }

end PoolState

section Machine
variable (p : PoolParams)

/-- `xptServer_processPacket_authRequest`, once the database knows the worker. -/
def login (s : PoolState) (id workerId userId payloadNum : ℕ) (io : WorkIO) : Option PoolState :=
  let client := { s.clients id with
    loggedIn := true, workerId := workerId, userId := userId, payloadNum := payloadNum }
  (sendBlockData p io s.tip s.server client).map fun r =>
    let s := { s with server := r.1 }
    if r.2.disconnected then s.drop id else s.setClient id r.2

/-- `xptServer_processPacket_submitShareRequest`: a client that is not logged in or sends less
than a share is dropped. -/
def submitShareRequest (s : PoolState) (id : ℕ) (payload : List UInt8) (io : CheckIO) : PoolState :=
  let client := s.clients id
  if client.disconnected || !client.loggedIn then s.drop id
  else match readSubmittedShare payload with
    | none => s.drop id
    | some (share,_) =>
      let r := checkWork p io s.tip s.server client share
      let s := s.setClient id r.client
      if r.saved.isSome then { s with credited := s.credited ++ [solutionOf share] } else s

/-- One event; `none` is the crash of a server without a current block. -/
def PoolEvent.exec (s : PoolState) : PoolEvent → Option PoolState
  | .tip newTip => some { s with tip := newTip }
  | .login id workerId userId payloadNum io =>
    Pool.login p (s.monitor id) id workerId userId payloadNum io
  | .poll blockTemplate io =>
    if s.monitored.isEmpty then some s
    else (checkForNewBlocks p io s.tip blockTemplate s.monitored s.server s.clients).map fun r =>
      { s with server := r.1, clients := r.2 }
  | .submit id payload io => some (submitShareRequest p (s.monitor id) id payload io)
  | .disconnect id => some (s.drop id)

/-- The states that a list of events leads to, each event meeting `ok` where it happens. -/
inductive PoolRun (ok : PoolState → PoolEvent → Prop) (start : PoolState) :
    List PoolEvent → PoolState → Prop
  | start : PoolRun ok start [] start
  | step {events : List PoolEvent} {s s' : PoolState} (event : PoolEvent)
      (rest : PoolRun ok start events s) (meets : ok s event)
      (result : event.exec p s = some s') : PoolRun ok start (events ++ [event]) s'

end Machine

section Credit
variable {p : PoolParams}

/-- The solution a packet carries, if it can be read. -/
def PoolEvent.solution? : PoolEvent → Option Solution
  | .submit _ payload _ => (readSubmittedShare payload).map fun r => solutionOf r.1
  | _ => none

/-- The solutions of a list of events, in their order. -/
def submitted (events : List PoolEvent) : List Solution := events.filterMap PoolEvent.solution?

/-- A submission credits its own solution or nothing. -/
theorem submitShareRequest_credited (s : PoolState) (id : ℕ) (payload : List UInt8) (io : CheckIO) :
    (submitShareRequest p s id payload io).credited = s.credited ∨
      ∃ share rest, readSubmittedShare payload = some (share, rest) ∧
        (submitShareRequest p s id payload io).credited = s.credited ++ [solutionOf share] := by
  rw [submitShareRequest]
  dsimp only
  split_ifs with hlogin
  · exact Or.inl rfl
  cases hread : readSubmittedShare payload with
  | none => exact Or.inl rfl
  | some r =>
    obtain ⟨share,rest⟩ := r
    dsimp only
    split_ifs with hsaved
    · exact Or.inr ⟨share, rest, rfl, rfl⟩
    · exact Or.inl rfl

/-- One event credits at most the solution it carries. -/
theorem PoolEvent.exec_credited {s s' : PoolState} {event : PoolEvent}
    (h : event.exec p s = some s') :
    s'.credited = s.credited ∨
      ∃ solution, event.solution? = some solution ∧ s'.credited = s.credited ++ [solution] := by
  cases event with
  | tip newTip =>
    obtain rfl := Option.some.inj h
    exact Or.inl rfl
  | login id workerId userId payloadNum io =>
    obtain ⟨r,-,rfl⟩ := Option.map_eq_some_iff.mp h
    left
    dsimp only
    split_ifs <;> rfl
  | poll blockTemplate io =>
    rw [PoolEvent.exec] at h
    split_ifs at h
    · obtain rfl := Option.some.inj h
      exact Or.inl rfl
    · obtain ⟨r,-,rfl⟩ := Option.map_eq_some_iff.mp h
      exact Or.inl rfl
  | submit id payload io =>
    obtain rfl := Option.some.inj h
    rcases @submitShareRequest_credited p (s.monitor id) id payload io with
      hsame | ⟨share,rest,hread,hnew⟩
    · exact Or.inl hsame
    · refine Or.inr ⟨solutionOf share, ?_, hnew⟩
      rw [PoolEvent.solution?, hread, Option.map_some]
  | disconnect id =>
    obtain rfl := Option.some.inj h
    exact Or.inl rfl

/-- Every credit goes back to a packet of its own. -/
theorem PoolRun.credited_sublist {ok : PoolState → PoolEvent → Prop} {start s : PoolState}
    {events : List PoolEvent} (hstart : start.credited = []) (h : PoolRun p ok start events s) :
    s.credited.Sublist (submitted events) := by
  induction h with
  | start =>
    rw [hstart]
    exact List.nil_sublist _
  | @step events s s' event rest meets result ih =>
    rw [submitted, List.filterMap_append]
    rcases PoolEvent.exec_credited result with hsame | ⟨solution,hsolution,hnew⟩
    · rw [hsame]
      exact ih.trans (List.sublist_append_left _ _)
    · have hone : [event].filterMap PoolEvent.solution? = [solution] := by
        rw [List.filterMap_cons_some hsolution, List.filterMap_nil]
      rw [hnew, hone]
      exact ih.append (List.Sublist.refl _)

/-- The workload of a share is found again with its header set, and setting it once more changes
nothing. -/
theorem findWork_again {share : SubmittedShare} {blocks blocks' : List CBlock} {stored : CBlock}
    (h : findWork share blocks = some (stored, blocks')) :
    findWork share blocks' = some (setBlockHeader share stored, blocks') := by
  induction blocks generalizing blocks' with
  | nil => cases h
  | cons block blocks ih =>
    rw [findWork] at h
    split_ifs at h with hroot
    · obtain ⟨rfl,rfl⟩ := Prod.mk.inj (Option.some.inj h)
      have hsame : (setBlockHeader share block).hashMerkleRoot = share.merkleRoot := hroot
      rw [findWork, if_pos hsame]
      rfl
    · obtain ⟨found,hfound,heq⟩ := Option.map_eq_some_iff.mp h
      obtain ⟨rfl,rfl⟩ := Prod.mk.inj heq
      rw [findWork, if_neg hroot, ih hfound, Option.map_some]

/-- A valid share stays valid after it was checked. -/
theorem ValidShare.again {tip : NodeTip} {client : WorkClient} {share : SubmittedShare}
    {stored : CBlock} {blocks : List CBlock} {chainLength : BitVec 32}
    (h : ValidShare p tip client share stored blocks chainLength) :
    ValidShare p tip { client with arrCurrentBlocks := blocks } share (setBlockHeader share stored)
      blocks chainLength :=
  ⟨h.difficult, findWork_again h.found, h.fresh, h.limit, h.proven⟩

/-- What a submission does with a valid share. -/
theorem submitShareRequest_of_valid {s : PoolState} {id : ℕ} {payload rest : List UInt8}
    {share : SubmittedShare} {stored : CBlock} {blocks : List CBlock} {chainLength : BitVec 32}
    (io : CheckIO) (hlogin : ¬((s.clients id).disconnected || !(s.clients id).loggedIn) = true)
    (hread : readSubmittedShare payload = some (share, rest))
    (hvalid : ValidShare p s.tip (s.clients id) share stored blocks chainLength) :
    submitShareRequest p s id payload io =
      { s.setClient id { s.clients id with arrCurrentBlocks := blocks } with
        credited := s.credited ++ [solutionOf share] } := by
  obtain ⟨hsaved,hclient⟩ := checkWork_of_valid io s.server hvalid
  rw [submitShareRequest]
  dsimp only
  rw [if_neg hlogin, hread]
  dsimp only
  rw [hsaved, Option.isSome_some, if_pos rfl, hclient]
  rfl

/-- A submission that credits something had a valid share. -/
theorem valid_of_credited {s : PoolState} {id : ℕ} {payload : List UInt8} {io : CheckIO}
    (h : (submitShareRequest p s id payload io).credited ≠ s.credited) :
    ¬((s.clients id).disconnected || !(s.clients id).loggedIn) = true ∧
      ∃ share rest stored blocks chainLength, readSubmittedShare payload = some (share, rest) ∧
        ValidShare p s.tip (s.clients id) share stored blocks chainLength := by
  rw [submitShareRequest] at h
  dsimp only at h
  split_ifs at h with hlogin
  · exact absurd rfl h
  refine ⟨hlogin, ?_⟩
  cases hread : readSubmittedShare payload with
  | none =>
    rw [hread] at h
    exact absurd rfl h
  | some r =>
    obtain ⟨share,rest⟩ := r
    rw [hread] at h
    dsimp only at h
    split_ifs at h with hsaved
    · obtain ⟨⟨row,chainLength,found⟩,hrow⟩ := Option.isSome_iff_exists.mp hsaved
      obtain ⟨stored,blocks,hvalid,-⟩ := checkWork_saved.mp hrow
      exact ⟨share, rest, stored, blocks, chainLength, rfl, hvalid⟩
    · exact absurd rfl h

/-- A packet that was credited is credited once more when it comes again at once. -/
theorem replay_credited {s s1 : PoolState} {id : ℕ} {payload : List UInt8} {io : CheckIO}
    (h : PoolEvent.exec p s (.submit id payload io) = some s1) (hnew : s1.credited ≠ s.credited) :
    ∃ s2 solution, PoolEvent.exec p s1 (.submit id payload io) = some s2 ∧
      s2.credited = s.credited ++ [solution] ++ [solution] := by
  have hs1 : submitShareRequest p (s.monitor id) id payload io = s1 := Option.some.inj h
  obtain ⟨hlogin,share,rest,stored,blocks,chainLength,hread,hvalid⟩ :=
    valid_of_credited (show (submitShareRequest p (s.monitor id) id payload io).credited ≠
      (s.monitor id).credited from hs1 ▸ hnew)
  rw [submitShareRequest_of_valid io hlogin hread hvalid] at hs1
  -- the client has the same workload, with the header of the share
  have hclient : (s1.monitor id).clients id =
      { (s.monitor id).clients id with arrCurrentBlocks := blocks } := by
    rw [← hs1]
    exact Function.update_self _ _ _
  have htip : (s1.monitor id).tip = (s.monitor id).tip := by rw [← hs1]; rfl
  have hlogin' : ¬(((s1.monitor id).clients id).disconnected ||
      !((s1.monitor id).clients id).loggedIn) = true := by
    rw [hclient]
    exact hlogin
  have hvalid' : ValidShare p (s1.monitor id).tip ((s1.monitor id).clients id) share
      (setBlockHeader share stored) blocks chainLength := by
    rw [hclient, htip]
    exact hvalid.again
  refine ⟨_, solutionOf share, rfl, ?_⟩
  rw [submitShareRequest_of_valid io hlogin' hread hvalid']
  change s1.credited ++ [solutionOf share] = _
  rw [← hs1]
  rfl

/-- Solutions are credited at most once in every run in which no packet carries the solution of
another one; a packet that is credited and comes again at once is credited again. -/
theorem credited_once_unless_repeated (p : PoolParams) (start : PoolState)
    (hstart : start.credited = []) :
    (∀ ok events s, PoolRun p ok start events s → (submitted events).Nodup →
      ∀ solution, s.credited.count solution ≤ 1) ∧
    (∀ s s1 id payload io, PoolEvent.exec p s (.submit id payload io) = some s1 →
      s1.credited ≠ s.credited → ∃ s2 solution,
        PoolEvent.exec p s1 (.submit id payload io) = some s2 ∧
        2 ≤ s2.credited.count solution) := by
  constructor
  · intro ok events s hrun hnodup solution
    exact List.nodup_iff_count_le_one.mp ((hrun.credited_sublist hstart).nodup hnodup) solution
  · intro s s1 id payload io hexec hnew
    obtain ⟨s2,solution,hagain,hcredited⟩ := replay_credited hexec hnew
    refine ⟨s2, solution, hagain, ?_⟩
    rw [hcredited, List.count_append, List.count_append, List.count_singleton_self]
    omega

end Credit

section Replay

/-- The packet that carries the share of `CheckWork`, with empty sieve fields. -/
def mainPacket : List UInt8 :=
  lowBytes 32 mainShare.merkleRoot.toNat ++ lowBytes 32 mainShare.prevBlockHash.toNat ++
    [0x02, 0x00, 0x00, 0x00] ++ lowBytes 4 mainShare.nTime ++ lowBytes 3 mainShare.nonce ++ [0x00] ++
    lowBytes 4 mainShare.nBits.toNat ++ List.replicate 9 0x00 ++
    [0x09] ++ mainShare.chainMultiplier ++ [0x01, 0x00, 0x00, 0x00]

/-- The pool on the main network after its client has got the work. -/
def mainPoolStart : PoolState :=
  ⟨mainTip, mainServer, Function.update (fun _ => newWorkClient) 1 mainClient, [1], []⟩

def mainSubmit : PoolEvent := .submit 1 mainPacket mainCheck

def mainPoolStep (s : PoolState) : PoolState := (mainSubmit.exec mainPool s).getD s

theorem exec_mainPoolStep (s : PoolState) :
    mainSubmit.exec mainPool s = some (mainPoolStep s) := rfl

theorem mainSubmit_credits :
    (mainPoolStep mainPoolStart).credited = [solutionOf mainShare] := by
  decide +kernel

/-- One packet, and the same packet once more. -/
theorem credited_once_unless_repeated_mainNet :
    (∀ solution, (mainPoolStep mainPoolStart).credited.count solution ≤ 1) ∧
      ∃ s solution, mainSubmit.exec mainPool (mainPoolStep mainPoolStart) = some s ∧
        2 ≤ s.credited.count solution := by
  obtain ⟨honce,hagain⟩ := credited_once_unless_repeated mainPool mainPoolStart rfl
  constructor
  · refine honce (fun _ _ => True) [mainSubmit] _ (PoolRun.step mainSubmit PoolRun.start trivial
      (exec_mainPoolStep mainPoolStart)) ?_
    exact List.nodup_singleton _
  · refine hagain mainPoolStart _ 1 mainPacket mainCheck (exec_mainPoolStep mainPoolStart) ?_
    rw [mainSubmit_credits]
    exact List.cons_ne_nil _ _

/-- The replay of a packet is credited again. -/
theorem replay_credited_twice :
    PoolRun mainPool (fun _ _ => True) mainPoolStart [mainSubmit, mainSubmit]
        (mainPoolStep (mainPoolStep mainPoolStart)) ∧
      (mainPoolStep (mainPoolStep mainPoolStart)).credited =
        [solutionOf mainShare, solutionOf mainShare] := by
  refine ⟨?_, by decide +kernel⟩
  exact PoolRun.step mainSubmit (PoolRun.step mainSubmit PoolRun.start trivial
    (exec_mainPoolStep mainPoolStart)) trivial (exec_mainPoolStep _)

end Replay

section Tip
variable {p : PoolParams}

/-- The current block is built on the tip. -/
def PoolState.OnTip (s : PoolState) : Prop :=
  ∃ block, s.server.currentBlock = some block ∧ block.hashPrevBlock = s.tip.hash

/-- What `CreateNewBlock` sees to when it succeeds: the new block is on top of the tip. -/
def PoolEvent.Built (s : PoolState) : PoolEvent → Prop
  | .poll blockTemplate _ => ∃ block, blockTemplate = some block ∧ block.hashPrevBlock = s.tip.hash
  | _ => True

/-- A tip change goes to a higher block, and a login finds the current block on the tip. -/
def PoolEvent.InTime (s : PoolState) : PoolEvent → Prop
  | .tip newTip => s.tip.nHeight < newTip.nHeight
  | .login .. => s.OnTip
  | _ => True

/-- The remembered height never runs ahead of the tip, and lags behind it while the current block
is stale. -/
structure PoolState.HeightOk (s : PoolState) : Prop where
  isSome : s.server.currentBlock.isSome = true
  le : s.server.coinTypeBlockHeight ≤ s.tip.nHeight+1
  stale : s.OnTip ∨ s.server.coinTypeBlockHeight < s.tip.nHeight+1

theorem PoolState.HeightOk.of_eq {s s' : PoolState} (h : s.HeightOk) (hserver : s'.server = s.server)
    (htip : s'.tip = s.tip) : s'.HeightOk := by
  obtain ⟨hsome,hle,hstale⟩ := h
  rw [PoolState.OnTip, ← hserver, ← htip] at hstale
  rw [← hserver] at hsome hle
  rw [← htip] at hle
  exact ⟨hsome, hle, hstale⟩

theorem submitShareRequest_server (s : PoolState) (id : ℕ) (payload : List UInt8) (io : CheckIO) :
    (submitShareRequest p s id payload io).server = s.server ∧
      (submitShareRequest p s id payload io).tip = s.tip := by
  rw [submitShareRequest]
  dsimp only
  split_ifs
  · exact ⟨rfl, rfl⟩
  split
  · exact ⟨rfl, rfl⟩
  · split_ifs <;> exact ⟨rfl, rfl⟩

/-- Work for a client leaves the current block alone and may set the height. -/
theorem sendBlockData_server {io : WorkIO} {tip : NodeTip} {server : XptServer} {client : WorkClient}
    {r : XptServer × WorkClient} (h : sendBlockData p io tip server client = some r) :
    r.1.currentBlock = server.currentBlock ∧
      (r.1.coinTypeBlockHeight = server.coinTypeBlockHeight ∨
        r.1.coinTypeBlockHeight = tip.nHeight+1) := by
  rw [sendBlockData] at h
  split_ifs at h
  · rw [← Option.some.inj h]
    exact ⟨rfl, Or.inl rfl⟩
  obtain ⟨g,hg,rfl⟩ := Option.map_eq_some_iff.mp h
  rw [generateWork] at hg
  cases hblock : server.currentBlock with
  | none =>
    rw [hblock] at hg
    cases hg
  | some template =>
    rw [hblock] at hg
    dsimp only at hg
    split at hg
    · rw [← Option.some.inj hg]
      exact ⟨hblock, Or.inl rfl⟩
    · rw [← Option.some.inj hg]
      exact ⟨rfl, Or.inr rfl⟩

theorem sendNewBlockToAll_server {io : ℕ → WorkIO} {tip : NodeTip} {ids : List ℕ}
    {server : XptServer} {clients : ℕ → WorkClient} {r : XptServer × (ℕ → WorkClient)}
    (h : sendNewBlockToAll p io tip ids server clients = some r) :
    r.1.currentBlock = server.currentBlock ∧
      (r.1.coinTypeBlockHeight = server.coinTypeBlockHeight ∨
        r.1.coinTypeBlockHeight = tip.nHeight+1) := by
  induction ids generalizing server clients with
  | nil =>
    rw [← Option.some.inj h]
    exact ⟨rfl, Or.inl rfl⟩
  | cons id ids ih =>
    rw [sendNewBlockToAll] at h
    split_ifs at h
    · exact ih h
    split at h
    · cases h
    · rename_i server' client hsend
      obtain ⟨hblock,hheight⟩ := sendBlockData_server hsend
      obtain ⟨hblock',hheight'⟩ := ih h
      refine ⟨hblock'.trans hblock, ?_⟩
      rcases hheight' with hheight' | hheight'
      · rw [hheight']
        exact hheight
      · exact Or.inr hheight'

/-- A poll with a monitored client, from a state whose height is right, ends on the tip. -/
theorem poll_onTip {s s' : PoolState} {blockTemplate : Option CBlock} {io : ℕ → WorkIO}
    (hs : s.HeightOk) (hbuilt : PoolEvent.Built s (.poll blockTemplate io))
    (hmonitored : s.monitored ≠ [])
    (h : PoolEvent.exec p s (.poll blockTemplate io) = some s') : s'.OnTip ∧ s'.HeightOk := by
  obtain ⟨block,rfl,hprev⟩ := hbuilt
  rw [PoolEvent.exec, if_neg (by rwa [List.isEmpty_iff])] at h
  obtain ⟨r,hr,rfl⟩ := Option.map_eq_some_iff.mp h
  rw [checkForNewBlocks] at hr
  split_ifs at hr with hnew
  · -- the block is new, and no client changes it
    obtain ⟨hblock,hheight⟩ := sendNewBlockToAll_server hr
    have htip : PoolState.OnTip { s with server := r.1, clients := r.2 } := ⟨block, hblock, hprev⟩
    refine ⟨htip, ?_, ?_, Or.inl htip⟩
    · change r.1.currentBlock.isSome = true
      rw [hblock]
      rfl
    · change r.1.coinTypeBlockHeight ≤ s.tip.nHeight+1
      rcases hheight with hheight | hheight <;> exact hheight.le
  · rw [← Option.some.inj hr]
    rcases hs.stale with htip | hlt
    · exact ⟨htip, hs.isSome, hs.le, Or.inl htip⟩
    · exact absurd hlt hnew

/-- Every event in time keeps the height right. -/
theorem PoolEvent.exec_heightOk {s s' : PoolState} {event : PoolEvent} (hs : s.HeightOk)
    (hbuilt : event.Built s) (htime : event.InTime s) (h : event.exec p s = some s') :
    s'.HeightOk := by
  cases event with
  | tip newTip =>
    obtain rfl := Option.some.inj h
    have hle := hs.le
    have hlt : s.tip.nHeight < newTip.nHeight := htime
    exact ⟨hs.isSome, by dsimp only; omega, Or.inr (by dsimp only; omega)⟩
  | login id workerId userId payloadNum io =>
    obtain ⟨r,hr,rfl⟩ := Option.map_eq_some_iff.mp h
    obtain ⟨hblock,hheight⟩ := sendBlockData_server hr
    obtain ⟨block,hcurrent,hprev⟩ : s.OnTip := htime
    have hok : PoolState.HeightOk { s.monitor id with server := r.1 } := by
      refine ⟨?_, ?_, Or.inl ⟨block, hblock.trans hcurrent, hprev⟩⟩
      · change r.1.currentBlock.isSome = true
        rw [hblock]
        exact hs.isSome
      · change r.1.coinTypeBlockHeight ≤ s.tip.nHeight+1
        rcases hheight with hheight | hheight
        · exact hheight.le.trans hs.le
        · exact hheight.le
    refine hok.of_eq ?_ ?_
    · dsimp only
      split_ifs <;> rfl
    · dsimp only
      split_ifs <;> rfl
  | poll blockTemplate io =>
    by_cases hmonitored : s.monitored = []
    · rw [PoolEvent.exec, hmonitored, List.isEmpty_nil, if_pos rfl] at h
      obtain rfl := Option.some.inj h
      exact hs
    · exact (poll_onTip hs hbuilt hmonitored h).2
  | submit id payload io =>
    obtain rfl := Option.some.inj h
    obtain ⟨hserver,htip⟩ := @submitShareRequest_server p (s.monitor id) id payload io
    exact hs.of_eq hserver htip
  | disconnect id =>
    obtain rfl := Option.some.inj h
    exact ⟨hs.isSome, hs.le, hs.stale⟩

/-- The height is right in every state of a run in time. -/
theorem PoolRun.heightOk {start s : PoolState} {events : List PoolEvent} (hstart : start.HeightOk)
    (h : PoolRun p (fun s event => event.Built s ∧ event.InTime s) start events s) :
    s.HeightOk := by
  induction h with
  | start => exact hstart
  | step event rest meets result ih => exact PoolEvent.exec_heightOk ih meets.1 meets.2 result

/-- Miners are moved to the new block after every poll, in every run in which tip changes go to
higher blocks and logins find the current block on the tip, from a server that starts on the tip
and does not remember a greater height. -/
theorem polls_follow_tip (p : PoolParams) (start : PoolState) (htip : start.OnTip)
    (hheight : start.server.coinTypeBlockHeight ≤ start.tip.nHeight+1) (events : List PoolEvent)
    (s : PoolState) (hrun : PoolRun p (fun s event => event.Built s ∧ event.InTime s) start events s)
    (blockTemplate : Option CBlock) (io : ℕ → WorkIO) (s' : PoolState) (hmonitored : s.monitored ≠ [])
    (hbuilt : PoolEvent.Built s (.poll blockTemplate io))
    (hpoll : PoolEvent.exec p s (.poll blockTemplate io) = some s') : s'.OnTip := by
  have hsome : start.server.currentBlock.isSome = true := by
    obtain ⟨block,hblock,-⟩ := htip
    rw [hblock]
    rfl
  have hok : s.HeightOk := hrun.heightOk ⟨hsome, hheight, Or.inl htip⟩
  exact (poll_onTip hok hbuilt hmonitored hpoll).1

/-- What `CreateNewBlock` makes on a block of the test network, in the first minute after it. -/
def testTemplate (hashPrevBlock : Uint256) : CBlock :=
  ⟨⟨2, hashPrevBlock, 0, 1400000010, 0x05000000, 0, 0⟩, [workCoinbase [0x00, 0x00] 3996000000]⟩

/-- The workload for the second block that is still on top of the genesis block. -/
def staleWork : CBlockHeader :=
  ⟨2, testGenesisHash, 0xfce18e647fa4994c78da4b6eb9c8062214f209010b475ad83f32fa318b0aa1a4,
    1400000010, 0x05000000, 4243, 0⟩

/-- And the one on top of the first block. -/
def freshWork : CBlockHeader :=
  ⟨2, testHashA, 0xb57c502f46136fe62112127f1aaeaf9c1554d7b50ab9c6a3ae4b2bee9fcd7438,
    1400000010, 0x05000000, 4242, 0⟩

/-- SHA-256 at the workloads used here. -/
def testPool : PoolParams where
  ext := { testExternals with
    txHash := fun tx =>
      if tx = workCoinbase ([0x52, 0x02, 0x93, 0x10, 0x00] ++ p2shFlags) 3996000000 then
        staleWork.hashMerkleRoot
      else if tx = workCoinbase ([0x52, 0x02, 0x92, 0x10, 0x00] ++ p2shFlags) 3996000000 then
        freshWork.hashMerkleRoot
      else testExternals.txHash tx }
  headerHash := fun header =>
    if header = staleWork then 0x8fd16fcd62af4360b04537a50cdd6be3652a822f788890bdd0b04821d9508c1a
    else if header = freshWork then
      0xccf0172dc62965674e9b16da10805f4b833add6887038e5e263565c5d0df2d09
    else 0
  target := testNetParams
  pszDedication := []
  coinbaseFlags := p2shFlags

/-- The server on the genesis block, with one client connected. -/
def testPoolStart : PoolState :=
  ⟨⟨testGenesisHash, 0⟩, ⟨1, some (testTemplate testGenesisHash)⟩, fun _ => newWorkClient, [1], []⟩

def testPoolStep (event : PoolEvent) (s : PoolState) : PoolState := (event.exec testPool s).getD s

/-- The first block arrives, a client logs in, the server polls. -/
def tipEvent : PoolEvent := .tip ⟨testHashA, 1⟩
def loginEvent (nonce : ℕ) : PoolEvent :=
  .login 1 1 1 1 ⟨fun _ => some poolPubkey, fun _ => nonce, 1400000020⟩
def pollTemplate : Option CBlock := some (testTemplate testHashA)
def pollWork : ℕ → WorkIO := fun _ => ⟨fun _ => some poolPubkey, fun _ => 4242, 1400000020⟩
def pollEvent : PoolEvent := .poll pollTemplate pollWork

def movedState : PoolState := testPoolStep tipEvent testPoolStart
def polledState : PoolState := testPoolStep pollEvent movedState
def servedState : PoolState := testPoolStep (loginEvent 4242) polledState

theorem exec_testPoolStep {event : PoolEvent} {s : PoolState}
    (h : (event.exec testPool s).isSome = true) :
    event.exec testPool s = some (testPoolStep event s) := by
  obtain ⟨s',hs'⟩ := Option.isSome_iff_exists.mp h
  rw [testPoolStep, hs', Option.getD_some]

theorem polls_follow_tip_testNet : (testPoolStep pollEvent servedState).OnTip ∧
    (servedState.clients 1).arrCurrentBlocks.map CBlock.toCBlockHeader = [freshWork] := by
  have htip : testPoolStart.OnTip := ⟨testTemplate testGenesisHash, rfl, rfl⟩
  have hpolled : polledState.OnTip := ⟨testTemplate testHashA, by decide +kernel, by decide +kernel⟩
  have hrun : PoolRun testPool (fun s event => event.Built s ∧ event.InTime s) testPoolStart
      [tipEvent, pollEvent, loginEvent 4242] servedState := by
    have hmoved : PoolRun testPool (fun s event => event.Built s ∧ event.InTime s) testPoolStart
        [tipEvent] movedState :=
      PoolRun.step tipEvent PoolRun.start ⟨trivial, Nat.zero_lt_one⟩
        (exec_testPoolStep (by decide +kernel))
    have hpoll := hmoved.step pollEvent ⟨⟨testTemplate testHashA, rfl, rfl⟩, trivial⟩
      (exec_testPoolStep (by decide +kernel))
    exact hpoll.step (loginEvent 4242) ⟨trivial, hpolled⟩ (exec_testPoolStep (by decide +kernel))
  refine ⟨?_, by decide +kernel⟩
  exact polls_follow_tip testPool testPoolStart htip (le_refl 1) _ servedState hrun pollTemplate
    pollWork (testPoolStep pollEvent servedState) (by decide +kernel)
    ⟨testTemplate testHashA, rfl, by decide +kernel⟩ (exec_testPoolStep (by decide +kernel))

/-- A client that logs in between the new block and the poll makes the server remember the new
height; the poll then keeps the old block, and the work of the client is stale. -/
def hiddenState : PoolState := testPoolStep (loginEvent 4243) movedState

theorem login_hides_new_block :
    PoolRun testPool (fun s event => event.Built s) testPoolStart [tipEvent, loginEvent 4243]
        hiddenState ∧ hiddenState.monitored ≠ [] ∧ PoolEvent.Built hiddenState pollEvent ∧
      pollEvent.exec testPool hiddenState = some (testPoolStep pollEvent hiddenState) ∧
      (hiddenState.clients 1).arrCurrentBlocks.map CBlock.toCBlockHeader = [staleWork] ∧
      ¬(testPoolStep pollEvent hiddenState).OnTip := by
  refine ⟨?_, by decide +kernel, ⟨testTemplate testHashA, rfl, by decide +kernel⟩,
    exec_testPoolStep (by decide +kernel), by decide +kernel, ?_⟩
  · refine PoolRun.step (loginEvent 4243) (PoolRun.step tipEvent PoolRun.start trivial
      (exec_testPoolStep ?_)) trivial (exec_testPoolStep ?_)
    · decide +kernel
    · decide +kernel
  · rintro ⟨block,hblock,hprev⟩
    have hold : (testPoolStep pollEvent hiddenState).server.currentBlock =
      some (testTemplate testGenesisHash) := by decide +kernel
    rw [hold] at hblock
    rw [← Option.some.inj hblock] at hprev
    exact absurd hprev (by decide +kernel)

end Tip

end Candypool.Pool
