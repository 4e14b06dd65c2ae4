import Candypool.Pool.Server

/-! Refreshing the block template. The old template is deleted before `CreateNewBlock` is called for
the new one, and the call may return `NULL` or throw. -/
namespace Candypool.Pool
open Candypool.Prime Candypool.Core Candypool.Chain

/-- An event of the pool, or a poll in which `CreateNewBlock` would throw. The exception leaves the thread of the
server and ends the process. -/
inductive RefreshEvent
  | other (event : PoolEvent)
  | throws

section Refresh
variable (p : PoolParams)

/-- Whether a poll calls `CreateNewBlock`. -/
def PoolState.Refreshes (s : PoolState) : Prop :=
  s.monitored ≠ [] ∧ s.tip.nHeight+1 > s.server.coinTypeBlockHeight

instance (s : PoolState) : Decidable s.Refreshes := instDecidableAnd

/-- `none` is a server that is gone: it has read through the null pointer or was ended. -/
def RefreshEvent.exec (s : PoolState) : RefreshEvent → Option PoolState
  | .other event => event.exec p s
  | .throws => if s.Refreshes then none else some s

/-- The states that a list of events leads to, each event meeting `ok` where it happens. -/
inductive RefreshRun (ok : PoolState → RefreshEvent → Prop) (start : PoolState) :
    List RefreshEvent → PoolState → Prop
  | start : RefreshRun ok start [] start
  | step {events : List RefreshEvent} {s s' : PoolState} (event : RefreshEvent)
      (rest : RefreshRun ok start events s) (meets : ok s event)
      (result : event.exec p s = some s') : RefreshRun ok start (events ++ [event]) s'

/-- A workload that was copied from a template. -/
def CopiedFrom (tip : NodeTip) (template block : CBlock) : Prop :=
  ∃ pubkey nonce, block = (makeWork p tip pubkey nonce template).2

/-- The events in which the server sends work. -/
def RefreshEvent.SendsWork : RefreshEvent → Prop
  | .other (.login ..) => True
  | .other (.poll ..) => True
  | _ => False

/-- The server survives the event, and what it sends was copied from the template it then has. -/
def Serves (s : PoolState) (event : RefreshEvent) : Prop :=
  ∃ s', event.exec p s = some s' ∧ (event.SendsWork → ∀ id,
    (s'.clients id).arrCurrentBlocks = (s.clients id).arrCurrentBlocks ∨
      ∃ template, s'.server.currentBlock = some template ∧
        ∀ block ∈ (s'.clients id).arrCurrentBlocks, CopiedFrom p s.tip template block)

/-- `CreateNewBlock` makes a template wherever a poll calls it. -/
def RefreshEvent.TemplateMade (s : PoolState) : RefreshEvent → Prop
  | .other (.poll blockTemplate _) => s.Refreshes → blockTemplate ≠ none
  | .throws => ¬ s.Refreshes
  | _ => True

variable {p}

theorem additionalWork_copied {io : WorkIO} {tip : NodeTip} {template : CBlock} {n iPayload : ℕ}
    {blocks : List CBlock} (h : ∀ block ∈ blocks, CopiedFrom p tip template block) :
    ∀ block ∈ (additionalWork p io tip template n iPayload blocks).2,
      CopiedFrom p tip template block := by
  induction n generalizing iPayload blocks with
  | zero => exact h
  | succ n ih =>
    have hnext : ∀ block ∈
        blocks ++ [(makeWork p tip (io.pubkey iPayload) (io.nonce iPayload) template).2],
        CopiedFrom p tip template block := by
      intro block hmem
      rcases List.mem_append.mp hmem with hold | hnew
      · exact h block hold
      · exact ⟨_, _, List.mem_singleton.mp hnew⟩
    rw [additionalWork]
    cases hwork : makeWork p tip (io.pubkey iPayload) (io.nonce iPayload) template with
    | mk ok block =>
      rw [hwork] at hnext
      cases ok with
      | false => exact hnext
      | true => exact ih hnext

/-- With a current block every call goes through, and leaves copies of that block. -/
theorem sendBlockData_copied (io : WorkIO) (tip : NodeTip) {server : XptServer} (client : WorkClient)
    {template : CBlock} (hblock : server.currentBlock = some template) :
    ∃ r, sendBlockData p io tip server client = some r ∧
      (r.2.arrCurrentBlocks = client.arrCurrentBlocks ∨
        ∀ block ∈ r.2.arrCurrentBlocks, CopiedFrom p tip template block) := by
  rw [sendBlockData]
  by_cases hpayload : client.payloadNum < 1 ∨ client.payloadNum > 128
  · rw [if_pos hpayload]
    exact ⟨_, rfl, Or.inl rfl⟩
  · have hcopied : ∃ g, generateWork p io tip server client = some g ∧
        ∀ block ∈ g.client.arrCurrentBlocks, CopiedFrom p tip template block := by
      rw [generateWork, hblock]
      dsimp only
      have hfirst : ∀ block ∈ [(makeWork p tip (io.pubkey 0) (io.nonce 0) template).2],
          CopiedFrom p tip template block := by
        intro block hmem
        exact ⟨_, _, List.mem_singleton.mp hmem⟩
      cases hwork : makeWork p tip (io.pubkey 0) (io.nonce 0) template with
      | mk ok block =>
        rw [hwork] at hfirst
        cases ok with
        | false => exact ⟨_, rfl, hfirst⟩
        | true => exact ⟨_, rfl, additionalWork_copied hfirst⟩
    obtain ⟨g,hg,hall⟩ := hcopied
    rw [if_neg hpayload, hg]
    refine ⟨_, rfl, Or.inr ?_⟩
    dsimp only
    by_cases hok : g.ok = true
    · rw [if_pos hok]
      exact hall
    · rw [if_neg hok]
      exact hall

/-- The same for all the clients of the server. -/
theorem sendNewBlockToAll_copied (io : ℕ → WorkIO) (tip : NodeTip) (ids : List ℕ)
    {server : XptServer} (clients : ℕ → WorkClient) {template : CBlock}
    (hblock : server.currentBlock = some template) :
    ∃ r, sendNewBlockToAll p io tip ids server clients = some r ∧
      r.1.currentBlock = some template ∧ ∀ id,
        (r.2 id).arrCurrentBlocks = (clients id).arrCurrentBlocks ∨
          ∀ block ∈ (r.2 id).arrCurrentBlocks, CopiedFrom p tip template block := by
  induction ids generalizing server clients with
  | nil => exact ⟨_, rfl, hblock, fun id => Or.inl rfl⟩
  | cons id ids ih =>
    rw [sendNewBlockToAll]
    by_cases hskip : ((clients id).disconnected || !(clients id).loggedIn) = true
    · rw [if_pos hskip]
      exact ih clients hblock
    · obtain ⟨⟨server',client'⟩,hsend,hcopied⟩ := sendBlockData_copied (io id) tip (clients id) hblock
      have hblock' : server'.currentBlock = some template :=
        (sendBlockData_server hsend).1.trans hblock
      rw [if_neg hskip, hsend]
      obtain ⟨r,hr,hcurrent,hall⟩ := ih (Function.update clients id client') hblock'
      refine ⟨r, hr, hcurrent, ?_⟩
      intro id'
      rcases hall id' with hsame | hnew
      · by_cases heq : id' = id
        · subst heq
          rw [Function.update_self] at hsame
          rw [hsame]
          exact hcopied
        · rw [Function.update_of_ne heq] at hsame
          exact Or.inl hsame
      · exact Or.inr hnew

theorem login_serves {s : PoolState} {template : CBlock} (hblock : s.server.currentBlock = some template)
    (id workerId userId payloadNum : ℕ) (io : WorkIO) :
    ∃ s', (PoolEvent.login id workerId userId payloadNum io).exec p s = some s' ∧
      s'.server.currentBlock = some template ∧ ∀ id',
        (s'.clients id').arrCurrentBlocks = (s.clients id').arrCurrentBlocks ∨
          ∀ block ∈ (s'.clients id').arrCurrentBlocks, CopiedFrom p s.tip template block := by
  obtain ⟨⟨server,client⟩,hsend,hcopied⟩ := sendBlockData_copied (p := p) io s.tip
    { s.clients id with
      loggedIn := true, workerId := workerId, userId := userId, payloadNum := payloadNum } hblock
  have hcurrent : server.currentBlock = some template := (sendBlockData_server hsend).1.trans hblock
  have hlogin : (PoolEvent.login id workerId userId payloadNum io).exec p s =
      some (if client.disconnected then { s.monitor id with server := server }.drop id
        else { s.monitor id with server := server }.setClient id client) := by
    change (sendBlockData p io s.tip s.server _).map _ = _
    rw [show s.clients id = (s.monitor id).clients id from rfl] at hsend
    rw [hsend]
    rfl
  rw [hlogin]
  refine ⟨_, rfl, ?_⟩
  by_cases hdisc : client.disconnected = true
  · rw [if_pos hdisc]
    refine ⟨hcurrent, ?_⟩
    intro id'
    by_cases heq : id' = id
    -- a disconnected client gets a new entry, with no blocks of its own
    · subst heq
      right
      change ∀ block ∈ (Function.update s.clients id' newWorkClient id').arrCurrentBlocks, _
      rw [Function.update_self]
      intro block hmem
      cases hmem
    · left
      change (Function.update s.clients id newWorkClient id').arrCurrentBlocks = _
      rw [Function.update_of_ne heq]
  · rw [if_neg hdisc]
    refine ⟨hcurrent, ?_⟩
    intro id'
    change (Function.update s.clients id client id').arrCurrentBlocks = _ ∨
      ∀ block ∈ (Function.update s.clients id client id').arrCurrentBlocks, _
    by_cases heq : id' = id
    · subst heq
      rw [Function.update_self]
      exact hcopied
    · rw [Function.update_of_ne heq]
      exact Or.inl rfl

theorem poll_serves {s : PoolState} {template : CBlock}
    (hblock : s.server.currentBlock = some template) {blockTemplate : Option CBlock}
    (hmade : s.Refreshes → blockTemplate ≠ none) (io : ℕ → WorkIO) :
    ∃ s' template', (PoolEvent.poll blockTemplate io).exec p s = some s' ∧
      s'.server.currentBlock = some template' ∧ ∀ id,
        (s'.clients id).arrCurrentBlocks = (s.clients id).arrCurrentBlocks ∨
          ∀ block ∈ (s'.clients id).arrCurrentBlocks, CopiedFrom p s.tip template' block := by
  rw [PoolEvent.exec]
  by_cases hempty : s.monitored.isEmpty = true
  · rw [if_pos hempty]
    exact ⟨s, template, rfl, hblock, fun id => Or.inl rfl⟩
  · rw [if_neg hempty]
    by_cases hnew : s.tip.nHeight+1 > s.server.coinTypeBlockHeight
    · have hrefreshes : s.Refreshes := ⟨fun h => hempty (List.isEmpty_iff.mpr h), hnew⟩
      obtain ⟨block,rfl⟩ := Option.ne_none_iff_exists'.mp (hmade hrefreshes)
      obtain ⟨r,hr,hcurrent,hall⟩ := sendNewBlockToAll_copied (p := p) io s.tip s.monitored s.clients
        (show (XptServer.mk (s.tip.nHeight+1) (some block)).currentBlock = some block from rfl)
      have hcheck : checkForNewBlocks p io s.tip (some block) s.monitored s.server s.clients =
          some r := by
        rw [checkForNewBlocks.eq_def, if_pos hnew]
        exact hr
      rw [hcheck]
      exact ⟨_, block, rfl, hcurrent, hall⟩
    · have hcheck : checkForNewBlocks p io s.tip blockTemplate s.monitored s.server s.clients =
          some (s.server, s.clients) := by
        rw [checkForNewBlocks.eq_def, if_neg hnew]
      rw [hcheck]
      exact ⟨_, template, rfl, hblock, fun id => Or.inl rfl⟩

/-- One event, from a server with a current block. -/
theorem serves_of_current {s : PoolState} (hs : s.server.currentBlock.isSome = true)
    {event : RefreshEvent} (hmade : event.TemplateMade s) :
    Serves p s event ∧ ∀ s', event.exec p s = some s' → s'.server.currentBlock.isSome = true := by
  obtain ⟨template,hblock⟩ := Option.isSome_iff_exists.mp hs
  cases event with
  | throws =>
    have hsame : RefreshEvent.throws.exec p s = some s := if_neg hmade
    refine ⟨⟨s, hsame, fun h => h.elim⟩, ?_⟩
    intro s' hs'
    rw [hsame, Option.some.injEq] at hs'
    rw [← hs']
    exact hs
  | other event =>
    -- what sends no work leaves the server alone
    have hquiet {s1 : PoolState} (hexec : event.exec p s = some s1)
        (hserver : s1.server = s.server) (hsends : ¬ (RefreshEvent.other event).SendsWork) :
        Serves p s (.other event) ∧
          ∀ s', event.exec p s = some s' → s'.server.currentBlock.isSome = true := by
      refine ⟨⟨s1, hexec, fun h => absurd h hsends⟩, ?_⟩
      intro s' hs'
      rw [hexec, Option.some.injEq] at hs'
      rw [← hs', hserver]
      exact hs
    -- what sends work copies the block it leaves as the current one
    have hsending {s1 : PoolState} {template' : CBlock} (hexec : event.exec p s = some s1)
        (hcurrent : s1.server.currentBlock = some template')
        (hall : ∀ id, (s1.clients id).arrCurrentBlocks = (s.clients id).arrCurrentBlocks ∨
          ∀ block ∈ (s1.clients id).arrCurrentBlocks, CopiedFrom p s.tip template' block) :
        Serves p s (.other event) ∧
          ∀ s', event.exec p s = some s' → s'.server.currentBlock.isSome = true := by
      refine ⟨⟨s1, hexec, fun _ id => (hall id).imp_right fun h => ⟨template', hcurrent, h⟩⟩, ?_⟩
      intro s' hs'
      rw [hexec, Option.some.injEq] at hs'
      rw [← hs', hcurrent]
      rfl
    cases event with
    | tip newTip => exact hquiet rfl rfl not_false
    | submit id payload io =>
      exact hquiet rfl (submitShareRequest_server (s.monitor id) id payload io).1 not_false
    | disconnect id => exact hquiet rfl rfl not_false
    | login id workerId userId payloadNum io =>
      obtain ⟨s1,hexec,hcurrent,hall⟩ := login_serves hblock id workerId userId payloadNum io
      exact hsending hexec hcurrent hall
    | poll blockTemplate io =>
      obtain ⟨s1,template',hexec,hcurrent,hall⟩ := poll_serves hblock hmade io
      exact hsending hexec hcurrent hall

/-- In every run in which each refresh makes a template the server has a current block in every
state, and serves every further event of that kind. -/
theorem refreshed_server_serves (p : PoolParams) (start : PoolState)
    (hstart : start.server.currentBlock.isSome = true) (events : List RefreshEvent) (s : PoolState)
    (hrun : RefreshRun p RefreshEvent.TemplateMade start events s) :
    s.server.currentBlock.isSome = true ∧
      ∀ event, RefreshEvent.TemplateMade s event → Serves p s event := by
  have hcurrent : s.server.currentBlock.isSome = true := by
    induction hrun with
    | start => exact hstart
    | step event rest meets result ih => exact (serves_of_current ih meets).2 _ result
  exact ⟨hcurrent, fun event hmade => (serves_of_current hcurrent hmade).1⟩

theorem refreshed_server_serves_testNet : polledState.server.currentBlock.isSome = true ∧
    ∀ event, RefreshEvent.TemplateMade polledState event → Serves testPool polledState event := by
  have hexec : PoolEvent.exec testPool movedState pollEvent = some polledState :=
    exec_testPoolStep (by decide +kernel)
  have hmoved : RefreshRun testPool RefreshEvent.TemplateMade testPoolStart [.other tipEvent]
      movedState := RefreshRun.step (.other tipEvent) RefreshRun.start trivial rfl
  have hmade : RefreshEvent.TemplateMade movedState (.other pollEvent) :=
    fun _ => Option.some_ne_none (testTemplate testHashA)
  exact refreshed_server_serves testPool testPoolStart rfl _ polledState
    (hmoved.step (.other pollEvent) hmade hexec)

/-- A new block arrives, `CreateNewBlock` returns `NULL`, and the next login reads through the null
pointer. -/
theorem failed_refresh_crashes : ∃ s, RefreshRun testPool (fun _ _ => True) testPoolStart
    [.other tipEvent, .other (.poll none pollWork)] s ∧
      ¬ Serves testPool s (.other (loginEvent 4242)) := by
  have htip : RefreshRun testPool (fun _ _ => True) testPoolStart [.other tipEvent] movedState :=
    RefreshRun.step (.other tipEvent) RefreshRun.start trivial rfl
  have hexec : PoolEvent.exec testPool movedState (.poll none pollWork) =
      some (testPoolStep (.poll none pollWork) movedState) := exec_testPoolStep (by decide +kernel)
  refine ⟨_, htip.step (.other (.poll none pollWork)) trivial hexec, ?_⟩
  intro h
  obtain ⟨s',hs',_⟩ := h
  have hcrash : RefreshEvent.exec testPool (testPoolStep (.poll none pollWork) movedState)
      (.other (loginEvent 4242)) = none := by
    rw [← Option.isNone_iff_eq_none]
    decide +kernel
  rw [hcrash] at hs'
  cases hs'

end Refresh

end Candypool.Pool
