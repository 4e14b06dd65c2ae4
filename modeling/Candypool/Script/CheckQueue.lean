import Mathlib

/-! The queue of script checks that a master and its workers empty together. Every section under the
queue's mutex is one step, and the waits may end at any time. -/
namespace Candypool.Script

variable {T : Type}

/-- A check in the queue, with the session it was added in and its number among all checks. -/
structure Job (T : Type) where
  session : ℕ
  index : ℕ
  check : T
  deriving DecidableEq

/-- The back of the queue comes first. The counters do not wrap: fewer than 2^32 checks and threads
exist at a time. -/
structure CCheckQueue (T : Type) where
  queue : List (Job T)
  nIdle : ℤ
  nTotal : ℤ
  fAllOk : Bool
  nTodo : ℕ
  fQuit : Bool
  nBatchSize : ℕ

/-- Where a thread is in `Loop`: in `cond.wait`, or at the rest of its `vChecks` outside the mutex. -/
inductive Position (T : Type) where
  | waiting
  | working (vChecks : List (Job T)) (nNow : ℕ) (fOk : Bool)

structure Thread (T : Type) where
  fMaster : Bool
  position : Position T

/-- What a section comes to: `Loop` returns, or the thread leaves the mutex at a new position. -/
inductive SectionEnd (T : Type) where
  | returned (fRet : Bool)
  | left (position : Position T)

section Loop

variable (q : CCheckQueue T)

/-- The clean-up of the previous loop run. -/
def cleanUp (nNow : ℕ) (fOk : Bool) : CCheckQueue T :=
  { q with fAllOk := q.fAllOk && fOk, nTodo := q.nTodo-nNow }

def firstIteration : CCheckQueue T := { q with nTotal := q.nTotal+1 }

/-- The return of `cond.wait`. -/
def endWait : CCheckQueue T := { q with nIdle := q.nIdle-1 }

/-- How many work units to process now. -/
def batchNow : ℕ := max 1 (min q.nBatchSize (q.queue.length/(q.nTotal+q.nIdle+1).toNat))

/-- The section from the condition of `while (queue.empty())` on. -/
def fetch (fMaster : Bool) : CCheckQueue T × SectionEnd T :=
  if q.queue.isEmpty then
    if (fMaster || q.fQuit) && q.nTodo == 0 then
      ({ q with nTotal := q.nTotal-1, fAllOk := if fMaster then true else q.fAllOk },
        .returned q.fAllOk)
    else ({ q with nIdle := q.nIdle+1 }, .left .waiting)
  else
    ({ q with queue := q.queue.drop (batchNow q) },
      .left (.working (q.queue.take (batchNow q)) (batchNow q) q.fAllOk))

end Loop

/-- The `CCheckQueueControl` that holds `controlMutex`, if there is one, and what it is at. -/
inductive Control where
  | away
  | adding
  | waiting
  deriving DecidableEq

/-- The queue, the threads inside `Loop`, and what has happened so far. Only the fields up to
`control` are the program's. -/
structure QueueState (T : Type) where
  q : CCheckQueue T
  threads : Multiset (Thread T)
  control : Control
  session : ℕ
  added : List (Job T)
  /-- The executed checks, each with the session at that time. -/
  executed : List (ℕ × Job T)
  skipped : List (Job T)
  /-- What `Wait` returned in each session. -/
  results : List (ℕ × Bool)

/-- The new queue, before any thread. -/
def QueueState.start (nBatchSize : ℕ) : QueueState T :=
  ⟨⟨[], 0, 0, true, 0, false, nBatchSize⟩, 0, .away, 0, [], [], [], []⟩

/-- The thread goes through the section from `while (queue.empty())` on. The master's return is the
end of the session. -/
def QueueState.enter (s : QueueState T) (fMaster : Bool) : QueueState T :=
  match fetch s.q fMaster with
  | (q, .returned fRet) =>
    if fMaster then { s with q := q, control := .away, results := (s.session, fRet) :: s.results }
    else { s with q := q }
  | (q, .left position) => { s with q := q, threads := ⟨fMaster, position⟩ ::ₘ s.threads }

/-- `Add`. -/
def QueueState.add (s : QueueState T) (vChecks : List T) : QueueState T :=
  let jobs := vChecks.mapIdx fun i check => ⟨s.session, s.added.length+i, check⟩
  { s with
    q := { s.q with queue := jobs.reverse ++ s.q.queue, nTodo := s.q.nTodo+jobs.length }
    added := s.added ++ jobs }

/-- The next of a thread's checks: `if (fOk) fOk = check();`. -/
def QueueState.runCheck (run : T → Bool) (s : QueueState T) (fMaster : Bool) (job : Job T)
    (vChecks : List (Job T)) (nNow : ℕ) (fOk : Bool) : QueueState T :=
  let threads := ⟨fMaster, .working vChecks nNow (fOk && run job.check)⟩ ::ₘ s.threads
  if fOk then { s with threads := threads, executed := (s.session, job) :: s.executed }
  else { s with threads := threads, skipped := job :: s.skipped }

/-- One step of the master or of a worker. -/
inductive QueueStep (run : T → Bool) (s : QueueState T) : QueueState T → Prop where
  | startWorker : QueueStep run s ({ s with q := firstIteration s.q }.enter false)
  | wake (fMaster : Bool) (rest : Multiset (Thread T))
      (h : s.threads = ⟨fMaster, .waiting⟩ ::ₘ rest) :
      QueueStep run s ({ s with q := endWait s.q, threads := rest }.enter fMaster)
  | check (fMaster : Bool) (job : Job T) (vChecks : List (Job T)) (nNow : ℕ) (fOk : Bool)
      (rest : Multiset (Thread T))
      (h : s.threads = ⟨fMaster, .working (job :: vChecks) nNow fOk⟩ ::ₘ rest) :
      QueueStep run s ({ s with threads := rest }.runCheck run fMaster job vChecks nNow fOk)
  | finish (fMaster : Bool) (nNow : ℕ) (fOk : Bool) (rest : Multiset (Thread T))
      (h : s.threads = ⟨fMaster, .working [] nNow fOk⟩ ::ₘ rest) :
      QueueStep run s ({ s with q := cleanUp s.q nNow fOk, threads := rest }.enter fMaster)
  | construct (h : s.control = .away) :
      QueueStep run s { s with control := .adding, session := s.session+1 }
  | add (h : s.control = .adding) (vChecks : List T) : QueueStep run s (s.add vChecks)
  | wait (h : s.control = .adding) :
      QueueStep run s ({ s with q := firstIteration s.q, control := .waiting }.enter true)

/-- The states that the queue can get to. -/
inductive QueueReaches (run : T → Bool) (nBatchSize : ℕ) : QueueState T → Prop where
  | start : QueueReaches run nBatchSize (QueueState.start nBatchSize)
  | step {s s' : QueueState T} (h : QueueReaches run nBatchSize s) (hstep : QueueStep run s s') :
      QueueReaches run nBatchSize s'

section Threads

def Thread.idle (t : Thread T) : Bool :=
  match t.position with
  | .waiting => true
  | .working .. => false

/-- Whether a check of the thread's batch is known to have failed. -/
def Thread.failed (t : Thread T) : Bool :=
  match t.position with
  | .waiting => false
  | .working _ _ fOk => !fOk

def Thread.nNow (t : Thread T) : ℕ :=
  match t.position with
  | .waiting => 0
  | .working _ nNow _ => nNow

def Thread.batch (t : Thread T) : List (Job T) :=
  match t.position with
  | .waiting => []
  | .working vChecks _ _ => vChecks

variable (fMaster : Bool) (vChecks : List (Job T)) (nNow : ℕ) (fOk : Bool)

@[simp] theorem Thread.idle_waiting : Thread.idle (⟨fMaster, .waiting⟩ : Thread T) = true := rfl

@[simp] theorem Thread.idle_working :
    Thread.idle ⟨fMaster, .working vChecks nNow fOk⟩ = false := rfl

@[simp] theorem Thread.failed_waiting :
    Thread.failed (⟨fMaster, .waiting⟩ : Thread T) = false := rfl

@[simp] theorem Thread.failed_working :
    Thread.failed ⟨fMaster, .working vChecks nNow fOk⟩ = !fOk := rfl

@[simp] theorem Thread.nNow_waiting : Thread.nNow (⟨fMaster, .waiting⟩ : Thread T) = 0 := rfl

@[simp] theorem Thread.nNow_working :
    Thread.nNow ⟨fMaster, .working vChecks nNow fOk⟩ = nNow := rfl

@[simp] theorem Thread.batch_waiting : Thread.batch (⟨fMaster, .waiting⟩ : Thread T) = [] := rfl

@[simp] theorem Thread.batch_working :
    Thread.batch ⟨fMaster, .working vChecks nNow fOk⟩ = vChecks := rfl

theorem Thread.of_idle {t : Thread T} (h : t.idle = true) : t.failed = false ∧ t.batch = [] := by
  obtain ⟨fMaster,position⟩ := t
  cases position with
  | waiting => exact ⟨rfl, rfl⟩
  | working vChecks nNow fOk => cases h

end Threads

/-- The checks in the threads' batches. -/
def QueueState.inBatches (s : QueueState T) : Multiset (Job T) :=
  s.threads.bind fun t => (t.batch : Multiset (Job T))

/-- A check failed in the session. -/
def FailedIn (run : T → Bool) (s : QueueState T) (session : ℕ) : Prop :=
  ∃ job, (session, job) ∈ s.executed ∧ run job.check = false

/-- The verdict on a session is the conjunction of its checks, and all of them are done with. -/
def Settled (run : T → Bool) (s : QueueState T) (session : ℕ) (fRet : Bool) : Prop :=
  (fRet = true ↔ ∀ job ∈ s.added, job.session = session → run job.check = true) ∧
    ∀ job ∈ s.added, job.session = session → (session, job) ∈ s.executed ∨ job ∈ s.skipped

/-- The counters while the threads `inside` are in a section. -/
structure Counters (inside : List Bool) (s : QueueState T) : Prop where
  total : s.q.nTotal = s.threads.card+inside.length
  idle : s.q.nIdle = s.threads.countP fun t => t.idle = true
  todo : s.q.nTodo = s.q.queue.length+(s.threads.map Thread.nNow).sum
  sized : ∀ t ∈ s.threads, t.idle = true ∨ 0 < t.nNow
  quit : s.q.fQuit = false
  master : (s.threads.countP fun t => t.fMaster = true)+inside.count true =
    if s.control = .waiting then 1 else 0
  away : s.control = .away → s.q.nTodo = 0 ∧ s.q.fAllOk = true

/-- Each check that was added is at one place, in the session it belongs to. -/
structure Ledger (s : QueueState T) : Prop where
  kept : (s.q.queue : Multiset (Job T))+s.inBatches+(s.executed.map Prod.snd : List (Job T))+
    (s.skipped : Multiset (Job T)) = s.added
  numbered : s.added.map Job.index = List.range s.added.length
  session : ∀ job ∈ s.added, job.session ≤ s.session
  queued : ∀ job ∈ s.q.queue, job.session = s.session
  batched : ∀ t ∈ s.threads, ∀ job ∈ t.batch, job.session = s.session
  executed : ∀ e ∈ s.executed, e.2.session = e.1

/-- A failure of the session is known to the queue or to a thread, and only such a failure is. -/
structure Verdict (run : T → Bool) (s : QueueState T) : Prop where
  skipped : ∀ job ∈ s.skipped, FailedIn run s job.session
  failed : s.q.fAllOk = false → FailedIn run s s.session
  failedAt : ∀ t ∈ s.threads, t.failed = true → FailedIn run s s.session
  known : s.control ≠ .away → FailedIn run s s.session →
    s.q.fAllOk = false ∨ ∃ t ∈ s.threads, t.failed = true
  past : ∀ e ∈ s.results, e.1 ≤ s.session ∧ (s.control ≠ .away → e.1 < s.session)
  settled : ∀ e ∈ s.results, Settled run s e.1 e.2

structure Sound (run : T → Bool) (inside : List Bool) (s : QueueState T) : Prop where
  counters : Counters inside s
  ledger : Ledger s
  verdict : Verdict run s

section Sections

variable {run : T → Bool} {inside : List Bool} {s : QueueState T} {fMaster : Bool}

theorem batchNow_bounds {q : CCheckQueue T} (h : q.queue ≠ []) :
    0 < batchNow q ∧ batchNow q ≤ q.queue.length := by
  have hpos := List.length_pos_iff.mpr h
  have hdiv := Nat.div_le_self q.queue.length (q.nTotal+q.nIdle+1).toNat
  rw [batchNow]
  omega

/-- What a section does after its first part. -/
theorem enter_cases (s : QueueState T) (fMaster : Bool) (hquit : s.q.fQuit = false) :
    (fMaster = true ∧ s.q.queue = [] ∧ s.q.nTodo = 0 ∧ s.enter fMaster =
      { s with
        q := { s.q with nTotal := s.q.nTotal-1, fAllOk := true }
        control := .away
        results := (s.session, s.q.fAllOk) :: s.results }) ∨
    s.enter fMaster = { s with
      q := { s.q with nIdle := s.q.nIdle+1 }
      threads := ⟨fMaster, .waiting⟩ ::ₘ s.threads } ∨
    ∃ n, 0 < n ∧ n ≤ s.q.queue.length ∧ s.enter fMaster = { s with
      q := { s.q with queue := s.q.queue.drop n }
      threads := ⟨fMaster, .working (s.q.queue.take n) n s.q.fAllOk⟩ ::ₘ s.threads } := by
  by_cases hempty : s.q.queue = []
  · have hisEmpty : s.q.queue.isEmpty = true := List.isEmpty_iff.mpr hempty
    by_cases hdone : fMaster = true ∧ s.q.nTodo = 0
    · obtain ⟨hmaster,htodo⟩ := hdone
      refine Or.inl ⟨hmaster, hempty, htodo, ?_⟩
      subst hmaster
      simp only [QueueState.enter, fetch, hisEmpty, htodo, Bool.true_or, beq_self_eq_true,
        Bool.and_self, if_true]
    · have hwait : ((fMaster || s.q.fQuit) && s.q.nTodo == 0) = false := by
        rw [hquit, Bool.or_false, Bool.and_eq_false_iff, beq_eq_false_iff_ne]
        cases fMaster with
        | false => exact Or.inl rfl
        | true => exact Or.inr fun htodo => hdone ⟨rfl, htodo⟩
      refine Or.inr (Or.inl ?_)
      simp only [QueueState.enter, fetch, hisEmpty, hwait, if_true, Bool.false_eq_true, if_false]
  · have hisEmpty : s.q.queue.isEmpty = false := by
      rw [List.isEmpty_eq_false_iff]
      exact hempty
    obtain ⟨hpos,hle⟩ := batchNow_bounds hempty
    refine Or.inr (Or.inr ⟨batchNow s.q, hpos, hle, ?_⟩)
    simp only [QueueState.enter, fetch, hisEmpty, Bool.false_eq_true, if_false]

/-- Nobody is at work once nothing is to do. -/
theorem Counters.all_idle (h : Counters inside s) (htodo : s.q.nTodo = 0) :
    s.q.queue = [] ∧ ∀ t ∈ s.threads, t.idle = true := by
  have hsum := h.todo
  rw [htodo] at hsum
  refine ⟨List.length_eq_zero_iff.mp (by omega), fun t ht => ?_⟩
  rcases h.sized t ht with hidle | hpos
  · exact hidle
  · have hle := Multiset.le_sum_of_mem (Multiset.mem_map_of_mem Thread.nNow ht)
    omega

theorem Counters.enter (h : Counters [fMaster] s) : Counters [] (s.enter fMaster) := by
  have htotal := h.total
  have hidle := h.idle
  have htodo := h.todo
  have hmaster := h.master
  rcases enter_cases s fMaster h.quit with ⟨rfl,hempty,hzero,heq⟩ | heq | ⟨n,hpos,hle,heq⟩
  · have hnone : (s.threads.countP fun t => t.fMaster = true) = 0 := by
      rw [List.count_singleton_self] at hmaster
      split_ifs at hmaster
      all_goals omega
    rw [heq]
    refine ⟨?_, h.idle, h.todo, h.sized, h.quit, ?_, fun _ => ⟨hzero, rfl⟩⟩
    · simp [htotal]
    · simp [hnone]
  · rw [heq]
    refine ⟨?_, ?_, ?_, ?_, h.quit, ?_, h.away⟩
    · simp [htotal]
    · simp [hidle, Multiset.countP_cons]
    · simpa using htodo
    · intro t ht
      rcases Multiset.mem_cons.mp ht with rfl | ht
      · exact Or.inl rfl
      · exact h.sized t ht
    · rw [← hmaster]
      cases fMaster
      all_goals simp
  · rw [heq]
    refine ⟨?_, ?_, ?_, ?_, h.quit, ?_, h.away⟩
    · simp [htotal]
    · simp [hidle]
    · simp only [List.length_drop, Multiset.map_cons, Multiset.sum_cons, Thread.nNow_working]
      omega
    · intro t ht
      rcases Multiset.mem_cons.mp ht with rfl | ht
      · exact Or.inr hpos
      · exact h.sized t ht
    · rw [← hmaster]
      cases fMaster
      all_goals simp

theorem Ledger.enter (h : Ledger s) (hquit : s.q.fQuit = false) : Ledger (s.enter fMaster) := by
  rcases enter_cases s fMaster hquit with ⟨-,-,-,heq⟩ | heq | ⟨n,-,-,heq⟩
  · rw [heq]
    exact ⟨h.kept, h.numbered, h.session, h.queued, h.batched, h.executed⟩
  · rw [heq]
    refine ⟨?_, h.numbered, h.session, h.queued, ?_, h.executed⟩
    · simpa [QueueState.inBatches] using h.kept
    · intro t ht
      rcases Multiset.mem_cons.mp ht with rfl | ht
      · exact fun job hjob => absurd hjob List.not_mem_nil
      · exact h.batched t ht
  · rw [heq]
    refine ⟨?_, h.numbered, h.session, ?_, ?_, h.executed⟩
    · have hsplit : (s.q.queue : Multiset (Job T)) = (s.q.queue.take n : Multiset (Job T))+
          (s.q.queue.drop n : Multiset (Job T)) := by
        rw [Multiset.coe_add, List.take_append_drop]
      rw [← h.kept, hsplit]
      simp only [QueueState.inBatches, Multiset.cons_bind, Thread.batch_working]
      abel
    · exact fun job hjob => h.queued job (List.mem_of_mem_drop hjob)
    · intro t ht
      rcases Multiset.mem_cons.mp ht with rfl | ht
      · exact fun job hjob => h.queued job (List.mem_of_mem_take hjob)
      · exact h.batched t ht

theorem Ledger.executed_added (h : Ledger s) {e : ℕ × Job T} (he : e ∈ s.executed) :
    e.2 ∈ s.added := by
  have hmem : e.2 ∈ s.executed.map Prod.snd := List.mem_map.mpr ⟨e, he, rfl⟩
  rw [← Multiset.mem_coe, ← h.kept]
  simp only [Multiset.mem_add, Multiset.mem_coe]
  exact Or.inl (Or.inr hmem)

/-- The master leaves: what it returns is the verdict on the session. -/
theorem Sound.returned (h : Sound run [true] s) (htodo : s.q.nTodo = 0) :
    Settled run s s.session s.q.fAllOk := by
  obtain ⟨hqueue,hidle⟩ := h.counters.all_idle htodo
  have hnone : s.inBatches = 0 := by
    apply Multiset.eq_zero_of_forall_notMem
    intro job hjob
    obtain ⟨t,ht,hmem⟩ := Multiset.mem_bind.mp hjob
    rw [(Thread.of_idle (hidle t ht)).2] at hmem
    exact absurd hmem (Multiset.notMem_zero job)
  have hdone : ∀ job ∈ s.added, job ∈ s.executed.map Prod.snd ∨ job ∈ s.skipped := by
    intro job hjob
    have hmem := Multiset.mem_coe.mpr hjob
    rw [← h.ledger.kept, hqueue, hnone] at hmem
    simpa using hmem
  have hwhere : ∀ job ∈ s.added, job.session = s.session →
      (s.session, job) ∈ s.executed ∨ job ∈ s.skipped := by
    intro job hjob hsession
    rcases hdone job hjob with hmem | hmem
    · obtain ⟨e,he,rfl⟩ := List.mem_map.mp hmem
      rw [← hsession, h.ledger.executed e he]
      exact Or.inl he
    · exact Or.inr hmem
  refine ⟨⟨fun hok job hjob hsession => ?_, fun hall => ?_⟩, hwhere⟩
  · -- a failure of this session would be known to the queue, for no thread is at work
    have hnofail : ¬FailedIn run s s.session := by
      intro hfail
      have haway : s.control ≠ .away := by
        intro haway
        have hmaster := h.counters.master
        rw [haway] at hmaster
        simp at hmaster
      rcases h.verdict.known haway hfail with hfalse | ⟨t,ht,hfailed⟩
      · rw [hok] at hfalse
        cases hfalse
      · rw [(Thread.of_idle (hidle t ht)).1] at hfailed
        cases hfailed
    rcases hwhere job hjob hsession with hexecuted | hskipped
    · by_contra hrun
      exact hnofail ⟨job, hexecuted, Bool.eq_false_iff.mpr hrun⟩
    · have hfail := h.verdict.skipped job hskipped
      rw [hsession] at hfail
      exact absurd hfail hnofail
  · by_contra hok
    obtain ⟨job,hjob,hrun⟩ := h.verdict.failed (Bool.eq_false_iff.mpr hok)
    have htrue := hall job (h.ledger.executed_added hjob) (h.ledger.executed _ hjob)
    rw [hrun] at htrue
    cases htrue

theorem Verdict.enter (h : Sound run [fMaster] s) : Verdict run (s.enter fMaster) := by
  have hv := h.verdict
  rcases enter_cases s fMaster h.counters.quit with ⟨rfl,-,hzero,heq⟩ | heq | ⟨n,-,-,heq⟩
  · rw [heq]
    refine ⟨hv.skipped, fun hfalse => ?_, hv.failedAt, fun haway => absurd rfl haway, ?_, ?_⟩
    · cases hfalse
    · intro e he
      refine ⟨?_, fun haway => absurd rfl haway⟩
      rcases List.mem_cons.mp he with rfl | he
      · exact le_rfl
      · exact (hv.past e he).1
    · intro e he
      rcases List.mem_cons.mp he with rfl | he
      · exact h.returned hzero
      · exact hv.settled e he
  · rw [heq]
    refine ⟨hv.skipped, hv.failed, ?_, ?_, hv.past, hv.settled⟩
    · intro t ht hfailed
      rcases Multiset.mem_cons.mp ht with rfl | ht
      · cases hfailed
      · exact hv.failedAt t ht hfailed
    · exact fun haway hfail => (hv.known haway hfail).imp_right
        fun ⟨t,ht,hfailed⟩ => ⟨t, Multiset.mem_cons_of_mem ht, hfailed⟩
  · rw [heq]
    refine ⟨hv.skipped, hv.failed, ?_, ?_, hv.past, hv.settled⟩
    · intro t ht hfailed
      rcases Multiset.mem_cons.mp ht with rfl | ht
      · rw [Thread.failed_working, Bool.not_eq_true'] at hfailed
        exact hv.failed hfailed
      · exact hv.failedAt t ht hfailed
    · exact fun haway hfail => (hv.known haway hfail).imp_right
        fun ⟨t,ht,hfailed⟩ => ⟨t, Multiset.mem_cons_of_mem ht, hfailed⟩

theorem Sound.enter (h : Sound run [fMaster] s) : Sound run [] (s.enter fMaster) :=
  ⟨h.counters.enter, h.ledger.enter h.counters.quit, Verdict.enter h⟩

end Sections

section Steps

variable {run : T → Bool} {s s' : QueueState T} {rest : Multiset (Thread T)} {fMaster : Bool}

theorem FailedIn.added (hl : Ledger s) {session : ℕ} (h : FailedIn run s session) :
    ∃ job ∈ s.added, job.session = session ∧ run job.check = false := by
  obtain ⟨job,hjob,hrun⟩ := h
  exact ⟨job, hl.executed_added hjob, hl.executed _ hjob, hrun⟩

/-- A worker comes. -/
theorem Sound.startWorker (h : Sound run [] s) :
    Sound run [] ({ s with q := firstIteration s.q }.enter false) := by
  have hc := h.counters
  have hl := h.ledger
  have hv := h.verdict
  apply Sound.enter
  refine ⟨⟨?_, hc.idle, hc.todo, hc.sized, hc.quit, ?_, hc.away⟩,
    ⟨hl.kept, hl.numbered, hl.session, hl.queued, hl.batched, hl.executed⟩,
    ⟨hv.skipped, hv.failed, hv.failedAt, hv.known, hv.past, hv.settled⟩⟩
  · change s.q.nTotal+1 = _
    simp [hc.total]
  · simpa using hc.master

/-- A wait ends. -/
theorem Sound.wake (h : Sound run [] s) (hthreads : s.threads = ⟨fMaster, .waiting⟩ ::ₘ rest) :
    Sound run [] ({ s with q := endWait s.q, threads := rest }.enter fMaster) := by
  have hc := h.counters
  have hl := h.ledger
  have hv := h.verdict
  have hmem : ∀ t ∈ rest, t ∈ s.threads := fun t ht => by
    rw [hthreads]
    exact Multiset.mem_cons_of_mem ht
  have htotal := hc.total
  have hidle := hc.idle
  have htodo := hc.todo
  have hmaster := hc.master
  have hkept := hl.kept
  rw [QueueState.inBatches] at hkept
  rw [hthreads] at htotal hidle htodo hmaster hkept
  apply Sound.enter
  refine ⟨⟨?_, ?_, ?_, fun t ht => hc.sized t (hmem t ht), hc.quit, ?_, hc.away⟩,
    ⟨?_, hl.numbered, hl.session, hl.queued, fun t ht => hl.batched t (hmem t ht), hl.executed⟩,
    ⟨hv.skipped, hv.failed, fun t ht => hv.failedAt t (hmem t ht), ?_, hv.past, hv.settled⟩⟩
  · simpa [endWait] using htotal
  · change s.q.nIdle-1 = _
    simp [hidle, Multiset.countP_cons]
  · simpa [endWait] using htodo
  · rw [← hmaster]
    cases fMaster
    all_goals simp
  · simpa [QueueState.inBatches, endWait] using hkept
  · intro haway hfail
    rcases hv.known haway hfail with hfalse | ⟨t,ht,hfailed⟩
    · exact Or.inl hfalse
    · rw [hthreads] at ht
      rcases Multiset.mem_cons.mp ht with rfl | ht
      · cases hfailed
      · exact Or.inr ⟨t, ht, hfailed⟩

/-- A batch is done, and the thread comes for the next one. -/
theorem Sound.finish {nNow : ℕ} {fOk : Bool} (h : Sound run [] s)
    (hthreads : s.threads = ⟨fMaster, .working [] nNow fOk⟩ ::ₘ rest) :
    Sound run [] ({ s with q := cleanUp s.q nNow fOk, threads := rest }.enter fMaster) := by
  have hc := h.counters
  have hl := h.ledger
  have hv := h.verdict
  have hself : ⟨fMaster, .working [] nNow fOk⟩ ∈ s.threads := by
    rw [hthreads]
    exact Multiset.mem_cons_self _ _
  have hmem : ∀ t ∈ rest, t ∈ s.threads := fun t ht => by
    rw [hthreads]
    exact Multiset.mem_cons_of_mem ht
  have hpos : 0 < nNow := by
    rcases hc.sized _ hself with hidle | hpos
    · cases hidle
    · exact hpos
  have htotal := hc.total
  have hidle := hc.idle
  have htodo := hc.todo
  have hmaster := hc.master
  have hkept := hl.kept
  rw [QueueState.inBatches] at hkept
  rw [hthreads] at htotal hidle htodo hmaster hkept
  simp only [Multiset.map_cons, Multiset.sum_cons, Thread.nNow_working] at htodo
  apply Sound.enter
  refine ⟨⟨?_, ?_, ?_, fun t ht => hc.sized t (hmem t ht), hc.quit, ?_, fun haway => ?_⟩,
    ⟨?_, hl.numbered, hl.session, hl.queued, fun t ht => hl.batched t (hmem t ht), hl.executed⟩,
    ⟨hv.skipped, fun hfalse => ?_, fun t ht => hv.failedAt t (hmem t ht), ?_, hv.past, hv.settled⟩⟩
  · simpa [cleanUp] using htotal
  · simpa [cleanUp] using hidle
  · change s.q.nTodo-nNow = s.q.queue.length+(rest.map Thread.nNow).sum
    omega
  · rw [← hmaster]
    cases fMaster
    all_goals simp
  · -- nothing was to do, so no batch was out
    have hzero := (hc.away haway).1
    omega
  · simpa [QueueState.inBatches, cleanUp] using hkept
  · change (s.q.fAllOk && fOk) = false at hfalse
    rcases Bool.and_eq_false_iff.mp hfalse with hfalse | hfalse
    · exact hv.failed hfalse
    · apply hv.failedAt _ hself
      rw [Thread.failed_working, hfalse]
      rfl
  · intro haway hfail
    change (s.q.fAllOk && fOk) = false ∨ _
    rcases hv.known haway hfail with hfalse | ⟨t,ht,hfailed⟩
    · rw [hfalse, Bool.false_and]
      exact Or.inl rfl
    · rw [hthreads] at ht
      rcases Multiset.mem_cons.mp ht with rfl | ht
      · rw [Thread.failed_working, Bool.not_eq_true'] at hfailed
        rw [hfailed, Bool.and_false]
        exact Or.inl rfl
      · exact Or.inr ⟨t, ht, hfailed⟩

theorem runCheck_true (run : T → Bool) (s : QueueState T) (fMaster : Bool) (job : Job T)
    (vChecks : List (Job T)) (nNow : ℕ) : s.runCheck run fMaster job vChecks nNow true =
      { s with
        threads := ⟨fMaster, .working vChecks nNow (run job.check)⟩ ::ₘ s.threads
        executed := (s.session, job) :: s.executed } := rfl

theorem runCheck_false (run : T → Bool) (s : QueueState T) (fMaster : Bool) (job : Job T)
    (vChecks : List (Job T)) (nNow : ℕ) : s.runCheck run fMaster job vChecks nNow false =
      { s with
        threads := ⟨fMaster, .working vChecks nNow false⟩ ::ₘ s.threads
        skipped := job :: s.skipped } := rfl

/-- The counters do not see a check. -/
theorem Counters.check {job : Job T} {vChecks : List (Job T)} {nNow : ℕ} {fOk fOk' : Bool}
    (h : Counters [] s)
    (hthreads : s.threads = ⟨fMaster, .working (job :: vChecks) nNow fOk⟩ ::ₘ rest)
    (hq : s'.q = s.q) (hcontrol : s'.control = s.control)
    (hthreads' : s'.threads = ⟨fMaster, .working vChecks nNow fOk'⟩ ::ₘ rest) : Counters [] s' := by
  have htotal := h.total
  have hidle := h.idle
  have htodo := h.todo
  have hmaster := h.master
  rw [hthreads] at htotal hidle htodo hmaster
  refine ⟨?_, ?_, ?_, ?_, ?_, ?_, ?_⟩
  · rw [hq, hthreads', htotal]
    simp
  · rw [hq, hthreads', hidle]
    simp
  · rw [hq, hthreads', htodo]
    simp
  · intro t ht
    rw [hthreads'] at ht
    rcases Multiset.mem_cons.mp ht with rfl | ht
    · refine h.sized ⟨fMaster, .working (job :: vChecks) nNow fOk⟩ ?_
      rw [hthreads]
      exact Multiset.mem_cons_self _ _
    · apply h.sized t
      rw [hthreads]
      exact Multiset.mem_cons_of_mem ht
  · rw [hq]
    exact h.quit
  · rw [hcontrol, hthreads', ← hmaster]
    cases fMaster
    all_goals simp
  · rw [hcontrol, hq]
    exact h.away

/-- A thread runs one check, or skips it. -/
theorem Sound.check {job : Job T} {vChecks : List (Job T)} {nNow : ℕ} {fOk : Bool}
    (h : Sound run [] s)
    (hthreads : s.threads = ⟨fMaster, .working (job :: vChecks) nNow fOk⟩ ::ₘ rest) :
    Sound run [] ({ s with threads := rest }.runCheck run fMaster job vChecks nNow fOk) := by
  have hl := h.ledger
  have hv := h.verdict
  have hself : ⟨fMaster, .working (job :: vChecks) nNow fOk⟩ ∈ s.threads := by
    rw [hthreads]
    exact Multiset.mem_cons_self _ _
  have hmem : ∀ t ∈ rest, t ∈ s.threads := fun t ht => by
    rw [hthreads]
    exact Multiset.mem_cons_of_mem ht
  have hjob : job.session = s.session := hl.batched _ hself job List.mem_cons_self
  have hrest : ∀ fOk', ∀ t ∈ ⟨fMaster, .working vChecks nNow fOk'⟩ ::ₘ rest, ∀ job ∈ t.batch,
      job.session = s.session := by
    intro fOk' t ht job' hjob'
    rcases Multiset.mem_cons.mp ht with rfl | ht
    · exact hl.batched _ hself job' (List.mem_cons_of_mem _ hjob')
    · exact hl.batched t (hmem t ht) job' hjob'
  have hkept := hl.kept
  rw [QueueState.inBatches, hthreads, Multiset.cons_bind, Thread.batch_working] at hkept
  have hsplit : ((job :: vChecks : List (Job T)) : Multiset (Job T)) = {job}+(vChecks : Multiset (Job T)) := by
    rw [Multiset.singleton_add, Multiset.cons_coe]
  rw [hsplit] at hkept
  cases fOk with
  | true =>
    have hmono : ∀ {session}, FailedIn run s session → FailedIn run
        ({ s with threads := rest }.runCheck run fMaster job vChecks nNow true) session :=
      fun ⟨job',hjob',hrun⟩ => ⟨job', List.mem_cons_of_mem _ hjob', hrun⟩
    refine ⟨h.counters.check hthreads rfl rfl rfl,
      ⟨?_, hl.numbered, hl.session, hl.queued, hrest _, ?_⟩,
      ⟨fun job' hjob' => hmono (hv.skipped job' hjob'), fun hfalse => hmono (hv.failed hfalse),
        ?_, ?_, hv.past, fun e he => ⟨(hv.settled e he).1, fun job' hjob' hsession => ?_⟩⟩⟩
    · rw [runCheck_true, ← hkept]
      simp only [QueueState.inBatches, Multiset.cons_bind, Thread.batch_working, List.map_cons]
      rw [← Multiset.cons_coe, ← Multiset.singleton_add]
      abel
    · intro e he
      rcases List.mem_cons.mp he with rfl | he
      · exact hjob
      · exact hl.executed e he
    · intro t ht hfailed
      rcases Multiset.mem_cons.mp ht with rfl | ht
      · rw [Thread.failed_working, Bool.true_and, Bool.not_eq_true'] at hfailed
        exact ⟨job, List.mem_cons_self, hfailed⟩
      · exact hmono (hv.failedAt t (hmem t ht) hfailed)
    · rintro haway ⟨job',hjob',hrun⟩
      rcases List.mem_cons.mp hjob' with heq | hjob'
      · obtain ⟨-,rfl⟩ := Prod.mk.inj heq
        refine Or.inr ⟨_, Multiset.mem_cons_self _ _, ?_⟩
        rw [Thread.failed_working, Bool.true_and, hrun]
        rfl
      · rcases hv.known haway ⟨job', hjob', hrun⟩ with hfalse | ⟨t,ht,hfailed⟩
        · exact Or.inl hfalse
        · rw [hthreads] at ht
          rcases Multiset.mem_cons.mp ht with rfl | ht
          · cases hfailed
          · exact Or.inr ⟨t, Multiset.mem_cons_of_mem ht, hfailed⟩
    · exact ((hv.settled e he).2 job' hjob' hsession).imp_left (List.mem_cons_of_mem _)
  | false =>
    refine ⟨h.counters.check hthreads rfl rfl rfl,
      ⟨?_, hl.numbered, hl.session, hl.queued, hrest _, hl.executed⟩,
      ⟨?_, hv.failed, ?_, ?_, hv.past,
        fun e he => ⟨(hv.settled e he).1, fun job' hjob' hsession => ?_⟩⟩⟩
    · rw [runCheck_false, ← hkept]
      simp only [QueueState.inBatches, Multiset.cons_bind, Thread.batch_working]
      rw [← Multiset.cons_coe, ← Multiset.singleton_add]
      abel
    · intro job' hjob'
      rcases List.mem_cons.mp hjob' with rfl | hjob'
      · rw [hjob]
        exact hv.failedAt _ hself rfl
      · exact hv.skipped job' hjob'
    · intro t ht hfailed
      rcases Multiset.mem_cons.mp ht with rfl | ht
      · exact hv.failedAt _ hself rfl
      · exact hv.failedAt t (hmem t ht) hfailed
    · exact fun _ _ => Or.inr ⟨_, Multiset.mem_cons_self _ _, rfl⟩
    · exact ((hv.settled e he).2 job' hjob' hsession).imp_right (List.mem_cons_of_mem _)

/-- A new control begins its session. -/
theorem Sound.construct (h : Sound run [] s) (haway : s.control = .away) :
    Sound run [] { s with control := .adding, session := s.session+1 } := by
  have hc := h.counters
  have hl := h.ledger
  have hv := h.verdict
  obtain ⟨htodo,hok⟩ := hc.away haway
  obtain ⟨hqueue,hidle⟩ := hc.all_idle htodo
  have hmaster := hc.master
  rw [haway] at hmaster
  refine ⟨⟨hc.total, hc.idle, hc.todo, hc.sized, hc.quit, hmaster, fun h => ?_⟩,
    ⟨hl.kept, hl.numbered, fun job hjob => (hl.session job hjob).trans (Nat.le_succ _), ?_, ?_,
      hl.executed⟩,
    ⟨hv.skipped, fun hfalse => ?_, fun t ht hfailed => ?_, fun _ hfail => ?_,
      fun e he => ⟨(hv.past e he).1.trans (Nat.le_succ _), fun _ => Nat.lt_succ_of_le (hv.past e he).1⟩,
      hv.settled⟩⟩
  · cases h
  · intro job hjob
    change job ∈ s.q.queue at hjob
    rw [hqueue] at hjob
    cases hjob
  · intro t ht job hjob
    rw [(Thread.of_idle (hidle t ht)).2] at hjob
    cases hjob
  · rw [hok] at hfalse
    cases hfalse
  · rw [(Thread.of_idle (hidle t ht)).1] at hfailed
    cases hfailed
  · -- no check belongs to a session that is yet to come
    have hadded : ∃ job ∈ s.added, job.session = s.session+1 ∧ run job.check = false :=
      FailedIn.added hl hfail
    obtain ⟨job,hjob,hsession,-⟩ := hadded
    have hle := hl.session job hjob
    omega

/-- `Add`. -/
theorem Sound.add (h : Sound run [] s) (hadding : s.control = .adding) (vChecks : List T) :
    Sound run [] (s.add vChecks) := by
  have hc := h.counters
  have hl := h.ledger
  have hv := h.verdict
  have hnew : ∀ job ∈ vChecks.mapIdx fun i check => (⟨s.session, s.added.length+i, check⟩ : Job T),
      job.session = s.session := by
    intro job hjob
    obtain ⟨i,hi,rfl⟩ := List.mem_mapIdx.mp hjob
    rfl
  have haway : s.control ≠ .away := by
    rw [hadding]
    decide
  refine ⟨⟨hc.total, hc.idle, ?_, hc.sized, hc.quit, hc.master, fun h => absurd h haway⟩,
    ⟨?_, ?_, ?_, ?_, hl.batched, hl.executed⟩,
    ⟨hv.skipped, hv.failed, hv.failedAt, hv.known, hv.past, fun e he => ?_⟩⟩
  · have htodo := hc.todo
    simp only [QueueState.add, List.length_append, List.length_reverse]
    omega
  · simp only [QueueState.add, QueueState.inBatches, ← Multiset.coe_add, ← hl.kept,
      Multiset.coe_reverse]
    abel
  · simp only [QueueState.add, List.map_append, hl.numbered, List.length_append, List.length_mapIdx]
    rw [List.range_add]
    congr 1
    apply List.ext_getElem
    · simp
    · intro i h1 h2
      simp
  · intro job hjob
    rcases List.mem_append.mp hjob with hjob | hjob
    · exact hl.session job hjob
    · exact (hnew job hjob).le
  · intro job hjob
    rcases List.mem_append.mp hjob with hjob | hjob
    · exact hnew job (List.mem_reverse.mp hjob)
    · exact hl.queued job hjob
  · -- the new checks are not of a session that is over
    have hold : ∀ job ∈ (s.add vChecks).added, job.session = e.1 → job ∈ s.added := by
      intro job hjob hsession
      rcases List.mem_append.mp hjob with hjob | hjob
      · exact hjob
      · have hlt := (hv.past e he).2 haway
        have hsame := hnew job hjob
        omega
    obtain ⟨hiff,hwhere⟩ := hv.settled e he
    refine ⟨hiff.trans ⟨fun hall job hjob hsession => ?_, fun hall job hjob => ?_⟩,
      fun job hjob hsession => hwhere job (hold job hjob hsession) hsession⟩
    · exact hall job (hold job hjob hsession) hsession
    · exact hall job (List.mem_append_left _ hjob)

/-- `Wait`, or the destructor: the master joins the workers. -/
theorem Sound.wait (h : Sound run [] s) (hadding : s.control = .adding) :
    Sound run [] ({ s with q := firstIteration s.q, control := .waiting }.enter true) := by
  have hc := h.counters
  have hl := h.ledger
  have hv := h.verdict
  have haway : s.control ≠ .away := by
    rw [hadding]
    decide
  have hmaster := hc.master
  rw [hadding] at hmaster
  apply Sound.enter
  refine ⟨⟨?_, hc.idle, hc.todo, hc.sized, hc.quit, ?_, fun h => ?_⟩,
    ⟨hl.kept, hl.numbered, hl.session, hl.queued, hl.batched, hl.executed⟩,
    ⟨hv.skipped, hv.failed, hv.failedAt, fun _ => hv.known haway,
      fun e he => ⟨(hv.past e he).1, fun _ => (hv.past e he).2 haway⟩, hv.settled⟩⟩
  · change s.q.nTotal+1 = _
    simp [hc.total]
  · simpa using hmaster
  · cases h

end Steps

section Run

variable {run : T → Bool} {nBatchSize : ℕ} {s s' : QueueState T}

theorem start_sound (run : T → Bool) (nBatchSize : ℕ) :
    Sound run [] (QueueState.start nBatchSize : QueueState T) := by
  refine ⟨⟨rfl, rfl, rfl, ?_, rfl, rfl, fun _ => ⟨rfl, rfl⟩⟩, ⟨rfl, rfl, ?_, ?_, ?_, ?_⟩,
    ⟨?_, ?_, ?_, ?_, ?_, ?_⟩⟩
  · exact fun t ht => absurd ht (Multiset.notMem_zero t)
  · exact fun job hjob => absurd hjob List.not_mem_nil
  · exact fun job hjob => absurd hjob List.not_mem_nil
  · exact fun t ht => absurd ht (Multiset.notMem_zero t)
  · exact fun e he => absurd he List.not_mem_nil
  · exact fun job hjob => absurd hjob List.not_mem_nil
  · intro hfalse
    cases hfalse
  · exact fun t ht => absurd ht (Multiset.notMem_zero t)
  · exact fun haway => absurd rfl haway
  · exact fun e he => absurd he List.not_mem_nil
  · exact fun e he => absurd he List.not_mem_nil

/-- One step of anyone keeps the invariant. -/
theorem Sound.step (h : Sound run [] s) (hstep : QueueStep run s s') : Sound run [] s' := by
  cases hstep with
  | startWorker => exact h.startWorker
  | wake fMaster rest hthreads => exact h.wake hthreads
  | check fMaster job vChecks nNow fOk rest hthreads => exact h.check hthreads
  | finish fMaster nNow fOk rest hthreads => exact h.finish hthreads
  | construct haway => exact h.construct haway
  | add hadding vChecks => exact h.add hadding vChecks
  | wait hadding => exact h.wait hadding

/-- It holds in every state, in whatever order the threads take their steps. -/
theorem QueueReaches.sound (h : QueueReaches run nBatchSize s) : Sound run [] s := by
  induction h with
  | start => exact start_sound run nBatchSize
  | step _ hstep ih => exact ih.step hstep

/-- No check is executed twice. -/
theorem Ledger.executed_nodup (h : Ledger s) : (s.executed.map fun e => e.2.index).Nodup := by
  have hadded : (s.added.map Job.index).Nodup := by
    rw [h.numbered]
    exact List.nodup_range
  have hle : ((s.executed.map Prod.snd : List (Job T)) : Multiset (Job T)) ≤ s.added := by
    rw [← h.kept, add_right_comm]
    exact Multiset.le_add_left _ _
  have hsub := Multiset.map_le_map (f := Job.index) hle
  have hnodup := Multiset.nodup_of_le hsub (Multiset.coe_nodup.mpr hadded)
  rw [Multiset.map_coe, Multiset.coe_nodup, List.map_map] at hnodup
  exact hnodup

/-- `Wait` returns the conjunction of the session's checks. By then each of them is executed, or is
skipped for a failed one of the same session; none is executed twice or in another session. The
asserts of the constructor hold whenever no control has the queue. -/
theorem checkQueue_conjunction (run : T → Bool) (nBatchSize : ℕ) (s : QueueState T)
    (h : QueueReaches run nBatchSize s) :
    (∀ session fRet, (session, fRet) ∈ s.results →
      (fRet = true ↔ ∀ job ∈ s.added, job.session = session → run job.check = true) ∧
      ∀ job ∈ s.added, job.session = session → (session, job) ∈ s.executed ∨ job ∈ s.skipped ∧
        ∃ failed, (session, failed) ∈ s.executed ∧ run failed.check = false) ∧
    ((s.executed.map fun e => e.2.index).Nodup ∧
      ∀ session job, (session, job) ∈ s.executed → job.session = session ∧ job ∈ s.added) ∧
    (s.control = .away → s.q.nTotal = s.q.nIdle ∧ s.q.nTodo = 0 ∧ s.q.fAllOk = true) := by
  have hsound := h.sound
  refine ⟨fun session fRet hresult => ?_, ⟨hsound.ledger.executed_nodup, ?_⟩, fun haway => ?_⟩
  · obtain ⟨hiff,hwhere⟩ := hsound.verdict.settled _ hresult
    refine ⟨hiff, fun job hjob hsession => (hwhere job hjob hsession).imp_right fun hskipped => ?_⟩
    have hfail := hsound.verdict.skipped job hskipped
    rw [hsession] at hfail
    exact ⟨hskipped, hfail⟩
  · exact fun session job hjob =>
      ⟨hsound.ledger.executed _ hjob, hsound.ledger.executed_added hjob⟩
  · obtain ⟨htodo,hok⟩ := hsound.counters.away haway
    have hidle := (hsound.counters.all_idle htodo).2
    have hcount : (s.threads.countP fun t => t.idle = true) = s.threads.card :=
      Multiset.countP_eq_card.mpr hidle
    refine ⟨?_, htodo, hok⟩
    rw [hsound.counters.total, hsound.counters.idle, hcount]
    simp

end Run

section Sample

/-- After a session with a check that passes and one that fails; a worker waits. -/
def sampleEnd : QueueState Bool where
  q := ⟨[], 1, 1, true, 0, false, 128⟩
  threads := {⟨false, .waiting⟩}
  control := .away
  session := 1
  added := [⟨1, 0, true⟩, ⟨1, 1, false⟩]
  executed := [(1, ⟨1, 1, false⟩)]
  skipped := [⟨1, 0, true⟩]
  results := [(1, false)]

theorem sampleEnd_reached : QueueReaches id 128 sampleEnd := by
  have hstart : QueueReaches id 128 (QueueState.start 128 : QueueState Bool) := QueueReaches.start
  have hworker := hstart.step .startWorker
  have hadded := (hworker.step (.construct rfl)).step (.add rfl [true,false])
  have hwait := hadded.step (.wait rfl)
  -- the master runs the check that fails, and skips the other one
  have hfirst := (hwait.step (.check true ⟨1, 1, false⟩ [] 1 true {⟨false, .waiting⟩} rfl)).step
    (.finish true 1 false {⟨false, .waiting⟩} rfl)
  exact (hfirst.step (.check true ⟨1, 0, true⟩ [] 1 false {⟨false, .waiting⟩} rfl)).step
    (.finish true 1 false {⟨false, .waiting⟩} rfl)

theorem checkQueue_conjunction_sample :
    (false = true ↔ ∀ job ∈ sampleEnd.added, job.session = 1 → id job.check = true) ∧
      sampleEnd.q.nTotal = sampleEnd.q.nIdle := by
  obtain ⟨hresults,-,hasserts⟩ := checkQueue_conjunction id 128 sampleEnd sampleEnd_reached
  exact ⟨(hresults 1 false List.mem_cons_self).1, (hasserts rfl).1⟩

end Sample

end Candypool.Script
