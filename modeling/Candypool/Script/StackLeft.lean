import Candypool.Script.MultisigScript

/-! The stack that `EvalScript` leaves to a caller that does not look at its result. -/
namespace Candypool.Script
open Candypool.Prime Candypool.Core Candypool.Lib

section Left
variable (env : EvalEnv) (ctx : EvalContext)

/-- What an opcode that is executed makes of the stack, unless it fails. -/
def stackAfter (st : EvalState) (calls : ℕ) (op : ScriptOp) : List Valtype :=
  match (evalOp env ctx true st op).run.run calls with
  | (.ok st',_) => st'.stack
  | (.error _,_) => st.stack

/-- What an opcode that fails leaves. The `VERIFY` forms have put their result on the stack before,
`OP_PICK` and `OP_ROLL` have taken a number off it; no other one has changed it. -/
def opLeft (st : EvalState) (calls : ℕ) : ScriptOp → List Valtype
  | .stackOp (.equal true) => stackAfter env ctx st calls (.stackOp (.equal false))
  | .stackOp (.binary op true) => stackAfter env ctx st calls (.stackOp (.binary op false))
  | .checkSig true => stackAfter env ctx st calls (.checkSig false)
  | .checkMultiSig true => stackAfter env ctx st calls (.checkMultiSig false)
  | .stackOp .pick | .stackOp .roll =>
    match st.stack with
    | vch :: vch' :: stack => if vch.length > 4 then st.stack else vch' :: stack
    | _ => st.stack
  | _ => st.stack

/-- What a turn of the loop that fails leaves. -/
def stepLeft (st : EvalState) (calls : ℕ) : List Valtype :=
  match getOp st.pc with
  | none => st.stack
  | some (opcode,vchPushValue,pc) =>
    let nOpCount := if opcode > op16 then st.nOpCount+1 else st.nOpCount
    let st := { st with pc := pc, nOpCount := nOpCount }
    if vchPushValue.length > maxScriptElementSize ∨ (opcode > op16 ∧ nOpCount > 201) ∨
        opcode ∈ disabledOpcodes then st.stack
    else match (executeOpcode env ctx opcode vchPushValue st).run.run calls with
      -- the stack has become too large
      | (.ok st',_) => st'.stack
      | (.error _,calls) => match decodeOp opcode with
        | none => st.stack
        | some op => opLeft env ctx st calls op

def evalLeft : ℕ → EvalState → ℕ → List Valtype
  | 0, st, _ => st.stack
  | fuel+1, st, calls =>
    if st.pc = [] then st.stack
    else match (evalStep env ctx st).run.run calls with
      | (.ok st',calls) => evalLeft fuel st' calls
      | (.error _,_) => stepLeft env ctx st calls

/-- The stack after `EvalScript(stack, script, ..)` on an empty stack. -/
def stackLeft (script : CScript) : List Valtype :=
  if script.length > 10000 then [] else evalLeft env ctx script.length (.init [] script) 0

variable {env ctx}

theorem evalLeft_of_evalLoop {fuel : ℕ} {st st' : EvalState} {calls calls' : ℕ}
    (hrun : (evalLoop env ctx fuel st).run.run calls = (.ok st',calls')) :
    evalLeft env ctx fuel st calls = st'.stack := by
  induction fuel generalizing st calls with
  | zero =>
    cases hrun
    rfl
  | succ fuel ih =>
    rw [evalLoop] at hrun
    rw [evalLeft]
    split_ifs at hrun ⊢ with hpc
    · cases hrun
      rfl
    -- the step that fails has no state, so the run must have gone on
    · rw [ExceptT.run_bind, StateT.run_bind] at hrun
      rcases hstep : (evalStep env ctx st).run.run calls with ⟨r,calls''⟩
      rw [hstep] at hrun
      cases r with
      | ok st'' => exact ih hrun
      | error e => cases hrun

/-- For a script that succeeds it is the stack that `EvalScript` returns. -/
theorem stackLeft_of_evalScript {script : CScript} {stack : List Valtype} {calls : ℕ}
    (hrun : (evalScript env ctx [] script).run.run 0 = (.ok (some stack),calls)) :
    stackLeft env ctx script = stack := by
  have hbody : wp (evalBody env ctx [] script)
      (fun st _ => some st.stack = some stack → stackLeft env ctx script = stack)
      (fun _ _ => none = some stack → stackLeft env ctx script = stack) 0 := by
    rw [evalBody, wp_bind, wp_returnFalseIf]
    refine ⟨fun _ hnone => absurd hnone.symm (Option.some_ne_none stack), fun hlong => ?_⟩
    rw [wp_bind]
    -- a run that fails has no stack, so only the end of the loop is left
    refine wp_mono (wp_run _ _) ?_ fun _ _ _ hnone => absurd hnone.symm (Option.some_ne_none stack)
    intro st calls' hloop
    rw [wp_bind, wp_returnFalseIf]
    refine ⟨fun _ hnone => absurd hnone.symm (Option.some_ne_none stack), fun _ => ?_⟩
    rw [wp_pure]
    intro hstack
    rw [stackLeft, if_neg hlong, evalLeft_of_evalLoop hloop]
    exact Option.some.inj hstack
  have hscript : wp (evalScript env ctx [] script)
      (fun r _ => r = some stack → stackLeft env ctx script = stack) (fun _ _ => True) 0 :=
    (wp_evalScript env ctx [] script).mpr hbody
  exact post_of_wp hscript hrun rfl

/-- `OP_RESERVED` is the one opcode among the pushes that is none. -/
theorem isPush_of_le {opcode : ℕ} {vchPushValue : Valtype} (hle : opcode ≤ op16)
    (hsize : vchPushValue.length ≤ maxScriptElementSize) :
    IsPush (opcode,vchPushValue) ∨ opcode = 0x50 := by
  by_cases hreserved : opcode = 0x50
  · exact Or.inr hreserved
  · refine Or.inl ⟨hsize, ?_⟩
    simp only [opPushData4, op1Negate, op1, op16] at hle ⊢
    omega

theorem executeOpcode_reserved {st : EvalState} (vchPushValue : Valtype) (hexec : st.fExec = true) :
    executeOpcode env ctx 0x50 vchPushValue st = throw .returnFalse := by
  rw [executeOpcode, if_neg fun hpush => absurd hpush.2 (by decide), if_pos (Or.inl hexec)]
  rfl

theorem elementsFit_stepLeft {st : EvalState} {calls opcode : ℕ} {vchPushValue : Valtype}
    {next : CScript} (hop : getOp st.pc = some (opcode,vchPushValue,next)) (hle : opcode ≤ op16)
    (hexec : st.vfExec = []) (hfits : ElementsFit st.stack) :
    ElementsFit (stepLeft env ctx st calls) := by
  have hfExec : ({ st with pc := next } : EvalState).fExec = true := by
    rw [EvalState.fExec, hexec]
    rfl
  simp only [stepLeft, hop, if_neg (Nat.not_lt.mpr hle)]
  split_ifs with hreject
  · exact hfits
  -- past the size check the opcode is a push, or the reserved one which fails before it pushes
  rcases isPush_of_le hle (Nat.not_lt.mp fun hlong => hreject (Or.inl hlong)) with hpush | rfl
  · have hexecute := executeOpcode_eq_push env ctx hpush hfExec
    rw [hexecute]
    change ElementsFit (pushValue (opcode,vchPushValue) :: st.stack)
    rw [elementsFit_cons]
    exact ⟨hpush.pushValue_fits, hfits⟩
  · rw [executeOpcode_reserved vchPushValue hfExec]
    exact hfits

/-- A script of pushes leaves no element that is too long to be pushed. -/
theorem elementsFit_evalLeft {fuel : ℕ} {st : EvalState} {calls : ℕ}
    (hpush : isPushOnlyLoop fuel st.pc = true) (hexec : st.vfExec = []) (hfits : st.Fits) :
    ElementsFit (evalLeft env ctx fuel st calls) := by
  induction fuel generalizing st calls with
  | zero => exact hfits.1
  | succ fuel ih =>
    rw [isPushOnlyLoop] at hpush
    rw [evalLeft]
    split_ifs at hpush ⊢ with hpc
    · exact hfits.1
    · cases hop : getOp st.pc with
      | none => simp [hop] at hpush
      | some instr =>
        obtain ⟨opcode,vchPushValue,next⟩ := instr
        simp only [hop] at hpush
        split_ifs at hpush with hbig
        have hle : opcode ≤ op16 := Nat.not_lt.mp hbig
        rcases hstep : (evalStep env ctx st).run.run calls with ⟨r,calls'⟩
        cases r with
        | ok st' =>
          -- a step that succeeds keeps the bounds and opens no branch, so the rest is push only again
          obtain ⟨hsafe,-⟩ := post_of_wp (evalStep_safe env ctx st) hstep
          obtain ⟨hexec',-⟩ := post_of_wp (evalStep_push hop hexec hle) hstep
          obtain ⟨_,_,hnext⟩ := hsafe.next
          have hpc' : next = st'.pc := by
            rw [hop] at hnext
            exact (Prod.mk.inj (Prod.mk.inj (Option.some.inj hnext)).2).2
          rw [hpc'] at hpush
          exact ih hpush hexec' (hsafe.fits hfits)
        | error e => exact elementsFit_stepLeft hop hle hexec hfits.1

theorem elementsFit_stackLeft (env : EvalEnv) (ctx : EvalContext) {script : CScript}
    (hpush : isPushOnly script = true) : ElementsFit (stackLeft env ctx script) := by
  rw [stackLeft]
  split_ifs
  · exact elementsFit_nil
  · exact elementsFit_evalLeft hpush rfl ⟨elementsFit_nil,elementsFit_nil⟩

end Left

section PushedValues
variable (env : EvalEnv) (ctx : EvalContext) {values : List Valtype} {s : ℕ}

/-- Values that a script can push one after the other. -/
structure Pushable (values : List Valtype) : Prop where
  fits : ElementsFit values
  count : values.length ≤ 1000
  size : (values.flatMap pushData).length ≤ 10000

theorem isPush_pushClass {v : Valtype} (hfits : v.length ≤ maxScriptElementSize) :
    IsPush (pushClass v.length,v) ∧ pushValue (pushClass v.length,v) = v := by
  have hle : pushClass v.length ≤ opPushData4 := by
    rw [pushClass]
    split_ifs with hdirect
    · exact hdirect.le.trans (by decide)
    · decide
    · decide
    · decide
  exact ⟨⟨hfits,Or.inl hle⟩, if_pos hle⟩

theorem Pushable.reads (h : Pushable values) : ReadsTo (values.flatMap pushData)
    (values.map fun v => (pushClass v.length,v)) [] := by
  have hsize := h.size
  have hsize' : (values.flatMap pushData ++ []).length < 2^32 := by
    rw [List.append_nil]
    omega
  have hreads := readsTo_pushes values hsize'
  rwa [List.append_nil] at hreads

theorem Pushable.isPush (h : Pushable values) :
    ∀ op ∈ values.map fun v => (pushClass v.length,v), IsPush op := by
  intro op hmem
  obtain ⟨v,hv,rfl⟩ := List.mem_map.mp hmem
  exact (isPush_pushClass (h.fits v hv)).1

/-- A script that pushes them leaves them. -/
theorem Pushable.wp_evalScript (h : Pushable values) :
    wp (evalScript env ctx [] (values.flatMap pushData))
      (fun r s' => r = some values.reverse ∧ s' = s) (fun _ _ => False) s := by
  -- each value is pushed by the opcode of its size, and that opcode pushes it back
  have hvalues : (values.map fun v => (pushClass v.length,v)).map pushValue = values := by
    rw [List.map_map]
    conv_rhs => rw [← List.map_id values]
    exact List.map_congr_left fun v hv => (isPush_pushClass (h.fits v hv)).2
  have hcount := h.count
  have hsize := h.size
  have hops := h.reads.length_ops_le
  rw [List.length_nil, Nat.zero_add] at hops
  obtain ⟨fuel,hfuel⟩ := Nat.exists_eq_add_of_le hops
  have hloop := evalLoop_pushes env ctx (.init [] (values.flatMap pushData)) h.reads h.isPush rfl rfl (by
    rw [List.length_map]
    simp only [EvalState.init, List.length_nil]
    omega) fuel
  rw [hvalues] at hloop
  rw [Candypool.Script.wp_evalScript, evalBody, wp_bind, wp_returnFalseIf]
  refine ⟨fun hlong => absurd hsize (Nat.not_le.mpr hlong), fun _ => ?_⟩
  rw [hfuel, hloop, evalLoop_nil rfl, pure_bind, wp_bind, wp_returnFalseIf]
  refine ⟨fun hopen => absurd rfl hopen, fun _ => ?_⟩
  rw [wp_pure]
  exact ⟨congrArg some (List.append_nil _), rfl⟩

theorem Pushable.stackLeft_eq (h : Pushable values) :
    stackLeft env ctx (values.flatMap pushData) = values.reverse := by
  obtain ⟨r,calls,hrun,rfl,-⟩ := run_of_wp (h.wp_evalScript env ctx (s := 0))
  exact stackLeft_of_evalScript hrun

theorem isPushOnlyLoop_reads {pc : CScript} {ops : List (ℕ × Valtype)} (hreads : ReadsTo pc ops [])
    (hpush : ∀ op ∈ ops, IsPush op) (fuel : ℕ) : isPushOnlyLoop fuel pc = true := by
  generalize hend : ([] : CScript) = rest at hreads
  induction hreads generalizing fuel with
  | nil pc =>
    cases fuel with
    | zero => rfl
    | succ fuel => rw [isPushOnlyLoop, if_pos hend.symm]
  | @cons pc next rest opcode data ops hop _ ih =>
    cases fuel with
    | zero => rfl
    | succ fuel =>
      have hle := (hpush _ List.mem_cons_self).le_op16
      simp only [isPushOnlyLoop, hop, if_neg (Nat.not_lt.mpr hle)]
      split_ifs
      · rfl
      · exact ih (fun op hmem => hpush op (List.mem_cons_of_mem _ hmem)) fuel hend

theorem Pushable.isPushOnly (h : Pushable values) : isPushOnly (values.flatMap pushData) = true :=
  isPushOnlyLoop_reads h.reads h.isPush _

end PushedValues

end Candypool.Script
