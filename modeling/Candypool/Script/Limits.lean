import Candypool.Script.StackSafety

/-! What one turn of the loop of `EvalScript` keeps and counts, and from it what a whole run of a
script keeps: the limits on operations, on the stacks and on their elements. -/
namespace Candypool.Script
open Candypool.Prime Candypool.Core Candypool.Lib

section Decode

theorem mem_opcodeTable {opcode : ℕ} {op : ScriptOp} (h : opcodeTable.lookup opcode = some op) :
    (opcode,op) ∈ opcodeTable := by
  obtain ⟨l,r,heq,-⟩ := List.lookup_eq_some_iff.mp h
  rw [heq]
  exact List.mem_append_right _ List.mem_cons_self

def isCheckSig (opcode : ℕ) : Bool := opcode == opCheckSig || opcode == opCheckSigVerify

def isCheckMultiSig (opcode : ℕ) : Bool :=
  opcode == opCheckMultiSig || opcode == opCheckMultiSigVerify

/-- What the operations beside the small numbers have to do with signatures and numbers. -/
def ScriptOp.matchesOpcode (opcode : ℕ) : ScriptOp → Bool
  | .checkSig _ => isCheckSig opcode && !isCheckMultiSig opcode
  | .checkMultiSig _ => isCheckMultiSig opcode && !isCheckSig opcode
  | .stackOp (.number n) => n.natAbs ≤ 16 && !isCheckSig opcode && !isCheckMultiSig opcode
  | _ => !isCheckSig opcode && !isCheckMultiSig opcode

theorem opcodeTable_matches : ∀ entry ∈ opcodeTable, entry.2.matchesOpcode entry.1 = true := by
  decide +kernel

theorem decodeOp_matches {opcode : ℕ} {op : ScriptOp} (h : decodeOp opcode = some op) :
    op.matchesOpcode opcode = true := by
  rw [decodeOp] at h
  split_ifs at h with hnumber
  · obtain rfl := Option.some.inj h
    simp only [op1Negate, op1, op16] at hnumber
    have hn : ((opcode : ℤ)-(op1-1)).natAbs ≤ 16 := by
      simp only [op1]
      omega
    have hsig : isCheckSig opcode = false := by
      simp only [isCheckSig, opCheckSig, opCheckSigVerify, Bool.or_eq_false_iff, beq_eq_false_iff_ne]
      omega
    have hmulti : isCheckMultiSig opcode = false := by
      simp only [isCheckMultiSig, opCheckMultiSig, opCheckMultiSigVerify, Bool.or_eq_false_iff,
        beq_eq_false_iff_ne]
      omega
    rw [ScriptOp.matchesOpcode, hsig, hmulti, decide_eq_true hn]
    rfl
  · exact opcodeTable_matches _ (mem_opcodeTable h)

theorem decodeOp_small {opcode : ℕ} {op : ScriptOp} (h : decodeOp opcode = some op) : op.Small := by
  rintro n rfl
  have := decodeOp_matches h
  simp only [ScriptOp.matchesOpcode, Bool.and_eq_true, decide_eq_true_eq] at this
  exact this.1.1

/-- The keys an executed opcode takes. -/
def opcodeKeys (opcode : ℕ) (stack : List Valtype) : ℕ :=
  if isCheckMultiSig opcode then keysCount stack else 0

/-- The most signatures an executed opcode checks. -/
def opcodeSigChecks (opcode : ℕ) (stack : List Valtype) : ℕ :=
  if isCheckSig opcode then 1 else if isCheckMultiSig opcode then min 20 (keysCount stack) else 0

theorem keys_of_decodeOp {opcode : ℕ} {op : ScriptOp} (h : decodeOp opcode = some op)
    (stack : List Valtype) : op.keys stack = opcodeKeys opcode stack := by
  have hop := decodeOp_matches h
  rw [opcodeKeys]
  cases op with
  | stackOp op => cases op <;> simp_all [ScriptOp.matchesOpcode, ScriptOp.keys]
  | _ => simp_all [ScriptOp.matchesOpcode, ScriptOp.keys]

theorem sigChecks_of_decodeOp {opcode : ℕ} {op : ScriptOp} (h : decodeOp opcode = some op)
    (stack : List Valtype) : op.sigChecks stack = opcodeSigChecks opcode stack := by
  have hop := decodeOp_matches h
  rw [opcodeSigChecks]
  cases op with
  | stackOp op => cases op <;> simp_all [ScriptOp.matchesOpcode, ScriptOp.sigChecks]
  | _ => simp_all [ScriptOp.matchesOpcode, ScriptOp.sigChecks]

/-- The opcodes that take keys or check signatures stand behind the pushes and the branches. -/
theorem opcode_of_isCheck {opcode : ℕ} (h : isCheckSig opcode = true ∨ isCheckMultiSig opcode = true) :
    opEndIf < opcode := by
  simp only [isCheckSig, isCheckMultiSig, Bool.or_eq_true, beq_iff_eq, opCheckSig,
    opCheckSigVerify, opCheckMultiSig, opCheckMultiSigVerify] at h
  rw [opEndIf]
  omega

end Decode

section Step
variable (env : EvalEnv) (ctx : EvalContext) {s : ℕ}

/-- What the instruction at `pc` counts for: itself unless it is a push, and the keys it takes. -/
def opCost (st : EvalState) : ℕ :=
  match getOp st.pc with
  | none => 0
  | some (opcode,_,_) => (if opcode > op16 then 1 else 0)+
      (if st.fExec then opcodeKeys opcode st.stack else 0)

/-- The most signatures the instruction at `pc` checks. -/
def stepSigChecks (st : EvalState) : ℕ :=
  match getOp st.pc with
  | none => 0
  | some (opcode,_,_) => if st.fExec then opcodeSigChecks opcode st.stack else 0

structure StepSafe (st st' : EvalState) : Prop where
  fits : st.Fits → st'.Fits
  size : st'.stack.length+st'.altstack.length ≤ 1000
  count_eq : st'.nOpCount = st.nOpCount+opCost st
  limit : st.nOpCount ≤ 201 → st'.nOpCount ≤ 201
  next : ∃ opcode data, getOp st.pc = some (opcode,data,st'.pc)

theorem opcodeKeys_of_not_check {opcode : ℕ} (h : opcode ≤ opEndIf) (stack : List Valtype) :
    opcodeKeys opcode stack = 0 := by
  rw [opcodeKeys, if_neg]
  intro hcheck
  exact absurd (opcode_of_isCheck (Or.inr hcheck)) (Nat.not_lt.mpr h)

/-- `OP_IF` to `OP_ENDIF` run in every branch, and neither take keys nor check signatures. -/
theorem op_of_control {opcode : ℕ} {op : ScriptOp} (h : decodeOp opcode = some op)
    (hle : opcode ≤ opEndIf) (stack : List Valtype) : op.keys stack = 0 ∧ op.sigChecks stack = 0 := by
  have hsig : ¬isCheckSig opcode = true := fun hcheck =>
    absurd (opcode_of_isCheck (Or.inl hcheck)) (Nat.not_lt.mpr hle)
  have hmulti : ¬isCheckMultiSig opcode = true := fun hcheck =>
    absurd (opcode_of_isCheck (Or.inr hcheck)) (Nat.not_lt.mpr hle)
  rw [keys_of_decodeOp h, sigChecks_of_decodeOp h, opcodeKeys, opcodeSigChecks, if_neg hsig,
    if_neg hmulti, if_neg hmulti]
  exact ⟨rfl,rfl⟩

theorem executeOpcode_safe (opcode : ℕ) {vchPushValue : Valtype} (st : EvalState)
    (hpush : vchPushValue.length ≤ maxScriptElementSize) :
    wp (executeOpcode env ctx opcode vchPushValue st)
      (fun st' s' => OpSafe st st' (if st.fExec then opcodeKeys opcode st.stack else 0) ∧
        s' ≤ s+(if st.fExec then opcodeSigChecks opcode st.stack else 0))
      (fun e s' => e.Handled ∧
        s' ≤ s+(if st.fExec then opcodeSigChecks opcode st.stack else 0)) s := by
  cases hexec : st.fExec with
  | true =>
    simp only [executeOpcode, hexec, true_and, true_or, if_true]
    rw [wp_ite]
    split_ifs with hle
    · have hkeys : opcodeKeys opcode st.stack = 0 :=
        opcodeKeys_of_not_check (hle.trans (by decide)) _
      rw [wp_pure, hkeys]
      refine ⟨⟨fun hfits _ => ⟨?_,hfits.2⟩,rfl,rfl,id⟩, Nat.le_add_right _ _⟩
      exact (elementsFit_cons _ _).mpr ⟨hpush,hfits.1⟩
    · cases hop : decodeOp opcode with
      | none =>
        rw [wp_throw]
        exact ⟨trivial,Nat.le_add_right _ _⟩
      | some op =>
        rw [← keys_of_decodeOp hop, ← sigChecks_of_decodeOp hop]
        exact evalOp_safe env ctx true st (decodeOp_small hop)
  | false =>
    simp only [executeOpcode, hexec, Bool.false_eq_true, false_and, false_or, if_false]
    rw [wp_ite]
    split_ifs with hcontrol
    · cases hop : decodeOp opcode with
      | none =>
        rw [wp_throw]
        exact ⟨trivial,le_rfl⟩
      | some op =>
        obtain ⟨hkeys,hchecks⟩ := op_of_control hop hcontrol.2 st.stack
        have hsafe := evalOp_safe env ctx (s := s) false st (decodeOp_small hop)
        rwa [hkeys, hchecks] at hsafe
    · rw [wp_pure]
      exact ⟨⟨fun hfits _ => hfits,rfl,rfl,id⟩,le_rfl⟩

/-- One turn of the loop. -/
theorem evalStep_safe (st : EvalState) :
    wp (evalStep env ctx st) (fun st' s' => StepSafe st st' ∧ s' ≤ s+stepSigChecks st)
      (fun e s' => e.Handled ∧ s' ≤ s+stepSigChecks st) s := by
  cases hop : getOp st.pc with
  | none =>
    simp only [evalStep, hop, wp_throw]
    exact ⟨trivial,Nat.le_add_right _ _⟩
  | some instr =>
    obtain ⟨opcode,vchPushValue,next⟩ := instr
    have hreject : EvalError.returnFalse.Handled ∧ s ≤ s+stepSigChecks st :=
      ⟨trivial,Nat.le_add_right _ _⟩
    simp only [evalStep, hop]
    rw [wp_bind, wp_returnFalseIf]
    refine ⟨fun _ => hreject, fun hsize => ?_⟩
    rw [wp_bind, wp_returnFalseIf]
    refine ⟨fun _ => hreject, fun hops => ?_⟩
    rw [wp_bind, wp_returnFalseIf]
    refine ⟨fun _ => hreject, fun _ => ?_⟩
    rw [wp_bind]
    generalize hread : EvalState.mk next st.pbegincodehash st.vfExec st.stack st.altstack
      (if opcode > op16 then st.nOpCount+1 else st.nOpCount) = read
    have hexec : read.fExec = st.fExec := by rw [← hread]; rfl
    have hstack : read.stack = st.stack := by rw [← hread]
    refine wp_mono (executeOpcode_safe env ctx opcode read (Nat.not_lt.mp hsize)) ?_ ?_
    · rintro st' s' ⟨hsafe,hcalls⟩
      rw [hexec, hstack] at hsafe hcalls
      have hcalls' : s' ≤ s+stepSigChecks st := by rwa [stepSigChecks, hop]
      rw [wp_bind, wp_returnFalseIf]
      refine ⟨fun _ => ⟨trivial,hcalls'⟩, fun hlimit => ?_⟩
      rw [wp_pure]
      refine ⟨⟨?_,Nat.not_lt.mp hlimit,?_,?_,opcode,vchPushValue,?_⟩, hcalls'⟩
      · intro hfits
        apply hsafe.fits _ (Nat.not_lt.mp hlimit)
        rw [← hread]
        exact hfits
      · rw [hsafe.count_eq, opCost, hop, ← hread]
        simp only
        split_ifs <;> omega
      · intro hcount
        apply hsafe.limit
        rw [← hread]
        simp only
        split_ifs with hpush
        · rw [if_pos hpush] at hops
          omega
        · exact hcount
      · rw [hsafe.pc_eq, ← hread]
        exact hop
    · rintro e s' ⟨he,hcalls⟩
      rw [hexec, hstack] at hcalls
      refine ⟨he, hcalls.trans (Nat.le_of_eq ?_)⟩
      rw [stepSigChecks, hop]

/-- The states before the turns taken so far, and the state reached by them. -/
inductive EvalReaches (start : EvalState) : List EvalState → EvalState → Prop
  | start : EvalReaches start [] start
  | step {visited : List EvalState} {st st' : EvalState} {s s' : ℕ} (h : EvalReaches start visited st)
      (hmore : st.pc ≠ []) (hstep : (evalStep env ctx st).run.run s = (.ok st',s')) :
      EvalReaches start (visited ++ [st]) st'

variable {env ctx} {start st : EvalState} {visited : List EvalState}

/-- What every turn preserves holds of every state that is reached. -/
theorem EvalReaches.induct {P : EvalState → Prop} (h : EvalReaches env ctx start visited st)
    (h0 : P start) (hstep : ∀ st st', StepSafe st st' → P st → P st') : P st := by
  induction h with
  | start => exact h0
  | step _ _ hrun ih => exact hstep _ _ (post_of_wp (evalStep_safe env ctx _) hrun).1 ih

/-- `nOpCount` counts the operations of the run. -/
theorem EvalReaches.count_eq (h : EvalReaches env ctx start visited st) :
    st.nOpCount = start.nOpCount+(visited.map opCost).sum := by
  induction h with
  | start => simp
  | step _ _ hrun ih =>
    have hsafe := (post_of_wp (evalStep_safe env ctx _) hrun).1
    rw [hsafe.count_eq, ih, List.map_append, List.sum_append, List.map_singleton,
      List.sum_singleton, Nat.add_assoc]

/-- After every operation the two stacks together are within the limit. -/
theorem EvalReaches.size_le (h : EvalReaches env ctx start visited st) (hne : visited ≠ []) :
    st.stack.length+st.altstack.length ≤ 1000 := by
  cases h with
  | start => exact absurd rfl hne
  | step _ _ hrun => exact (post_of_wp (evalStep_safe env ctx _) hrun).1.size

theorem EvalReaches.eq_start (h : EvalReaches env ctx start visited st) (hnil : visited = []) :
    st = start := by
  cases h with
  | start => rfl
  | step _ _ _ => simp at hnil

/-- The fuel is enough: the loop that is not left early ends at the end of the script. -/
theorem evalLoop_reaches (fuel : ℕ) (h : EvalReaches env ctx start visited st)
    (hfuel : st.pc.length ≤ fuel) : wp (evalLoop env ctx fuel st)
      (fun st' _ => st'.pc = [] ∧ ∃ visited', EvalReaches env ctx start visited' st')
      (fun e _ => e.Handled) s := by
  induction fuel generalizing st visited s with
  | zero =>
    rw [evalLoop, wp_pure]
    exact ⟨List.eq_nil_of_length_eq_zero (Nat.le_zero.mp hfuel),visited,h⟩
  | succ fuel ih =>
    rw [evalLoop, wp_ite]
    split_ifs with hpc
    · rw [wp_pure]
      exact ⟨hpc,visited,h⟩
    · rw [wp_bind]
      refine wp_mono (wp_and (evalStep_safe env ctx st) (wp_run _ _)) ?_ fun e s' he => he.1.1
      rintro st' s' ⟨⟨hsafe,-⟩,hrun⟩
      obtain ⟨opcode,data,hop⟩ := hsafe.next
      have hshort := getOp_shortens hop
      exact ih (h.step hpc hrun) (by omega)

end Step

section Script
variable (env : EvalEnv) (ctx : EvalContext) (stack : List Valtype) (script : CScript)

theorem wp_evalBody {s : ℕ} : wp (evalBody env ctx stack script)
    (fun st _ => st.pc = [] ∧ st.vfExec = [] ∧
      ∃ visited, EvalReaches env ctx (.init stack script) visited st)
    (fun e _ => e.Handled) s := by
  rw [evalBody, wp_bind, wp_returnFalseIf]
  refine ⟨fun _ => trivial, fun _ => ?_⟩
  rw [wp_bind]
  refine wp_mono (evalLoop_reaches script.length .start le_rfl) ?_ fun e s' he => he
  rintro st s' ⟨hpc,visited,hreach⟩
  rw [wp_bind, wp_returnFalseIf]
  refine ⟨fun _ => trivial, fun hexec => ?_⟩
  rw [wp_pure]
  exact ⟨hpc,not_not.mp hexec,visited,hreach⟩

theorem wp_evalScript {s : ℕ} {post : Option (List Valtype) → ℕ → Prop}
    {err : EvalError → ℕ → Prop} :
    wp (evalScript env ctx stack script) post err s ↔
      wp (evalBody env ctx stack script) (fun st s' => post (some st.stack) s')
        (fun _ s' => post none s') s := by
  simp only [evalScript, wp_tryCatch, wp_bind, wp_pure]

/-- Every access to the stacks is in range, so that the exception handler is entered only for a
number of more than four bytes; and a script that succeeds has run to its end with every branch
closed, within the limits on operations, stack sizes and element sizes. -/
theorem evalScript_stays_in_range :
    (∀ s e s', (evalBody env ctx stack script).run.run s = (.error e,s') →
      e = .returnFalse ∨ ∃ vch, e = .castOverflow vch ∧ 4 < vch.length) ∧
    (∀ visited st, EvalReaches env ctx (.init stack script) visited st →
      (∀ s e s', (evalStep env ctx st).run.run s = (.error e,s') → e ≠ .outOfRange) ∧
      (visited ≠ [] → st.stack.length+st.altstack.length ≤ 1000) ∧
      (ElementsFit stack → ElementsFit st.stack ∧ ElementsFit st.altstack)) ∧
    ∀ s final s', (evalScript env ctx stack script).run.run s = (.ok (some final),s') →
      ∃ visited st, EvalReaches env ctx (.init stack script) visited st ∧ st.pc = [] ∧
        st.vfExec = [] ∧ st.stack = final ∧ (visited.map opCost).sum ≤ 201 ∧
        (script ≠ [] → ElementsFit stack → ElementsFit final ∧ final.length ≤ 1000) := by
  have hfits : ∀ {visited st}, EvalReaches env ctx (.init stack script) visited st →
      ElementsFit stack → st.Fits := fun hreach hstack =>
    hreach.induct (P := EvalState.Fits) ⟨hstack,elementsFit_nil⟩ fun _ _ hsafe h => hsafe.fits h
  refine ⟨?_, ?_, ?_⟩
  · intro s e s' hrun
    have he := err_of_wp (wp_evalBody env ctx stack script) hrun
    cases e with
    | returnFalse => exact Or.inl rfl
    | outOfRange => exact absurd he not_handled_outOfRange
    | castOverflow vch => exact Or.inr ⟨vch,rfl,he⟩
  · intro visited st hreach
    refine ⟨?_, hreach.size_le, fun hstack => hfits hreach hstack⟩
    rintro s e s' hrun rfl
    exact not_handled_outOfRange (err_of_wp (evalStep_safe env ctx st) hrun).1
  · intro s final s' hrun
    have hwp : wp (evalScript env ctx stack script) (fun r _ => ∀ final, r = some final →
        ∃ visited st, EvalReaches env ctx (.init stack script) visited st ∧ st.pc = [] ∧
          st.vfExec = [] ∧ st.stack = final) (fun _ _ => True) s := by
      rw [wp_evalScript]
      refine wp_mono (wp_evalBody env ctx stack script) ?_ fun _ _ _ _ h => absurd h.symm (by simp)
      rintro st s' ⟨hpc,hexec,visited,hreach⟩ final hfinal
      exact ⟨visited,st,hreach,hpc,hexec,Option.some.inj hfinal⟩
    obtain ⟨visited,st,hreach,hpc,hexec,rfl⟩ := post_of_wp hwp hrun final rfl
    refine ⟨visited,st,hreach,hpc,hexec,rfl,?_,?_⟩
    · have hcount := hreach.count_eq
      have hlimit := hreach.induct (P := fun st => st.nOpCount ≤ 201) (Nat.zero_le _)
        fun _ _ hsafe h => hsafe.limit h
      have hzero : (EvalState.init stack script).nOpCount = 0 := rfl
      omega
    · intro hne hstack
      refine ⟨(hfits hreach hstack).1, ?_⟩
      have hvisited : visited ≠ [] := by
        intro hnil
        rw [hreach.eq_start hnil] at hpc
        exact hne hpc
      exact (Nat.le_add_right _ _).trans (hreach.size_le hvisited)

end Script

section Example

/-- Hashes of zeros and a `CheckSig` that accepts everything. -/
def zeroEnv : EvalEnv :=
  ⟨fun _ => Vector.replicate 20 0, fun _ => Vector.replicate 20 0, fun _ => Vector.replicate 32 0,
    fun _ _ _ _ _ _ _ => true⟩

def emptyContext : EvalContext := ⟨⟨1,[],[],0⟩, 0, ⟨true,false,true⟩, 0⟩

/-- One signature out of two keys. -/
def multiSigScript : CScript := [0x00, 0x01, 0xaa, 0x51, 0x01, 0x03, 0x01, 0x04, 0x52, 0xae]

theorem evalScript_stays_in_range_multiSig :
    ∃ visited st, EvalReaches zeroEnv emptyContext (.init [] multiSigScript) visited st ∧
      st.stack = [[1]] ∧ (visited.map opCost).sum ≤ 201 ∧ ElementsFit [[1]] := by
  obtain ⟨visited,st,hreach,-,-,hstack,hcount,hfits⟩ :=
    (evalScript_stays_in_range zeroEnv emptyContext [] multiSigScript).2.2 0 [[1]] 1 (by rfl)
  exact ⟨visited,st,hreach,hstack,hcount,(hfits (by decide) elementsFit_nil).1⟩

end Example

end Candypool.Script
