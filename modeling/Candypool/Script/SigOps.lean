import Candypool.Script.Limits

/-! `VerifyScript`, and the count of signature operations as a bound on the signatures it checks:
the count walks the bytes that the interpreter walks, and the number before an executed
`OP_CHECKMULTISIG` is the number of keys it takes. -/
namespace Candypool.Script
open Candypool.Prime Candypool.Core Candypool.Lib

/-- The loop of `IsPushOnly`. -/
def isPushOnlyLoop : ℕ → CScript → Bool
  | 0, _ => true
  | fuel+1, pc =>
    if pc = [] then true
    else match getOp pc with
      | none => false
      | some (opcode,_,pc) => if opcode > op16 then false else isPushOnlyLoop fuel pc

def isPushOnly (script : CScript) : Bool := isPushOnlyLoop script.length script

section Verify
variable (env : EvalEnv) (ctx : EvalContext)

/-- The script that a pay-to-script-hash input carries, on the rest of the stack its `scriptSig`
left. The assertion that this stack is not empty stands for an access out of range. -/
def verifyPayToScriptHash : List Valtype → EvalM Bool
  | [] => throw .outOfRange
  | pubKeySerialized :: stackCopy => do
    match ← evalScript env ctx stackCopy pubKeySerialized with
    | none => return false
    | some stackCopy => return castToBool (stackCopy.headD [])

def verifyScript (scriptSig scriptPubKey : CScript) : EvalM Bool := do
  match ← evalScript env ctx [] scriptSig with
  | none => return false
  | some stackCopy =>
    match ← evalScript env ctx stackCopy scriptPubKey with
    | none => return false
    | some [] => return false
    | some (vch :: _) =>
      if castToBool vch = false then return false
      else if ctx.flags.p2sh && isPayToScriptHash scriptPubKey then
        if isPushOnly scriptSig then verifyPayToScriptHash env ctx stackCopy else return false
      else return true

end Verify

section Count

/-- What `GetSigOpCount` adds for an opcode. -/
def sigOpsOf (fAccurate : Bool) (opcode lastOpcode : ℕ) : ℕ :=
  if isCheckSig opcode then 1
  else if isCheckMultiSig opcode then
    if fAccurate = true ∧ op1 ≤ lastOpcode ∧ lastOpcode ≤ op16 then lastOpcode-(op1-1) else 20
  else 0

theorem sigOpLoop_succ (fAccurate : Bool) (fuel : ℕ) (pc : CScript) (lastOpcode : ℕ) :
    sigOpLoop fAccurate (fuel+1) pc lastOpcode = (match getOp pc with
      | none => 0
      | some (opcode,_,next) =>
        sigOpsOf fAccurate opcode lastOpcode+sigOpLoop fAccurate fuel next opcode) := by
  rw [sigOpLoop]
  cases getOp pc with
  | none => rfl
  | some instr =>
    simp only [sigOpsOf, isCheckSig, isCheckMultiSig, Bool.or_eq_true, beq_iff_eq]

theorem sigOpsOf_accurate_le (opcode lastOpcode : ℕ) :
    sigOpsOf true opcode lastOpcode ≤ sigOpsOf false opcode lastOpcode := by
  simp only [sigOpsOf, op1, op16, Bool.false_eq_true, false_and, if_false, true_and]
  split_ifs <;> omega

/-- The accurate count is never above the one that takes every multisig for 20 keys. -/
theorem getSigOpCount_accurate_le (script : CScript) :
    getSigOpCount script true ≤ getSigOpCount script false := by
  have hloop : ∀ fuel pc lastOpcode,
      sigOpLoop true fuel pc lastOpcode ≤ sigOpLoop false fuel pc lastOpcode := by
    intro fuel
    induction fuel with
    | zero => exact fun _ _ => le_rfl
    | succ fuel ih =>
      intro pc lastOpcode
      rw [sigOpLoop_succ, sigOpLoop_succ]
      cases getOp pc with
      | none => exact le_rfl
      | some instr => exact Nat.add_le_add (sigOpsOf_accurate_le _ _) (ih _ _)
  exact hloop _ _ _

/-- No instruction counts for more than 20, so that the counter stays far below `2^32` for every
script that can be read from a stream. -/
theorem getSigOpCount_le (script : CScript) (fAccurate : Bool) :
    getSigOpCount script fAccurate ≤ 20*script.length := by
  have hop : ∀ opcode lastOpcode, sigOpsOf fAccurate opcode lastOpcode ≤ 20 := by
    intro opcode lastOpcode
    rw [sigOpsOf]
    split_ifs with hsig hmulti hnumber
    · decide
    · have := hnumber.2.2
      simp only [op1, op16] at this ⊢
      omega
    · decide
    · decide
  have hloop : ∀ fuel pc lastOpcode, sigOpLoop fAccurate fuel pc lastOpcode ≤ 20*fuel := by
    intro fuel
    induction fuel with
    | zero => exact fun _ _ => le_rfl
    | succ fuel ih =>
      intro pc lastOpcode
      rw [sigOpLoop_succ]
      cases getOp pc with
      | none => exact Nat.zero_le _
      | some instr =>
        have hfirst := hop instr.1 lastOpcode
        have hrest := ih instr.2.2 instr.1
        exact (Nat.add_le_add hfirst hrest).trans (by omega)
  exact hloop _ _ _

end Count

section Step
variable {env : EvalEnv} {ctx : EvalContext} {s : ℕ}

/-- After a small number in an executed branch, that number is on top of the stack. -/
def LastNumber (lastOpcode : ℕ) (st : EvalState) : Prop :=
  st.fExec = true → op1 ≤ lastOpcode → lastOpcode ≤ op16 →
    ∃ rest, st.stack = bnGetvch ((lastOpcode : ℤ)-(op1-1)) :: rest

theorem decodeOp_number {opcode : ℕ} (hlo : op1 ≤ opcode) (hhi : opcode ≤ op16) :
    decodeOp opcode = some (.stackOp (.number ((opcode : ℤ)-(op1-1)))) :=
  if_pos (Or.inr ⟨hlo,hhi⟩)

theorem executeOpcode_lastNumber (opcode : ℕ) (vchPushValue : Valtype) (st : EvalState) :
    wp (executeOpcode env ctx opcode vchPushValue st) (fun st' _ => LastNumber opcode st')
      (fun _ _ => True) s := by
  by_cases hrange : op1 ≤ opcode ∧ opcode ≤ op16
  · have hnopush : ¬opcode ≤ opPushData4 := by
      rw [op1] at hrange
      rw [opPushData4]
      omega
    have hnocontrol : ¬(opIf ≤ opcode ∧ opcode ≤ opEndIf) := by
      rw [op16] at hrange
      rw [opIf]
      omega
    cases hexec : st.fExec with
    | true =>
      simp only [executeOpcode, hexec, hnopush, and_false, if_false, true_or, if_true,
        decodeOp_number hrange.1 hrange.2, evalOp, evalStackOp, wp_bind, wp_pure]
      exact fun _ _ _ => ⟨st.stack,rfl⟩
    | false =>
      simp only [executeOpcode, hexec, Bool.false_eq_true, false_and, false_or, if_false, hnocontrol,
        wp_pure]
      exact fun h => absurd (hexec.symm.trans h) (by decide)
  · refine wp_mono (wp_run _ _) ?_ fun _ _ _ => trivial
    exact fun st' _ _ _ hlo hhi => absurd ⟨hlo,hhi⟩ hrange

/-- What the operation of a turn leaves is what the turn leaves. -/
theorem wp_evalStep {post : EvalState → Prop} {st : EvalState} {opcode : ℕ} {vchPushValue : Valtype}
    {next : CScript} (hop : getOp st.pc = some (opcode,vchPushValue,next))
    (hexecute : ∀ st', st'.vfExec = st.vfExec →
      wp (executeOpcode env ctx opcode vchPushValue st') (fun st' _ => post st')
        (fun _ _ => True) s) :
    wp (evalStep env ctx st) (fun st' _ => post st') (fun _ _ => True) s := by
  simp only [evalStep, hop]
  rw [wp_bind, wp_returnFalseIf]
  refine ⟨fun _ => trivial, fun _ => ?_⟩
  rw [wp_bind, wp_returnFalseIf]
  refine ⟨fun _ => trivial, fun _ => ?_⟩
  rw [wp_bind, wp_returnFalseIf]
  refine ⟨fun _ => trivial, fun _ => ?_⟩
  rw [wp_bind]
  refine wp_mono (hexecute _ rfl) ?_ fun _ _ _ => trivial
  intro st' s' hpost
  rw [wp_bind, wp_returnFalseIf]
  refine ⟨fun _ => trivial, fun _ => ?_⟩
  rw [wp_pure]
  exact hpost

theorem evalStep_lastNumber {st : EvalState} {opcode : ℕ} {vchPushValue : Valtype} {next : CScript}
    (hop : getOp st.pc = some (opcode,vchPushValue,next)) :
    wp (evalStep env ctx st) (fun st' _ => LastNumber opcode st') (fun _ _ => True) s := by
  apply wp_evalStep hop
  intro st' _
  exact executeOpcode_lastNumber opcode vchPushValue st'

theorem keysCount_number {n : ℕ} (hn : n ≤ 16) (rest : List Valtype) :
    keysCount (bnGetvch n :: rest) = n := by
  have hint : ¬(n : ℤ) > 2^31-1 := by omega
  rw [keysCount, setvch_bnGetvch, bnGetint, if_pos (Int.natCast_nonneg n), if_neg hint,
    Int.toNat_natCast]

/-- An instruction checks no more signatures than it is counted for. -/
theorem stepSigChecks_le {st : EvalState} {opcode lastOpcode : ℕ} {vchPushValue : Valtype}
    {next : CScript} (hop : getOp st.pc = some (opcode,vchPushValue,next))
    (hlast : LastNumber lastOpcode st) : stepSigChecks st ≤ sigOpsOf true opcode lastOpcode := by
  simp only [stepSigChecks, hop]
  split_ifs with hexec
  · rw [opcodeSigChecks, sigOpsOf]
    split_ifs with hsig hmulti hnumber
    · exact le_rfl
    · obtain ⟨rest,hstack⟩ := hlast hexec hnumber.2.1 hnumber.2.2
      have hcast : (lastOpcode : ℤ)-(op1-1) = ((lastOpcode-(op1-1) : ℕ) : ℤ) := by
        have := hnumber.2.1
        simp only [op1] at this ⊢
        omega
      have hsmall : lastOpcode-(op1-1) ≤ 16 := by
        have := hnumber.2.2
        simp only [op1, op16] at this ⊢
        omega
      rw [hstack, hcast, keysCount_number hsmall]
      exact Nat.min_le_right _ _
    · exact Nat.min_le_left _ _
    · exact le_rfl
  · exact Nat.zero_le _

/-- The loop checks no more signatures than are counted in what is left of the script. -/
theorem evalLoop_sigOps (fuel : ℕ) {st : EvalState} {lastOpcode : ℕ}
    (hlast : LastNumber lastOpcode st) :
    wp (evalLoop env ctx fuel st) (fun _ s' => s' ≤ s+sigOpLoop true fuel st.pc lastOpcode)
      (fun _ s' => s' ≤ s+sigOpLoop true fuel st.pc lastOpcode) s := by
  induction fuel generalizing st lastOpcode s with
  | zero =>
    rw [evalLoop, wp_pure]
    exact Nat.le_add_right _ _
  | succ fuel ih =>
    rw [evalLoop, wp_ite]
    split_ifs with hpc
    · rw [wp_pure]
      exact Nat.le_add_right _ _
    · rw [wp_bind, sigOpLoop_succ]
      cases hop : getOp st.pc with
      | none =>
        simp only [evalStep, hop, wp_throw]
        exact Nat.le_add_right _ _
      | some instr =>
        obtain ⟨opcode,vchPushValue,next⟩ := instr
        have hchecks := stepSigChecks_le hop hlast
        refine wp_mono (wp_and (evalStep_safe env ctx st) (evalStep_lastNumber hop)) ?_ ?_
        · rintro st' s' ⟨⟨hsafe,hcalls⟩,hlast'⟩
          obtain ⟨_,_,hnext⟩ := hsafe.next
          have hpc' : next = st'.pc := by
            rw [hop] at hnext
            exact (Prod.mk.inj (Prod.mk.inj (Option.some.inj hnext)).2).2
          dsimp only
          rw [hpc']
          have htotal : ∀ s'', s'' ≤ s'+sigOpLoop true fuel st'.pc opcode →
              s'' ≤ s+(sigOpsOf true opcode lastOpcode+sigOpLoop true fuel st'.pc opcode) := by
            intro s'' hcalls'
            rw [← Nat.add_assoc]
            exact hcalls'.trans (Nat.add_le_add_right (hcalls.trans
              (Nat.add_le_add_left hchecks s)) _)
          exact wp_mono (ih hlast') (fun _ => htotal) fun _ => htotal
        · rintro e s' ⟨⟨-,hcalls⟩,-⟩
          simp only
          omega

theorem evalScript_sigOps (stack : List Valtype) (script : CScript) :
    wp (evalScript env ctx stack script) (fun _ s' => s' ≤ s+getSigOpCount script true)
      (fun _ _ => False) s := by
  rw [wp_evalScript, evalBody, wp_bind, wp_returnFalseIf]
  refine ⟨fun _ => Nat.le_add_right _ _, fun _ => ?_⟩
  have hlast : LastNumber opInvalidOpcode (.init stack script) := by
    intro _ _ hle
    exact absurd hle (by decide)
  rw [wp_bind]
  refine wp_mono (evalLoop_sigOps script.length hlast) ?_ fun _ _ hcalls => hcalls
  intro st s' hcalls
  rw [wp_bind, wp_returnFalseIf]
  refine ⟨fun _ => hcalls, fun _ => ?_⟩
  rw [wp_pure]
  exact hcalls

end Step

section PushOnly
variable {env : EvalEnv} {ctx : EvalContext} {s : ℕ}

/-- The top of the stack is the data of the last push, or the number of a small-number opcode. -/
def TopIsPush (data : Valtype) (stack : List Valtype) : Prop :=
  ∀ vch rest, stack = vch :: rest → vch = data ∨ ∃ n : ℤ, n.natAbs ≤ 16 ∧ vch = bnGetvch n

/-- A small number as a script has no signature to check. -/
theorem getSigOpCount_small {n : ℤ} (hn : n.natAbs ≤ 16) : getSigOpCount (bnGetvch n) true = 0 := by
  have hall : ∀ k ∈ List.range 33, getSigOpCount (bnGetvch ((k : ℤ)-16)) true = 0 := by
    decide +kernel
  have hmem : (n+16).toNat ∈ List.range 33 := List.mem_range.mpr (by omega)
  have hn' : (((n+16).toNat : ℕ) : ℤ)-16 = n := by omega
  rw [← hn']
  exact hall _ hmem

theorem executeOpcode_push {opcode : ℕ} {vchPushValue : Valtype} {st : EvalState}
    (hexec : st.vfExec = []) (hle : opcode ≤ op16) :
    wp (executeOpcode env ctx opcode vchPushValue st)
      (fun st' _ => st'.vfExec = [] ∧ TopIsPush vchPushValue st'.stack) (fun _ _ => True) s := by
  have hfExec : st.fExec = true := by
    rw [EvalState.fExec, hexec]
    rfl
  simp only [executeOpcode, hfExec, true_and, true_or, if_true]
  rw [wp_ite]
  split_ifs with hpush
  · rw [wp_pure]
    refine ⟨hexec, fun vch rest hstack => Or.inl ?_⟩
    exact (List.cons.inj hstack).1.symm
  · by_cases hnumber : opcode = op1Negate ∨ (op1 ≤ opcode ∧ opcode ≤ op16)
    · have hop : decodeOp opcode = some (.stackOp (.number ((opcode : ℤ)-(op1-1)))) := if_pos hnumber
      simp only [hop, evalOp, evalStackOp, wp_bind, wp_pure]
      refine ⟨hexec, fun vch rest hstack => Or.inr ⟨_,decodeOp_small hop _ rfl,?_⟩⟩
      exact (List.cons.inj hstack).1.symm
    · -- `OP_RESERVED` is the one opcode between
      have hreserved : opcode = 0x50 := by
        simp only [op1Negate, op1, op16, opPushData4] at hnumber hle hpush
        omega
      have hop : decodeOp opcode = none := by
        rw [hreserved]
        decide
      simp only [hop, wp_throw]

theorem evalStep_push {st : EvalState} {opcode : ℕ} {vchPushValue : Valtype} {next : CScript}
    (hop : getOp st.pc = some (opcode,vchPushValue,next)) (hexec : st.vfExec = [])
    (hle : opcode ≤ op16) :
    wp (evalStep env ctx st) (fun st' _ => st'.vfExec = [] ∧ TopIsPush vchPushValue st'.stack)
      (fun _ _ => True) s := by
  apply wp_evalStep hop
  intro st' hsame
  exact executeOpcode_push (hsame.trans hexec) hle

/-- What a script of pushes leaves on top of the stack is what the count takes for the script that
is hashed. -/
theorem evalLoop_pushOnly (fuel : ℕ) {st : EvalState} {data : Valtype}
    (hpushes : isPushOnlyLoop fuel st.pc = true) (hexec : st.vfExec = [])
    (htop : TopIsPush data st.stack) :
    wp (evalLoop env ctx fuel st)
      (fun st' _ => ∃ data', lastPush fuel st.pc data = some data' ∧ TopIsPush data' st'.stack)
      (fun _ _ => True) s := by
  induction fuel generalizing st data s with
  | zero =>
    rw [evalLoop, wp_pure]
    exact ⟨data,rfl,htop⟩
  | succ fuel ih =>
    rw [isPushOnlyLoop] at hpushes
    rw [evalLoop, wp_ite]
    split_ifs at hpushes ⊢ with hpc
    · rw [wp_pure]
      exact ⟨data,if_pos hpc,htop⟩
    · cases hop : getOp st.pc with
      | none => simp [hop] at hpushes
      | some instr =>
        obtain ⟨opcode,vchPushValue,next⟩ := instr
        simp only [hop] at hpushes
        split_ifs at hpushes with hbig
        have hle : opcode ≤ op16 := Nat.not_lt.mp hbig
        rw [wp_bind]
        refine wp_mono (wp_and (evalStep_safe env ctx st) (evalStep_push hop hexec hle)) ?_
          fun _ _ _ => trivial
        rintro st' s' ⟨⟨hsafe,-⟩,hexec',htop'⟩
        obtain ⟨_,_,hnext⟩ := hsafe.next
        have hpc' : next = st'.pc := by
          rw [hop] at hnext
          exact (Prod.mk.inj (Prod.mk.inj (Option.some.inj hnext)).2).2
        rw [hpc'] at hpushes
        refine wp_mono (ih hpushes hexec' htop') ?_ fun _ _ _ => trivial
        rintro st'' s'' ⟨data',hlast,hdata⟩
        refine ⟨data', ?_, hdata⟩
        rw [lastPush, if_neg hpc, hop]
        simpa [hbig, hpc'] using hlast

/-- What a `scriptSig` of pushes leaves for the script that is hashed. -/
theorem evalScript_pushOnly {script : CScript} (hpushes : isPushOnly script = true) :
    wp (evalScript env ctx [] script)
      (fun r _ => ∀ stack, r = some stack → ∃ data,
        lastPush script.length script [] = some data ∧ TopIsPush data stack)
      (fun _ _ => True) s := by
  have hnone : ∀ stack : List Valtype, none = some stack → ∃ data,
      lastPush script.length script [] = some data ∧ TopIsPush data stack := by simp
  rw [wp_evalScript, evalBody, wp_bind, wp_returnFalseIf]
  refine ⟨fun _ => hnone, fun _ => ?_⟩
  have htop : TopIsPush [] (EvalState.init [] script).stack := by
    intro vch rest hstack
    cases hstack
  rw [wp_bind]
  refine wp_mono (evalLoop_pushOnly script.length hpushes rfl htop) ?_ fun _ _ _ => hnone
  rintro st s' ⟨data,hlast,hdata⟩
  rw [wp_bind, wp_returnFalseIf]
  refine ⟨fun _ => hnone, fun _ => ?_⟩
  rw [wp_pure]
  rintro stack hstack
  rw [← Option.some.inj hstack]
  exact ⟨data,hlast,hdata⟩

end PushOnly

section VerifyScript
variable (env : EvalEnv) (ctx : EvalContext)

/-- The script that is hashed has as many operations as `GetSigOpCount(scriptSig)` counts. -/
theorem wp_verifyPayToScriptHash {s : ℕ} {scriptPubKey scriptSig : CScript} {stackCopy : List Valtype}
    {data : Valtype} (hp2sh : isPayToScriptHash scriptPubKey = true)
    (hlast : lastPush scriptSig.length scriptSig [] = some data) (htop : TopIsPush data stackCopy) :
    wp (verifyPayToScriptHash env ctx stackCopy)
      (fun _ s' => s' ≤ s+getSigOpCountP2SH scriptPubKey scriptSig)
      (fun _ s' => s' ≤ s+getSigOpCountP2SH scriptPubKey scriptSig) s := by
  cases stackCopy with
  | nil =>
    rw [verifyPayToScriptHash, wp_throw]
    exact Nat.le_add_right _ _
  | cons pubKeySerialized stackCopy =>
    have hcount : getSigOpCount pubKeySerialized true ≤ getSigOpCountP2SH scriptPubKey scriptSig := by
      simp only [getSigOpCountP2SH, hp2sh, hlast, Bool.not_true, Bool.false_eq_true, if_false]
      obtain rfl | ⟨n,hn,rfl⟩ := htop _ _ rfl
      · exact le_rfl
      · rw [getSigOpCount_small hn]
        exact Nat.zero_le _
    rw [verifyPayToScriptHash, wp_bind]
    refine wp_mono (evalScript_sigOps stackCopy pubKeySerialized) ?_ fun _ _ h => h.elim
    intro r s' hcalls
    have hcalls' := hcalls.trans (Nat.add_le_add_left hcount s)
    cases r with
    | none =>
      rw [wp_pure]
      exact hcalls'
    | some stack =>
      rw [wp_pure]
      exact hcalls'

/-- No input costs more signature checks than are counted for it, and the count that looks at the
number before a multisig is never above the one that does not. -/
theorem sigOpCount_bounds_checks :
    (∀ scriptSig scriptPubKey : CScript, ((verifyScript env ctx scriptSig scriptPubKey).run.run 0).2 ≤
      getSigOpCount scriptSig true+getSigOpCount scriptPubKey true+
        (if ctx.flags.p2sh && isPayToScriptHash scriptPubKey then
          getSigOpCountP2SH scriptPubKey scriptSig else 0)) ∧
    ∀ script : CScript, getSigOpCount script true ≤ getSigOpCount script false := by
  refine ⟨fun scriptSig scriptPubKey => ?_, getSigOpCount_accurate_le⟩
  generalize hbound : getSigOpCount scriptSig true+getSigOpCount scriptPubKey true+
    (if ctx.flags.p2sh && isPayToScriptHash scriptPubKey then
      getSigOpCountP2SH scriptPubKey scriptSig else 0) = bound
  apply state_of_wp (I := fun calls => calls ≤ bound)
  have hpush : wp (evalScript env ctx [] scriptSig)
      (fun r _ => isPushOnly scriptSig = true → ∀ stack, r = some stack → ∃ data,
        lastPush scriptSig.length scriptSig [] = some data ∧ TopIsPush data stack)
      (fun _ _ => True) 0 := by
    by_cases hpushes : isPushOnly scriptSig = true
    · exact wp_mono (evalScript_pushOnly hpushes) (fun _ _ h _ => h) fun _ _ _ => trivial
    · exact wp_mono (wp_run _ _) (fun _ _ _ h => absurd h hpushes) fun _ _ _ => trivial
  rw [verifyScript, wp_bind]
  refine wp_mono (wp_and (evalScript_sigOps [] scriptSig) hpush) ?_ fun _ _ h => h.1.elim
  rintro r s' ⟨hsig,hdata⟩
  cases r with
  | none =>
    rw [wp_pure]
    omega
  | some stackCopy =>
    rw [wp_bind]
    refine wp_mono (evalScript_sigOps stackCopy scriptPubKey) ?_ fun _ _ h => h.elim
    intro r s'' hpubkey
    have hcalls : s'' ≤ getSigOpCount scriptSig true+getSigOpCount scriptPubKey true := by omega
    have hdone : s'' ≤ bound := hcalls.trans (hbound ▸ Nat.le_add_right _ _)
    cases r with
    | none =>
      rw [wp_pure]
      exact hdone
    | some stack =>
      cases stack with
      | nil =>
        rw [wp_pure]
        exact hdone
      | cons vch rest =>
        simp only [wp_ite, wp_pure]
        split_ifs with hfalse hp2sh hpushes
        · exact hdone
        · -- the script that is hashed is run as well
          obtain ⟨data,hlast,htop⟩ := hdata hpushes stackCopy rfl
          rw [if_pos hp2sh] at hbound
          have hcount := wp_verifyPayToScriptHash env ctx (s := s'') (Bool.and_eq_true_iff.mp hp2sh).2
            hlast htop
          have htotal : ∀ calls, calls ≤ s''+getSigOpCountP2SH scriptPubKey scriptSig →
              calls ≤ bound := by
            intro calls hle
            omega
          exact wp_mono hcount (fun _ => htotal) fun _ => htotal
        · exact hdone
        · exact hdone

end VerifyScript

end Candypool.Script
