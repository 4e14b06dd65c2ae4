import Candypool.Script.Interpreter

/-! Every access of the interpreter to its stacks is in range, and a script that succeeds has kept
to the limits on operations, stack size and element size. -/
namespace Candypool.Script
open Candypool.Prime Candypool.Core Candypool.Lib

/-- The ways out of the loop that are left: `return false` and a number that is too long. -/
def EvalError.Handled : EvalError → Prop
  | .returnFalse => True
  | .outOfRange => False
  | .castOverflow vch => 4 < vch.length

@[simp] theorem handled_returnFalse : EvalError.returnFalse.Handled := trivial

@[simp] theorem not_handled_outOfRange : ¬EvalError.outOfRange.Handled := id

@[simp] theorem handled_castOverflow {vch : Valtype} :
    (EvalError.castOverflow vch).Handled ↔ 4 < vch.length := Iff.rfl

section Primitives
variable {α : Type} {s : ℕ} {err : EvalError → ℕ → Prop}

@[simp] theorem wp_returnFalseIf (c : Prop) [Decidable c] {post : PUnit → ℕ → Prop} :
    wp (returnFalseIf c) post err s ↔ (c → err .returnFalse s) ∧ (¬c → post ⟨⟩ s) := by
  rw [returnFalseIf, wp_ite]
  split_ifs with h <;> simp [h]

@[simp] theorem wp_castToBigNum (vch : Valtype) {post : CBigNum → ℕ → Prop} :
    wp (castToBigNum vch) post err s ↔
      (4 < vch.length → err (.castOverflow vch) s) ∧ (vch.length ≤ 4 → post (setvch vch) s) := by
  rw [castToBigNum, wp_ite, setvch_bnGetvch]
  split_ifs with h
  · simp [h, Nat.not_le.mpr h]
  · simp [h, Nat.not_lt.mp h]

@[simp] theorem stacktop_zero_cons (vch : Valtype) (stack : List Valtype) :
    stacktop (vch :: stack) 1 = pure vch := rfl

@[simp] theorem stacktop_succ_cons (vch : Valtype) (stack : List Valtype) (i : ℕ) :
    stacktop (vch :: stack) (i+2) = stacktop stack (i+1) := rfl

@[simp] theorem popstack_cons (vch : Valtype) (stack : List Valtype) :
    popstack (vch :: stack) = pure stack := rfl

theorem wp_stacktop {stack : List Valtype} {i : ℕ} (h : i < stack.length)
    {post : Valtype → ℕ → Prop} (hpost : post stack[i] s) : wp (stacktop stack (i+1)) post err s := by
  rw [stacktop, List.getElem?_eq_getElem h]
  exact (wp_pure _).mpr hpost

end Primitives

/-- No element is longer than `MAX_SCRIPT_ELEMENT_SIZE`. -/
def ElementsFit (stack : List Valtype) : Prop := ∀ vch ∈ stack, vch.length ≤ maxScriptElementSize

@[simp] theorem elementsFit_nil : ElementsFit [] := fun _ h => absurd h List.not_mem_nil

@[simp] theorem elementsFit_cons (vch : Valtype) (stack : List Valtype) :
    ElementsFit (vch :: stack) ↔ vch.length ≤ maxScriptElementSize ∧ ElementsFit stack :=
  List.forall_mem_cons

theorem ElementsFit.of_subset {stack stack' : List Valtype} (h : ElementsFit stack)
    (hsub : ∀ vch ∈ stack', vch ∈ stack) : ElementsFit stack' := fun vch hvch => h vch (hsub vch hvch)

@[simp] theorem vchBool_fits (fValue : Bool) : (vchBool fValue).length ≤ maxScriptElementSize := by
  cases fValue <;> decide

theorem bnGetvch_fits {bn : ℤ} (h : bn.natAbs < 2^39) :
    (bnGetvch bn).length ≤ maxScriptElementSize :=
  (bnGetvch_length_le (k := 4) h).trans (by decide)

/-- A number of at most four bytes. -/
theorem setvch_natAbs_lt {vch : Valtype} (h : vch.length ≤ 4) : (setvch vch).natAbs < 2^32 := by
  have hlt := littleEndian_lt vch
  have hpow : 256^vch.length ≤ 2^32 := by
    calc 256^vch.length ≤ 256^4 := Nat.pow_le_pow_right (by decide) h
      _ = 2^32 := by decide
  rw [setvch]
  split_ifs
  · rw [Int.natAbs_neg, Int.natAbs_natCast]
    exact (Nat.sub_le _ _).trans_lt (hlt.trans_le hpow)
  · rw [Int.natAbs_natCast]
    exact hlt.trans_le hpow

theorem evalUnary_natAbs_le (bn : ℤ) (op : UnaryOp) : (evalUnary bn op).natAbs ≤ bn.natAbs+1 := by
  cases op <;> simp only [evalUnary] <;> try split_ifs
  all_goals omega

theorem evalBinary_natAbs_le (bn1 bn2 : ℤ) (op : BinaryOp) :
    (evalBinary bn1 bn2 op).natAbs ≤ bn1.natAbs+bn2.natAbs+1 := by
  cases op <;> simp only [evalBinary] <;> try split_ifs
  all_goals omega

theorem bmod_le_self (n m : ℕ) : (n : ℤ).bmod m ≤ n := by
  have hmod : (n : ℤ) % m ≤ n := by
    rw [← Int.natCast_mod]
    exact Int.ofNat_le.mpr (Nat.mod_le n m)
  rw [Int.bmod_def]
  split_ifs
  · exact hmod
  · exact (Int.sub_le_self _ (Int.natCast_nonneg m)).trans hmod

/-- An `int` made from a size is no larger than it. -/
theorem castInt_le (n : ℕ) : castInt n ≤ n := bmod_le_self n (2^32)

theorem wp_verifyTop {s : ℕ} {err : EvalError → ℕ → Prop} (fVerify fValue : Bool) (vch : Valtype)
    (stack : List Valtype) {post : List Valtype → ℕ → Prop} :
    wp (verifyTop fVerify fValue (vch :: stack)) post err s ↔
      (fVerify = false → post (vch :: stack) s) ∧
        (fVerify = true → fValue = false → err .returnFalse s) ∧
        (fVerify = true → fValue = true → post stack s) := by
  cases fVerify <;> cases fValue <;> simp [verifyTop]

section StackOps
variable (env : EvalEnv) {s : ℕ}

/-- What an operation may do: it leaves the count of `CheckSig` alone, and elements that fit stay so
on a stack within the limit. -/
def StackOpSafe (stack : List Valtype) (m : EvalM (List Valtype)) (s : ℕ) : Prop :=
  wp m (fun stack' s' => s' = s ∧ (ElementsFit stack → stack'.length ≤ 1000 → ElementsFit stack'))
    (fun e s' => s' = s ∧ e.Handled) s

theorem evalPick_safe (fRoll : Bool) (stack : List Valtype) :
    StackOpSafe stack (evalStackOp.evalPick fRoll stack) s := by
  unfold StackOpSafe
  rcases stack with _ | ⟨a, rest⟩
  · simp [evalStackOp.evalPick]
  · simp only [evalStackOp.evalPick, wp_bind, wp_returnFalseIf, stacktop_zero_cons, wp_pure,
      wp_castToBigNum, popstack_cons, elementsFit_cons, true_and]
    refine ⟨fun _ => trivial, fun _ => ⟨id, fun _ => ⟨fun _ => trivial, fun hrange => ?_⟩⟩⟩
    generalize bnGetint (setvch a) = n at hrange
    have hn : n.toNat < rest.length := by
      have := castInt_le rest.length
      omega
    apply wp_stacktop hn
    cases fRoll with
    | false =>
      simp only [Bool.false_eq_true, if_false, wp_pure, elementsFit_cons, true_and]
      exact fun hfit _ => ⟨hfit.2 _ (List.getElem_mem hn), hfit.2⟩
    | true =>
      rw [if_pos rfl, wp_bind, eraseTop, if_pos ⟨Nat.le_succ _, hn⟩, wp_pure, wp_pure,
        elementsFit_cons]
      refine ⟨rfl, fun hfit _ => ⟨hfit.2 _ (List.getElem_mem hn), hfit.2.of_subset ?_⟩⟩
      intro vch hvch
      rcases List.mem_append.mp hvch with h | h
      · exact List.mem_of_mem_take h
      · exact List.mem_of_mem_drop h

theorem evalStackOp_safe (stack : List Valtype) {op : StackOp}
    (hop : ∀ n, op = .number n → n.natAbs ≤ 16) : StackOpSafe stack (evalStackOp env stack op) s := by
  unfold StackOpSafe
  cases op with
  | rot2 =>
    rcases stack with _ | ⟨a, _ | ⟨b, _ | ⟨c, _ | ⟨d, _ | ⟨e, _ | ⟨f, rest⟩⟩⟩⟩⟩⟩
    all_goals simp +contextual [evalStackOp, eraseTop]
  | swap2 | over2 =>
    rcases stack with _ | ⟨a, _ | ⟨b, _ | ⟨c, _ | ⟨d, rest⟩⟩⟩⟩
    all_goals simp +contextual [evalStackOp, swapTop]
  | rot | dup3 =>
    rcases stack with _ | ⟨a, _ | ⟨b, _ | ⟨c, rest⟩⟩⟩
    all_goals simp +contextual [evalStackOp, swapTop]
  | drop2 | dup2 | opOver | swap | nip | tuck  =>
    rcases stack with _ | ⟨a, _ | ⟨b, rest⟩⟩
    all_goals simp +contextual [evalStackOp, swapTop, eraseTop, insertTop]
  | drop | dup =>
    rcases stack with _ | ⟨a, rest⟩
    all_goals simp +contextual [evalStackOp]
  | verify | ifDup =>
    rcases stack with _ | ⟨a, rest⟩
    · simp [evalStackOp]
    · cases h : castToBool a
      all_goals simp +contextual [evalStackOp, h]
  | equal fVerify =>
    rcases stack with _ | ⟨a, _ | ⟨b, rest⟩⟩
    all_goals simp +contextual [evalStackOp, wp_verifyTop]
  | number n =>
    have := bnGetvch_fits (lt_of_le_of_lt (hop n rfl) (by decide))
    simp +contextual [evalStackOp, this]
  | depth =>
    simp only [evalStackOp, wp_pure, elementsFit_cons, List.length_cons, true_and]
    intro hfit hlen
    refine ⟨bnGetvch_fits ?_, hfit⟩
    rw [Int.natAbs_natCast]
    omega
  | size =>
    rcases stack with _ | ⟨a, rest⟩
    · simp [evalStackOp]
    · simp only [evalStackOp, wp_bind, wp_returnFalseIf, stacktop_zero_cons, wp_pure, true_and]
      refine ⟨fun _ => trivial, fun _ hfit _ => ?_⟩
      rw [elementsFit_cons] at hfit ⊢
      have ha : a.length ≤ 520 := hfit.1
      refine ⟨bnGetvch_fits ?_, elementsFit_cons _ _ |>.mpr hfit⟩
      rw [Int.natAbs_natCast]
      omega
  | unary op =>
    rcases stack with _ | ⟨a, rest⟩
    · simp [evalStackOp]
    · simp only [evalStackOp, wp_bind, wp_returnFalseIf, stacktop_zero_cons, wp_pure,
        wp_castToBigNum, popstack_cons, elementsFit_cons, true_and]
      refine ⟨fun _ => trivial, fun _ => ⟨id, fun hshort hfit _ =>
        ⟨bnGetvch_fits ?_, hfit.2⟩⟩⟩
      have hbound := evalUnary_natAbs_le (setvch a) op
      have hvalue := setvch_natAbs_lt hshort
      omega
  | binary op fVerify =>
    rcases stack with _ | ⟨a, _ | ⟨b, rest⟩⟩
    · simp [evalStackOp]
    · simp [evalStackOp]
    · simp only [evalStackOp, wp_bind, wp_returnFalseIf, stacktop_zero_cons, stacktop_succ_cons,
        wp_pure, wp_castToBigNum, popstack_cons, elementsFit_cons, wp_verifyTop,
        zero_add, true_and]
      refine ⟨fun _ => trivial, fun _ => ⟨id, fun hb => ⟨id, fun ha =>
        ⟨fun _ hfit _ => ⟨bnGetvch_fits ?_, hfit.2.2⟩, fun _ _ => trivial,
          fun _ _ hfit _ => hfit.2.2⟩⟩⟩⟩
      have hbound := evalBinary_natAbs_le (setvch b) (setvch a) op
      have hvalueA := setvch_natAbs_lt ha
      have hvalueB := setvch_natAbs_lt hb
      omega
  | within =>
    rcases stack with _ | ⟨a, _ | ⟨b, _ | ⟨c, rest⟩⟩⟩
    all_goals simp +contextual [evalStackOp]
  | hash op =>
    rcases stack with _ | ⟨a, rest⟩
    · simp [evalStackOp]
    · have : (evalHash env a op).length ≤ maxScriptElementSize := by
        cases op <;> simp [evalHash, maxScriptElementSize]
      simp +contextual [evalStackOp, this]
  | pick => exact evalPick_safe false stack
  | roll => exact evalPick_safe true stack

end StackOps

section Signatures
variable (env : EvalEnv) (ctx : EvalContext) {s : ℕ}

/-- At most one call of `CheckSig`, and none that fails. -/
theorem wp_checkSigCounted {post : Bool → ℕ → Prop} {err : EvalError → ℕ → Prop}
    (vchSig vchPubKey : Valtype) (scriptCode : CScript)
    (hpost : ∀ fOk s', s ≤ s' → s' ≤ s+1 → post fOk s') :
    wp (checkSigCounted env ctx vchSig vchPubKey scriptCode) post err s := by
  rw [checkSigCounted, wp_ite]
  split_ifs
  · rw [wp_bind, wp_modify, wp_pure]
    exact hpost _ _ (Nat.le_succ s) le_rfl
  · rw [wp_pure]
    exact hpost _ _ le_rfl (Nat.le_succ s)

theorem wp_dropSignatures {post : CScript → ℕ → Prop} {err : EvalError → ℕ → Prop}
    {stack : List Valtype} {isig nSigsCount : ℕ} (scriptCode : CScript)
    (hrange : isig+nSigsCount ≤ stack.length) (hpost : ∀ scriptCode, post scriptCode s) :
    wp (dropSignatures stack (isig+1) nSigsCount scriptCode) post err s := by
  induction nSigsCount generalizing isig scriptCode with
  | zero =>
    rw [dropSignatures, wp_pure]
    exact hpost scriptCode
  | succ nSigsCount ih =>
    rw [dropSignatures, wp_bind]
    apply wp_stacktop (by omega)
    exact ih _ (by omega)

/-- A key is used up by every turn, so there are at most as many calls of `CheckSig` as keys. -/
theorem wp_multiSigLoop {post : Bool → ℕ → Prop} {err : EvalError → ℕ → Prop}
    {stack : List Valtype} {scriptCode : CScript} {isig ikey nSigsCount nKeysCount : ℕ}
    (hcount : nSigsCount ≤ nKeysCount) (hsig : isig+nSigsCount ≤ stack.length)
    (hkey : ikey+nKeysCount ≤ stack.length)
    (hpost : ∀ fSuccess s', s ≤ s' → s' ≤ s+nKeysCount → post fSuccess s') :
    wp (multiSigLoop env ctx stack scriptCode (isig+1) (ikey+1) nSigsCount nKeysCount)
      post err s := by
  induction nKeysCount generalizing isig ikey nSigsCount s with
  | zero =>
    obtain rfl : nSigsCount = 0 := by omega
    rw [multiSigLoop, wp_pure]
    exact hpost true s le_rfl (Nat.le_add_right s 0)
  | succ nKeysCount ih =>
    cases nSigsCount with
    | zero =>
      rw [multiSigLoop, wp_pure]
      exact hpost true s le_rfl (Nat.le_add_right s _)
    | succ nSigsCount =>
      rw [multiSigLoop, wp_bind]
      apply wp_stacktop (by omega)
      rw [wp_bind]
      apply wp_stacktop (by omega)
      rw [wp_bind]
      apply wp_checkSigCounted
      intro fOk s' hle hcalls
      -- a signature that verifies is done with, one that does not stays for the next key
      cases fOk with
      | true =>
        simp only [if_true]
        rw [wp_ite, if_neg (by omega)]
        apply ih (by omega) (by omega) (by omega)
        intro fSuccess s'' hle' hcalls'
        exact hpost _ _ (by omega) (by omega)
      | false =>
        simp only [Bool.false_eq_true, if_false]
        rw [wp_ite]
        split_ifs with hmore
        · rw [wp_pure]
          exact hpost false s' hle (by omega)
        · apply ih (by omega) (by omega) (by omega)
          intro fSuccess s'' hle' hcalls'
          exact hpost _ _ (by omega) (by omega)

theorem popstackTimes_eq {stack : List Valtype} {i : ℕ} (h : i ≤ stack.length) :
    popstackTimes i stack = pure (stack.drop i) := by
  induction i generalizing stack with
  | zero => rfl
  | succ i ih =>
    cases stack with
    | nil => simp at h
    | cons vch stack =>
      rw [popstackTimes, popstack_cons, pure_bind, ih (by simpa using h), List.drop_succ_cons]

end Signatures

section Operations
variable (env : EvalEnv) (ctx : EvalContext) {s : ℕ}

/-- The number of keys `OP_CHECKMULTISIG` takes from the top of the stack. -/
def keysCount : List Valtype → ℕ
  | [] => 0
  | vch :: _ => (bnGetint (setvch vch)).toNat

/-- What an operation adds to `nOpCount` beside its own one. -/
def ScriptOp.keys (stack : List Valtype) : ScriptOp → ℕ
  | .checkMultiSig _ => keysCount stack
  | _ => 0

/-- A bound on the calls of `CheckSig` by an operation. -/
def ScriptOp.sigChecks (stack : List Valtype) : ScriptOp → ℕ
  | .checkSig _ => 1
  | .checkMultiSig _ => min 20 (keysCount stack)
  | _ => 0

/-- The two stacks have elements that fit. -/
def EvalState.Fits (st : EvalState) : Prop := ElementsFit st.stack ∧ ElementsFit st.altstack

structure OpSafe (st st' : EvalState) (keys : ℕ) : Prop where
  fits : st.Fits → st'.stack.length+st'.altstack.length ≤ 1000 → st'.Fits
  pc_eq : st'.pc = st.pc
  count_eq : st'.nOpCount = st.nOpCount+keys
  limit : st.nOpCount ≤ 201 → st'.nOpCount ≤ 201

theorem evalCheckSig_safe (fVerify : Bool) (st : EvalState) :
    wp (evalCheckSig env ctx fVerify st) (fun st' s' => OpSafe st st' 0 ∧ s' ≤ s+1)
      (fun e s' => e.Handled ∧ s' ≤ s+1) s := by
  obtain ⟨pc,pbegincodehash,vfExec,stack,altstack,nOpCount⟩ := st
  rw [evalCheckSig, wp_bind, wp_returnFalseIf]
  refine ⟨fun _ => ⟨trivial,Nat.le_succ s⟩, fun hlen => ?_⟩
  rcases stack with _ | ⟨a, _ | ⟨b, rest⟩⟩
  · simp at hlen
  · simp at hlen
  simp only [stacktop_succ_cons, stacktop_zero_cons, wp_bind, wp_pure, popstack_cons, wp_verifyTop,
    zero_add]
  apply wp_checkSigCounted
  intro fOk s' _ hcalls
  refine ⟨fun _ => ⟨⟨fun hfits _ => ?_,rfl,rfl,id⟩,hcalls⟩, fun _ _ => ⟨trivial,hcalls⟩,
    fun _ _ => ⟨⟨fun hfits _ => ?_,rfl,rfl,id⟩,hcalls⟩⟩
  all_goals obtain ⟨hstack,halt⟩ := hfits
  all_goals simp only [elementsFit_cons] at hstack
  · exact ⟨(elementsFit_cons _ _).mpr ⟨vchBool_fits fOk, hstack.2.2⟩, halt⟩
  · exact ⟨hstack.2.2, halt⟩

theorem evalCheckMultiSig_safe (fVerify : Bool) (st : EvalState) :
    wp (evalCheckMultiSig env ctx fVerify st)
      (fun st' s' => OpSafe st st' (keysCount st.stack) ∧ s' ≤ s+min 20 (keysCount st.stack))
      (fun e s' => e.Handled ∧ s' ≤ s+min 20 (keysCount st.stack)) s := by
  have hsize := castInt_le st.stack.length
  have hreject : EvalError.returnFalse.Handled ∧ s ≤ s+min 20 (keysCount st.stack) :=
    ⟨trivial,Nat.le_add_right _ _⟩
  rw [evalCheckMultiSig]
  dsimp only
  rw [wp_bind, wp_returnFalseIf]
  refine ⟨fun _ => hreject, fun hlen => ?_⟩
  have hne : 0 < st.stack.length := by omega
  obtain ⟨vch,rest,hstack⟩ := List.exists_cons_of_length_pos hne
  have hkeysCount : keysCount st.stack = (bnGetint (setvch vch)).toNat := by rw [hstack, keysCount]
  rw [wp_bind]
  apply wp_stacktop hne
  rw [List.getElem_of_eq hstack, List.getElem_cons_zero, wp_bind, wp_castToBigNum]
  refine ⟨fun hlong => ⟨hlong,Nat.le_add_right _ _⟩, fun _ => ?_⟩
  rw [wp_bind, wp_returnFalseIf]
  refine ⟨fun _ => hreject, fun hkeys => ?_⟩
  rw [wp_bind, wp_returnFalseIf]
  refine ⟨fun _ => hreject, fun hops => ?_⟩
  rw [wp_bind, wp_returnFalseIf]
  refine ⟨fun _ => hreject, fun hi => ?_⟩
  rw [← hkeysCount] at hops hi ⊢
  have hmin : min 20 (keysCount st.stack) = keysCount st.stack := by
    rw [hkeysCount]
    omega
  generalize keysCount st.stack = nKeysCount at *
  rw [hmin] at hreject ⊢
  have hlimit : st.nOpCount+nKeysCount ≤ 201 := Nat.not_lt.mp hops
  have hrange : 1+nKeysCount < st.stack.length := by omega
  rw [wp_bind, show 2+nKeysCount = 1+nKeysCount+1 by omega]
  apply wp_stacktop hrange
  rw [wp_bind, wp_castToBigNum]
  refine ⟨fun hlong => ⟨hlong,Nat.le_add_right _ _⟩, fun _ => ?_⟩
  generalize bnGetint (setvch st.stack[1+nKeysCount]) = nSigs
  rw [wp_bind, wp_returnFalseIf]
  refine ⟨fun _ => hreject, fun hsigs => ?_⟩
  rw [wp_bind, wp_returnFalseIf]
  refine ⟨fun _ => hreject, fun hi => ?_⟩
  have htotal : 1+nKeysCount+1+1+nSigs.toNat ≤ st.stack.length := by omega
  rw [wp_bind]
  apply wp_dropSignatures _ (by omega)
  intro scriptCode
  rw [wp_bind]
  apply wp_multiSigLoop env ctx (by omega) (by omega) (by omega)
  intro fSuccess s' _ hcalls
  rw [wp_bind, popstackTimes_eq htotal, wp_pure, wp_bind, wp_verifyTop]
  have hdrop : ElementsFit st.stack → ElementsFit (st.stack.drop (1+nKeysCount+1+1+nSigs.toNat)) :=
    fun hfit => hfit.of_subset fun vch hvch => List.mem_of_mem_drop hvch
  refine ⟨fun _ => ?_, fun _ _ => ⟨trivial,hcalls⟩, fun _ _ => ?_⟩
  · rw [wp_pure]
    refine ⟨⟨fun hfits _ => ⟨?_,hfits.2⟩,rfl,rfl,fun _ => hlimit⟩, hcalls⟩
    exact (elementsFit_cons _ _).mpr ⟨vchBool_fits fSuccess, hdrop hfits.1⟩
  · rw [wp_pure]
    exact ⟨⟨fun hfits _ => ⟨hdrop hfits.1,hfits.2⟩,rfl,rfl,fun _ => hlimit⟩, hcalls⟩

/-- The numbers the small-number opcodes stand for are small. -/
def ScriptOp.Small (op : ScriptOp) : Prop := ∀ n, op = .stackOp (.number n) → n.natAbs ≤ 16

/-- What an operation does, and how many signatures it checks at most. -/
theorem evalOp_safe (fExec : Bool) (st : EvalState) {op : ScriptOp} (hop : op.Small) :
    wp (evalOp env ctx fExec st op)
      (fun st' s' => OpSafe st st' (op.keys st.stack) ∧ s' ≤ s+op.sigChecks st.stack)
      (fun e s' => e.Handled ∧ s' ≤ s+op.sigChecks st.stack) s := by
  cases op with
  | checkSig fVerify => exact evalCheckSig_safe env ctx fVerify st
  | checkMultiSig fVerify => exact evalCheckMultiSig_safe env ctx fVerify st
  | nop =>
    rw [evalOp, wp_pure]
    exact ⟨⟨fun hfits _ => hfits,rfl,rfl,id⟩,le_rfl⟩
  | codeSeparator =>
    rw [evalOp, wp_pure]
    exact ⟨⟨fun hfits _ => hfits,rfl,rfl,id⟩,le_rfl⟩
  | opReturn =>
    rw [evalOp, wp_throw]
    exact ⟨trivial,le_rfl⟩
  | opElse =>
    cases hexec : st.vfExec with
    | nil =>
      simp only [evalOp, hexec, wp_throw]
      exact ⟨trivial,le_rfl⟩
    | cons fValue vfExec =>
      simp only [evalOp, hexec, wp_pure]
      exact ⟨⟨fun hfits _ => hfits,rfl,rfl,id⟩,le_rfl⟩
  | opEndIf =>
    cases hexec : st.vfExec with
    | nil =>
      simp only [evalOp, hexec, wp_throw]
      exact ⟨trivial,le_rfl⟩
    | cons fValue vfExec =>
      simp only [evalOp, hexec, wp_pure]
      exact ⟨⟨fun hfits _ => hfits,rfl,rfl,id⟩,le_rfl⟩
  | opIf fNot =>
    cases fExec with
    | false =>
      simp only [evalOp, Bool.false_eq_true, if_false, wp_pure]
      exact ⟨⟨fun hfits _ => hfits,rfl,rfl,id⟩,le_rfl⟩
    | true =>
      simp only [evalOp, if_true, wp_bind, wp_returnFalseIf]
      refine ⟨fun _ => ⟨trivial,le_rfl⟩, fun hlen => ?_⟩
      obtain ⟨vch,rest,hstack⟩ := List.exists_cons_of_length_pos (Nat.not_lt.mp hlen)
      simp only [hstack, stacktop_zero_cons, popstack_cons, wp_pure]
      refine ⟨⟨fun hfits _ => ⟨?_,hfits.2⟩,rfl,rfl,id⟩,le_rfl⟩
      exact ((elementsFit_cons _ _).mp (hstack ▸ hfits.1)).2
  | toAltStack =>
    simp only [evalOp, wp_bind, wp_returnFalseIf]
    refine ⟨fun _ => ⟨trivial,le_rfl⟩, fun hlen => ?_⟩
    obtain ⟨vch,rest,hstack⟩ := List.exists_cons_of_length_pos (Nat.not_lt.mp hlen)
    simp only [hstack, stacktop_zero_cons, popstack_cons, wp_pure]
    refine ⟨⟨fun hfits _ => ?_,rfl,rfl,id⟩,le_rfl⟩
    have htop := (elementsFit_cons _ _).mp (hstack ▸ hfits.1)
    exact ⟨htop.2, (elementsFit_cons _ _).mpr ⟨htop.1,hfits.2⟩⟩
  | fromAltStack =>
    simp only [evalOp, wp_bind, wp_returnFalseIf]
    refine ⟨fun _ => ⟨trivial,le_rfl⟩, fun hlen => ?_⟩
    obtain ⟨vch,rest,hstack⟩ := List.exists_cons_of_length_pos (Nat.not_lt.mp hlen)
    simp only [hstack, stacktop_zero_cons, popstack_cons, wp_pure]
    refine ⟨⟨fun hfits _ => ?_,rfl,rfl,id⟩,le_rfl⟩
    have htop := (elementsFit_cons _ _).mp (hstack ▸ hfits.2)
    exact ⟨(elementsFit_cons _ _).mpr ⟨htop.1,hfits.1⟩, htop.2⟩
  | stackOp op =>
    rw [evalOp, wp_bind]
    refine wp_mono (evalStackOp_safe env st.stack fun n hn => hop n (hn ▸ rfl)) ?_ ?_
    · rintro stack s' ⟨rfl,hfit⟩
      rw [wp_pure]
      refine ⟨⟨fun hfits hlen => ⟨hfit hfits.1 ?_,hfits.2⟩,rfl,rfl,id⟩,le_rfl⟩
      exact (Nat.le_add_right _ _).trans hlen
    · rintro e s' ⟨rfl,he⟩
      exact ⟨he,le_rfl⟩

end Operations

end Candypool.Script
