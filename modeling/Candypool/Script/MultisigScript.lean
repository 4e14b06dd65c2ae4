import Candypool.Script.Builder
import Candypool.Script.MultiSig
import Candypool.Script.Solver

/-! The multisig scripts that `Solver` knows: the instructions they consist of, and what their run
leaves on the stack. -/
namespace Candypool.Script
open Candypool.Prime Candypool.Core Candypool.Lib

section Reads

/-- `GetOp` reads the instructions one after the other and leaves the rest. -/
inductive ReadsTo : CScript → List (ℕ × Valtype) → CScript → Prop
  | nil (pc : CScript) : ReadsTo pc [] pc
  | cons {pc next rest : CScript} {opcode : ℕ} {data : Valtype} {ops : List (ℕ × Valtype)} :
    getOp pc = some (opcode,data,next) → ReadsTo next ops rest → ReadsTo pc ((opcode,data) :: ops) rest

variable {pc next rest : CScript} {opcode : ℕ} {data : Valtype} {ops ops' : List (ℕ × Valtype)}

theorem ReadsTo.append (h : ReadsTo pc ops next) (h' : ReadsTo next ops' rest) :
    ReadsTo pc (ops ++ ops') rest := by
  induction h with
  | nil => exact h'
  | cons hop _ ih => exact .cons hop (ih h')

theorem ReadsTo.single (hop : getOp pc = some (opcode,data,next)) : ReadsTo pc [(opcode,data)] next :=
  .cons hop (.nil next)

theorem operandOf_eq_some {opcode' sizeLength : ℕ} {bytes : CScript}
    (h : operandOf opcode' sizeLength bytes = some (opcode,data,next)) :
    opcode = opcode' ∧ bytes.length = sizeLength+data.length+next.length := by
  rw [operandOf] at h
  dsimp only at h
  generalize (if opcode' < opPushData1 then opcode' else littleEndian (bytes.take sizeLength)) = nSize at h
  split_ifs at h with hshort hcut
  simp only [Option.some.injEq, Prod.mk.injEq] at h
  obtain ⟨rfl,rfl,rfl⟩ := h
  refine ⟨rfl, ?_⟩
  simp only [List.length_take, List.length_drop]
  omega

/-- Only the opcodes of pushes have data, and beside it an instruction takes five bytes at most. -/
theorem getOp_bounds (h : getOp pc = some (opcode,data,next)) :
    (opcode ≤ opPushData4 ∨ data = []) ∧ pc.length ≤ next.length+data.length+5 := by
  cases pc with
  | nil => simp [getOp] at h
  | cons b bytes =>
    rw [getOp_cons] at h
    rw [List.length_cons]
    by_cases hpush : b.toNat ≤ opPushData4
    · rw [if_pos hpush] at h
      obtain ⟨rfl,hlen⟩ := operandOf_eq_some h
      refine ⟨Or.inl hpush, ?_⟩
      split_ifs at hlen <;> omega
    · rw [if_neg hpush] at h
      simp only [Option.some.injEq, Prod.mk.injEq] at h
      obtain ⟨rfl,rfl,rfl⟩ := h
      exact ⟨Or.inr rfl, by omega⟩

theorem ReadsTo.split (h : ReadsTo pc (ops ++ ops') rest) :
    ∃ next, ReadsTo pc ops next ∧ ReadsTo next ops' rest := by
  induction ops generalizing pc with
  | nil => exact ⟨pc, .nil pc, h⟩
  | cons op ops ih =>
    cases h with
    | cons hop htail =>
      obtain ⟨next,hfront,hback⟩ := ih htail
      exact ⟨next, .cons hop hfront, hback⟩

theorem ReadsTo.bounds (h : ReadsTo pc ops rest) {op : ℕ × Valtype} (hmem : op ∈ ops) :
    op.1 ≤ opPushData4 ∨ op.2 = [] := by
  induction h with
  | nil => cases hmem
  | cons hop _ ih =>
    rcases List.mem_cons.mp hmem with rfl | hmem
    · exact (getOp_bounds hop).1
    · exact ih hmem

theorem ReadsTo.length_le {k : ℕ} (h : ReadsTo pc ops rest) (hdata : ∀ op ∈ ops, op.2.length ≤ k) :
    pc.length ≤ rest.length+ops.length*(k+5) := by
  induction h with
  | nil => exact Nat.le_add_right _ _
  | cons hop _ ih =>
    have hfirst := (getOp_bounds hop).2
    have hsize := hdata _ List.mem_cons_self
    have htail := ih fun op hmem => hdata op (List.mem_cons_of_mem _ hmem)
    rw [List.length_cons, Nat.add_one_mul]
    simp only at hsize
    omega

/-- Every instruction takes a byte. -/
theorem ReadsTo.length_ops_le (h : ReadsTo pc ops rest) : rest.length+ops.length ≤ pc.length := by
  induction h with
  | nil => exact le_rfl
  | cons hop _ ih =>
    have hshort := getOp_shortens hop
    rw [List.length_cons]
    omega

/-- Data that was pushed is read again. -/
theorem readsTo_pushes (values : List Valtype) {rest : CScript}
    (hlen : (values.flatMap pushData ++ rest).length < 2^32) :
    ReadsTo (values.flatMap pushData ++ rest) (values.map fun v => (pushClass v.length,v)) rest := by
  induction values with
  | nil => exact .nil rest
  | cons v values ih =>
    rw [List.flatMap_cons, List.append_assoc] at hlen ⊢
    have hdata := pushData_length_le v
    rw [List.length_append] at hlen
    refine .cons ?_ (ih (by omega))
    rw [getOp_pushData (by omega), if_neg]
    rw [Nat.mod_eq_of_lt (by omega)]
    omega

end Reads

section Pushes
variable (env : EvalEnv) (ctx : EvalContext)

/-- Data, or one of the numbers that have an opcode. -/
structure IsPush (op : ℕ × Valtype) : Prop where
  fits : op.2.length ≤ maxScriptElementSize
  opcode : op.1 ≤ opPushData4 ∨ op.1 = op1Negate ∨ (op1 ≤ op.1 ∧ op.1 ≤ op16)

/-- What a push leaves on the stack. -/
def pushValue (op : ℕ × Valtype) : Valtype :=
  if op.1 ≤ opPushData4 then op.2 else bnGetvch ((op.1 : ℤ)-(op1-1))

variable {st : EvalState} {op : ℕ × Valtype} {next : CScript}

theorem IsPush.le_op16 (h : IsPush op) : op.1 ≤ op16 := by
  have hopcode := h.opcode
  simp only [opPushData4, op1Negate, op16] at hopcode ⊢
  omega

theorem IsPush.pushValue_fits (h : IsPush op) : (pushValue op).length ≤ maxScriptElementSize := by
  rw [pushValue]
  split_ifs with hdata
  · exact h.fits
  · apply bnGetvch_fits
    have hopcode := h.opcode
    simp only [opPushData4, op1Negate, op1, op16] at hopcode hdata ⊢
    omega

theorem executeOpcode_eq_push (h : IsPush op) (hexec : st.fExec = true) :
    executeOpcode env ctx op.1 op.2 st = pure { st with stack := pushValue op :: st.stack } := by
  rw [executeOpcode, pushValue]
  by_cases hdata : op.1 ≤ opPushData4
  · rw [if_pos ⟨hexec,hdata⟩, if_pos hdata]
  · have hnumber : decodeOp op.1 = some (.stackOp (.number ((op.1 : ℤ)-(op1-1)))) :=
      if_pos (h.opcode.resolve_left hdata)
    rw [if_neg fun hboth => hdata hboth.2, if_pos (Or.inl hexec), hnumber, if_neg hdata]
    rfl

theorem evalStep_eq_push (op : ℕ × Valtype) (hop : getOp st.pc = some (op.1,op.2,next)) (h : IsPush op)
    (hexec : st.fExec = true) (hroom : st.stack.length+st.altstack.length < 1000) :
    evalStep env ctx st = pure { st with pc := next, stack := pushValue op :: st.stack } := by
  have hle := Nat.not_lt.mpr h.le_op16
  have henabled : op.1 ∉ disabledOpcodes := by
    intro hmem
    have hdisabled : ∀ opcode ∈ disabledOpcodes, ¬opcode ≤ op16 := by decide
    exact hdisabled _ hmem h.le_op16
  have hexec' : ({ st with pc := next } : EvalState).fExec = true := hexec
  have hsize : ¬(st.stack.length+1+st.altstack.length > 1000) := by omega
  simp only [evalStep, hop, returnFalseIf, if_neg (Nat.not_lt.mpr h.fits), if_neg hle,
    if_neg fun hops : op.1 > op16 ∧ _ => hle hops.1, if_neg henabled, pure_bind,
    executeOpcode_eq_push env ctx h hexec', List.length_cons, if_neg hsize]

/-- A script of pushes leaves what it pushes. -/
theorem evalLoop_pushes (st : EvalState) {ops : List (ℕ × Valtype)} {pc : CScript}
    (hreads : ReadsTo pc ops next) (hpush : ∀ op ∈ ops, IsPush op) (hexec : st.fExec = true) (hpc : st.pc = pc)
    (hroom : st.stack.length+st.altstack.length+ops.length ≤ 1000) (fuel : ℕ) :
    evalLoop env ctx (ops.length+fuel) st = evalLoop env ctx fuel
      { st with pc := next, stack := (ops.map pushValue).reverse ++ st.stack } := by
  induction hreads generalizing st with
  | nil pc =>
    subst hpc
    rw [List.length_nil, Nat.zero_add]
    rfl
  | @cons pc next rest opcode data ops hop _ ih =>
    subst hpc
    rw [List.length_cons] at hroom ⊢
    have hne : st.pc ≠ [] := by
      intro hnil
      rw [hnil] at hop
      cases hop
    have hstep : evalStep env ctx st = _ :=
      evalStep_eq_push env ctx (opcode,data) hop (hpush _ List.mem_cons_self) hexec (by omega)
    -- one push takes one of the fuel, and the room left on the stack shrinks with it
    rw [Nat.add_right_comm, evalLoop, if_neg hne, hstep, pure_bind,
      ih { st with pc := next, stack := pushValue (opcode,data) :: st.stack }
        (fun op hmem => hpush op (List.mem_cons_of_mem _ hmem)) hexec rfl
        (by simp only [List.length_cons]; omega)]
    simp only [List.map_cons, List.reverse_cons, List.append_assoc, List.singleton_append]

end Pushes

section Template
variable {pc pc2 : CScript} {step step2 : ScanStep} {vSolutions found : List Valtype}

/-- The template of multisig scripts. -/
def multisigTemplate : CScript := [opSmallInteger,opPubKeys,opSmallInteger,opCheckMultiSig].map UInt8.ofNat

theorem scanOp_eq_some (h : scanOp pc = some step) : getOp pc = some (step.opcode,step.vch,step.pc) := by
  obtain ⟨instr,hop,rfl⟩ := Option.map_eq_some_iff.mp h
  exact hop

/-- A solved multisig script matches the template, and its counts fit the keys. -/
theorem matchTemplate_of_solver {script : CScript} (h : solver script = (true,.multisig,vSolutions)) :
    matchTemplate 5 script multisigTemplate [] = some vSolutions ∧ multisigOk vSolutions = true := by
  rw [solver] at h
  split_ifs at h
  · simp at h
  · dsimp only at h
    split at h
    · rename_i type vSolutions' hfound
      simp only [Prod.mk.injEq] at h
      obtain ⟨hok,rfl,rfl⟩ := h
      obtain ⟨template,hmem,htyped⟩ := List.exists_of_findSome?_eq_some hfound
      obtain ⟨vSolutions,hmatch,heq⟩ := Option.map_eq_some_iff.mp htyped
      obtain ⟨htype,rfl⟩ := Prod.mk.inj heq
      -- of the three templates only one has the type
      have htemplate : template = (.multisig,multisigTemplate) := by
        simp only [mTemplates, List.mem_cons, List.not_mem_nil, or_false] at hmem
        rcases hmem with rfl | rfl | rfl
        · cases htype
        · cases htype
        · rfl
      rw [htemplate] at hmatch
      exact ⟨hmatch, by simpa using hok⟩
    · simp at h

/-- One opcode of the template, the keys apart. -/
theorem matchTemplate_step {fuel : ℕ} (step2 : ScanStep) (hscan : scanOp pc2 = some step2)
    (hkeys : step2.opcode ≠ opPubKeys)
    (h : matchTemplate (fuel+1) pc pc2 vSolutions = some found) :
    ∃ step taken, scanOp pc = some step ∧ matchOp step2.opcode step2.vch step = some taken ∧
      matchTemplate fuel step.pc step2.pc (vSolutions ++ taken) = some found := by
  have hne : ¬(pc = [] ∧ pc2 = []) := by
    rintro ⟨-,rfl⟩
    cases hscan
  rw [matchTemplate, if_neg hne] at h
  simp only [hscan, Option.bind_eq_bind, Option.bind_some, if_neg hkeys, Option.bind_eq_some_iff] at h
  obtain ⟨step,hstep,taken,htaken,hrest⟩ := h
  exact ⟨step,taken,hstep,htaken,hrest⟩

/-- The keys, and the opcode of the template behind them. -/
theorem matchTemplate_keys {fuel : ℕ} (step2 step3 : ScanStep) (hscan : scanOp pc2 = some step2)
    (hkeys : step2.opcode = opPubKeys) (hscan3 : scanOp step2.pc = some step3)
    (h : matchTemplate (fuel+1) pc pc2 vSolutions = some found) :
    ∃ step vSolutions' step' taken, scanOp pc = some step ∧
      takePubKeys (step.pc.length+1) step vSolutions = (vSolutions',step') ∧
      matchOp step3.opcode step3.vch step' = some taken ∧
      matchTemplate fuel step'.pc step3.pc (vSolutions' ++ taken) = some found := by
  have hne : ¬(pc = [] ∧ pc2 = []) := by
    rintro ⟨-,rfl⟩
    cases hscan
  rw [matchTemplate, if_neg hne] at h
  simp only [hscan, Option.bind_eq_bind, Option.bind_some, if_pos hkeys, hscan3,
    Option.bind_eq_some_iff] at h
  obtain ⟨step,hstep,taken,htaken,hrest⟩ := h
  exact ⟨step,_,_,taken,hstep,rfl,htaken,hrest⟩

theorem matchTemplate_end {fuel : ℕ} (h : matchTemplate (fuel+1) pc [] vSolutions = some found) :
    pc = [] ∧ found = vSolutions := by
  rw [matchTemplate] at h
  split_ifs at h with hend
  · exact ⟨hend.1, (Option.some.inj h).symm⟩
  · simp only [Option.bind_eq_bind, Option.bind_eq_some_iff] at h
    obtain ⟨_,-,_,hscan,-⟩ := h
    cases hscan

/-- A small integer of the template: the opcode of a number from 0 to 16, by its byte. -/
theorem matchOp_smallInteger {vch2 : Valtype} (h : matchOp opSmallInteger vch2 step = some vSolutions) :
    ∃ n : ℕ, n ≤ 16 ∧ vSolutions = [[UInt8.ofNat n]] ∧ (n ≠ 0 → step.opcode = op1-1+n) := by
  rw [matchOp, if_neg (by decide), if_neg (by decide), if_pos rfl] at h
  split_ifs at h with hzero hsmall
  · obtain rfl := Option.some.inj h
    exact ⟨0, by decide, rfl, fun h => absurd rfl h⟩
  · obtain rfl := Option.some.inj h
    simp only [op1, op16] at hsmall ⊢
    exact ⟨_, by omega, rfl, fun _ => by omega⟩

/-- The keys are read one after the other up to the first instruction that holds none. -/
theorem takePubKeys_reads {fuel : ℕ} {step' : ScanStep} {vSolutions' : List Valtype}
    (hscan : scanOp pc = some step) (h : takePubKeys fuel step vSolutions = (vSolutions',step'))
    (hvalid : step'.opcode ≠ opInvalidOpcode) :
    ∃ keyOps, ReadsTo pc (keyOps ++ [(step'.opcode,step'.vch)]) step'.pc ∧
      vSolutions' = vSolutions ++ keyOps.map Prod.snd ∧
      ∀ op ∈ keyOps, 33 ≤ op.2.length ∧ op.2.length ≤ 120 ∧ op.1 ≤ opPushData4 := by
  induction fuel generalizing pc step vSolutions with
  | zero =>
    obtain ⟨rfl,rfl⟩ := Prod.mk.inj h
    exact ⟨[], .single (scanOp_eq_some hscan), (List.append_nil _).symm, fun op hmem => by cases hmem⟩
  | succ fuel ih =>
    have hop := scanOp_eq_some hscan
    rw [takePubKeys] at h
    split_ifs at h with hsize
    · cases hnext : scanOp step.pc with
      | none =>
        rw [hnext] at h
        obtain ⟨-,rfl⟩ := Prod.mk.inj h
        exact absurd rfl hvalid
      | some next =>
        simp only [hnext] at h
        obtain ⟨keyOps,hreads,rfl,hkeys⟩ := ih hnext h
        refine ⟨(step.opcode,step.vch) :: keyOps, .cons hop hreads, ?_, ?_⟩
        · rw [List.map_cons, List.append_assoc, List.singleton_append]
        · intro op hmem
          rcases List.mem_cons.mp hmem with rfl | hmem
          · have hne : step.vch ≠ [] := by
              rintro hnil
              rw [hnil] at hsize
              exact absurd hsize.1 (by decide)
            exact ⟨hsize.1, hsize.2, (getOp_bounds hop).1.resolve_right hne⟩
          · exact hkeys op hmem
    · obtain ⟨rfl,rfl⟩ := Prod.mk.inj h
      exact ⟨[], .single hop, (List.append_nil _).symm, fun op hmem => by cases hmem⟩

/-- The instructions of a multisig script: the number of signatures, the keys and their number. -/
structure MultisigReads (script : CScript) (m : ℕ) (keyOps : List (ℕ × Valtype)) : Prop where
  reads : ReadsTo script
    ((op1-1+m,[]) :: (keyOps ++ [(op1-1+keyOps.length,[]),(opCheckMultiSig,[])])) []
  keys : ∀ op ∈ keyOps, 33 ≤ op.2.length ∧ op.2.length ≤ 120 ∧ op.1 ≤ opPushData4
  m_pos : 1 ≤ m
  m_le : m ≤ keyOps.length
  count_le : keyOps.length ≤ 16

theorem multisigOk_concat {b : UInt8} (h : multisigOk (vSolutions ++ [[b]]) = true) :
    1 ≤ ((vSolutions ++ [[b]]).headD []).headD 0 ∧
      (((vSolutions ++ [[b]]).headD []).headD 0).toNat ≤ b.toNat ∧ vSolutions.length-1 = b.toNat := by
  rw [multisigOk, List.getLastD_concat, List.length_append, List.length_singleton] at h
  generalize ((vSolutions ++ [[b]]).headD []).headD 0 = m at h ⊢
  simp only [List.headD_cons, Bool.not_eq_true', Bool.or_eq_false_iff, decide_eq_false_iff_not,
    bne_eq_false_iff_eq] at h
  obtain ⟨⟨⟨hm,hn⟩,hle⟩,hlen⟩ := h
  have hn := of_decide_eq_false hn
  have hle := of_decide_eq_false hle
  refine ⟨?_, by omega, by omega⟩
  rw [UInt8.le_iff_toNat_le]
  exact Nat.not_lt.mp hm

theorem toNat_smallInteger {n : ℕ} (h : n ≤ 16) : (UInt8.ofNat n).toNat = n := by
  rw [UInt8.toNat_ofNat']
  omega

/-- What `Solver` finds in a multisig script, and how the script is read. -/
theorem multisigReads_of_solver {script : CScript}
    (h : solver script = (true,.multisig,vSolutions)) :
    ∃ m keyOps, MultisigReads script m keyOps ∧
      vSolutions = [UInt8.ofNat m] :: (keyOps.map Prod.snd ++ [[UInt8.ofNat keyOps.length]]) := by
  obtain ⟨hmatch,hok⟩ := matchTemplate_of_solver h
  -- the number of signatures
  obtain ⟨step1,taken1,hscan1,hop1,hmatch⟩ := matchTemplate_step
    ⟨opSmallInteger,[],multisigTemplate.drop 1⟩ rfl (by decide) hmatch
  obtain ⟨m,hm,rfl,hopcode1⟩ := matchOp_smallInteger hop1
  -- the keys and their number
  obtain ⟨stepKey,vSolutions',step2,taken2,hscan2,hkeys,hop2,hmatch⟩ := matchTemplate_keys
    ⟨opPubKeys,[],multisigTemplate.drop 2⟩ ⟨opSmallInteger,[],multisigTemplate.drop 3⟩ rfl rfl rfl hmatch
  obtain ⟨n,hn,rfl,hopcode2⟩ := matchOp_smallInteger hop2
  -- the opcode, and the end
  obtain ⟨step3,taken3,hscan3,hop3,hmatch⟩ := matchTemplate_step
    ⟨opCheckMultiSig,[],[]⟩ rfl (by decide) hmatch
  rw [matchOp, if_neg (by decide), if_neg (by decide), if_neg (by decide)] at hop3
  split_ifs at hop3 with hother
  obtain rfl := Option.some.inj hop3
  obtain ⟨hopcode3,hvch3⟩ := not_or.mp hother
  obtain ⟨hend,rfl⟩ := matchTemplate_end hmatch
  rw [List.append_nil] at hok
  obtain ⟨hpos,hle,hcount⟩ := multisigOk_concat hok
  rw [toNat_smallInteger hn] at hle hcount
  have hnpos : n ≠ 0 := by
    rintro rfl
    rw [UInt8.le_iff_toNat_le] at hpos
    exact absurd (hpos.trans hle) (by decide)
  have hopcode2 := hopcode2 hnpos
  obtain ⟨keyOps,hreads,rfl,hsizes⟩ := takePubKeys_reads hscan2 hkeys (by
    rw [hopcode2]
    simp only [op1, opInvalidOpcode]
    omega)
  have hvch2 : step2.vch = [] := by
    apply (hreads.bounds (List.mem_append_right _ (List.mem_singleton_self _))).resolve_left
    rw [hopcode2]
    simp only [op1, opPushData4]
    omega
  have hlen : keyOps.length = n := by
    simpa using hcount
  have hm' : (UInt8.ofNat m).toNat = m := toNat_smallInteger hm
  have hmpos : 1 ≤ m := by
    rw [UInt8.le_iff_toNat_le] at hpos
    exact hm' ▸ hpos
  have hmle : m ≤ n := hm' ▸ hle
  refine ⟨m, keyOps, ⟨?_, hsizes, hmpos, hlen ▸ hmle, hlen ▸ hn⟩, ?_⟩
  · have hopcode1 := hopcode1 (by omega)
    have hdata1 : step1.vch = [] := (getOp_bounds (scanOp_eq_some hscan1)).1.resolve_left (by
      rw [hopcode1]
      simp only [op1, opPushData4]
      omega)
    have hfirst := scanOp_eq_some hscan1
    have hlast := scanOp_eq_some hscan3
    rw [hopcode1, hdata1] at hfirst
    rw [not_not.mp hopcode3, not_not.mp hvch3, hend] at hlast
    rw [hopcode2, hvch2, ← hlen] at hreads
    have htail := hreads.append (.single hlast)
    rw [List.append_assoc] at htail
    exact .cons hfirst htail
  · rw [List.append_nil, hlen]
    rfl

end Template

section Run
variable {env : EvalEnv} {ctx : EvalContext} {script : CScript} {m : ℕ}
  {keyOps : List (ℕ × Valtype)} {sigs rest : List Valtype} {dummy : Valtype} {s : ℕ}

theorem isCount_number {n : ℕ} (h : n ≤ 16) : IsCount (bnGetvch n) n := by
  refine ⟨?_, ?_⟩
  · have hlen : (bnGetvch n).length ≤ 0+1 := bnGetvch_length_le (by omega)
    omega
  · have hint : ¬(n : ℤ) > 2^31-1 := by omega
    rw [setvch_bnGetvch, bnGetint, if_pos (Int.natCast_nonneg n), if_neg hint]

theorem MultisigReads.length_le (h : MultisigReads script m keyOps) : script.length ≤ 10000 := by
  have hdata : ∀ op ∈ (op1-1+m,[]) :: (keyOps ++ [(op1-1+keyOps.length,[]),(opCheckMultiSig,[])]),
      op.2.length ≤ 120 := by
    intro op hmem
    simp only [List.mem_cons, List.mem_append, List.not_mem_nil, or_false] at hmem
    rcases hmem with rfl | hkey | rfl | rfl
    · exact Nat.zero_le _
    · exact (h.keys op hkey).2.1
    · exact Nat.zero_le _
    · exact Nat.zero_le _
  have hlen := h.reads.length_le hdata
  have hcount := h.count_le
  simp only [List.length_cons, List.length_append, List.length_nil] at hlen
  omega

/-- The pushes of the script, and its opcode. -/
theorem MultisigReads.pushes (h : MultisigReads script m keyOps) :
    ∃ next, ReadsTo script ((op1-1+m,[]) :: (keyOps ++ [(op1-1+keyOps.length,[])])) next ∧
      getOp next = some (opCheckMultiSig,[],[]) := by
  have hreads := h.reads
  rw [List.append_cons, ← List.cons_append] at hreads
  obtain ⟨next,hpushes,hlast⟩ := hreads.split
  refine ⟨next, hpushes, ?_⟩
  cases hlast with
  | cons hop hend =>
    cases hend
    exact hop

theorem isPush_number {n : ℕ} (hpos : 1 ≤ n) (hle : n ≤ 16) : IsPush (op1-1+n,[]) := by
  refine ⟨Nat.zero_le _, Or.inr (Or.inr ?_)⟩
  simp only [op1, op16]
  omega

theorem pushValue_number {n : ℕ} (hpos : 1 ≤ n) : pushValue (op1-1+n,[]) = bnGetvch n := by
  have hopcode : ¬op1-1+n ≤ opPushData4 := by
    simp only [op1, opPushData4]
    omega
  have hvalue : ((op1-1+n : ℕ) : ℤ)-(op1-1) = n := by
    simp only [op1]
    omega
  rw [pushValue, if_neg hopcode, hvalue]

theorem MultisigReads.isPush (h : MultisigReads script m keyOps) :
    ∀ op ∈ (op1-1+m,[]) :: (keyOps ++ [(op1-1+keyOps.length,[])]), IsPush op := by
  have hmpos := h.m_pos
  have hmle := h.m_le
  have hcount := h.count_le
  intro op hmem
  simp only [List.mem_cons, List.mem_append, List.not_mem_nil, or_false] at hmem
  rcases hmem with rfl | hkey | rfl
  · exact isPush_number hmpos (by omega)
  · obtain ⟨-,hlen,hop⟩ := h.keys op hkey
    exact ⟨hlen.trans (by decide), Or.inl hop⟩
  · exact isPush_number (by omega) hcount

theorem MultisigReads.pushValues (h : MultisigReads script m keyOps) :
    (((op1-1+m,[]) :: (keyOps ++ [(op1-1+keyOps.length,[])])).map pushValue).reverse =
      bnGetvch keyOps.length :: ((keyOps.map Prod.snd).reverse ++ [bnGetvch m]) := by
  have hkeys : keyOps.map pushValue = keyOps.map Prod.snd := by
    apply List.map_congr_left
    intro op hmem
    rw [pushValue, if_pos (h.keys op hmem).2.2]
  have hmle := h.m_le
  have hmpos := h.m_pos
  rw [List.map_cons, List.map_append, List.map_singleton, hkeys, pushValue_number hmpos,
    pushValue_number (by omega), List.reverse_cons, List.reverse_append, List.reverse_singleton,
    List.append_assoc, List.singleton_append]

/-- The turn of the opcode. -/
theorem wp_evalStep_checkMultiSig {st : EvalState} {next : CScript} {vchKeys vchSigs : Valtype}
    {keys : List Valtype} (hop : getOp st.pc = some (opCheckMultiSig,[],next)) (hexec : st.vfExec = [])
    (hstack : MultiSigStack st.stack vchKeys keys vchSigs sigs dummy rest)
    (hops : st.nOpCount+1+keys.length ≤ 201) (hroom : rest.length+1+st.altstack.length ≤ 1000) :
    wp (evalStep env ctx st) (fun st' _ => st'.pc = next ∧ st'.vfExec = [] ∧
      st'.stack = vchBool (greedyMatch (pairValid env ctx (signedCode st sigs)) sigs keys) :: rest)
      (fun _ _ => False) s := by
  have hcounted : opCheckMultiSig > op16 := by decide
  have hfExec : st.fExec = true := by
    rw [EvalState.fExec, hexec]
    rfl
  simp only [evalStep, hop]
  rw [wp_bind, wp_returnFalseIf]
  refine ⟨fun hlong => absurd hlong (by decide), fun _ => ?_⟩
  rw [if_pos hcounted, wp_bind, wp_returnFalseIf]
  refine ⟨fun hlimit => absurd hlimit.2 (by omega), fun _ => ?_⟩
  rw [wp_bind, wp_returnFalseIf]
  refine ⟨fun hdisabled => absurd hdisabled (by decide), fun _ => ?_⟩
  have hexecute (st' : EvalState) (hsame : st'.fExec = true) :
      executeOpcode env ctx opCheckMultiSig [] st' =
        evalCheckMultiSigBy (checkSigCounted env ctx) false st' := by
    rw [evalCheckMultiSigBy_eq, executeOpcode, if_neg fun hpush => absurd hpush.2 (by decide),
      if_pos (Or.inl hsame)]
    rfl
  rw [hexecute { st with pc := next, nOpCount := st.nOpCount+1 } hfExec, wp_bind]
  have hstack' : MultiSigStack ({ st with pc := next, nOpCount := st.nOpCount+1 } : EvalState).stack
      vchKeys keys vchSigs sigs dummy rest := hstack
  apply wp_evalCheckMultiSig (checkSigCounted_checksPairs env ctx) false hstack' hops
  intro fSuccess s' hsuccess _ _
  refine ⟨fun _ => ?_, fun h => absurd h (by decide), fun h => absurd h (by decide)⟩
  rw [wp_bind, wp_returnFalseIf]
  refine ⟨fun hfull => ?_, fun _ => ?_⟩
  · simp only [List.length_cons] at hfull
    omega
  · rw [wp_pure, hsuccess]
    exact ⟨rfl,hexec,rfl⟩

theorem evalLoop_nil {st : EvalState} (h : st.pc = []) (fuel : ℕ) : evalLoop env ctx fuel st = pure st := by
  cases fuel with
  | zero => rfl
  | succ fuel => rw [evalLoop, if_pos h]

/-- The stack as the opcode finds it. -/
theorem MultisigReads.stack (h : MultisigReads script m keyOps) (hsigs : sigs.length = m)
    (hroom : rest.length ≤ 900) :
    MultiSigStack (bnGetvch keyOps.length :: ((keyOps.map Prod.snd).reverse ++ [bnGetvch m]) ++
      (sigs ++ dummy :: rest)) (bnGetvch keyOps.length) (keyOps.map Prod.snd).reverse (bnGetvch m) sigs
      dummy rest := by
  have hmle := h.m_le
  have hcount := h.count_le
  have hkeys : (keyOps.map Prod.snd).reverse.length = keyOps.length := by
    rw [List.length_reverse, List.length_map]
  have hkeysCount : IsCount (bnGetvch keyOps.length) (keyOps.map Prod.snd).reverse.length := by
    rw [hkeys]
    exact isCount_number hcount
  have hsigsCount : IsCount (bnGetvch m) sigs.length := by
    rw [hsigs]
    exact isCount_number (by omega)
  refine ⟨?_, hkeysCount, by omega, hsigsCount, by omega, ?_⟩
  · simp only [List.cons_append, List.append_assoc, List.nil_append]
  · simp only [List.length_cons, List.length_append, hkeys, List.length_nil]
    omega

/-- A run of the script takes the signatures and the element below them, and says whether the
signatures, the last one first, match keys in their order. -/
theorem wp_evalScript_multisig (h : MultisigReads script m keyOps) (hsigs : sigs.length = m)
    (hroom : rest.length ≤ 900) :
    wp (evalScript env ctx (sigs ++ dummy :: rest) script)
      (fun r _ => r = some (vchBool (greedyMatch (pairValid env ctx (sigs.foldl dropSignature script))
        sigs (keyOps.map Prod.snd).reverse) :: rest)) (fun _ _ => False) s := by
  obtain ⟨next,hpushes,hlast⟩ := h.pushes
  have hmle := h.m_le
  have hcount := h.count_le
  have hshort := getOp_shortens hlast
  have hne : next ≠ [] := by
    rintro rfl
    cases hlast
  -- the pushes of the script
  have hroom' : (sigs ++ dummy :: rest).length+
      ((op1-1+m,[]) :: (keyOps ++ [(op1-1+keyOps.length,([] : Valtype))])).length ≤ 1000 := by
    simp only [List.length_append, List.length_cons, List.length_nil]
    omega
  have hloop := evalLoop_pushes env ctx (.init (sigs ++ dummy :: rest) script) hpushes h.isPush rfl rfl
    hroom'
  rw [h.pushValues] at hloop
  have hops := hpushes.length_ops_le
  obtain ⟨fuel,hfuel⟩ := Nat.exists_eq_add_of_le
    (show ((op1-1+m,[]) :: (keyOps ++ [(op1-1+keyOps.length,[])])).length+1 ≤ script.length by omega)
  rw [Nat.add_assoc, Nat.add_comm 1] at hfuel
  rw [wp_evalScript, evalBody, wp_bind, wp_returnFalseIf]
  refine ⟨fun hlong => absurd h.length_le (Nat.not_le.mpr hlong), fun _ => ?_⟩
  rw [hfuel, hloop, evalLoop, if_neg hne, wp_bind, wp_bind]
  -- the opcode
  have hcounted : (1 : ℕ)+(keyOps.map Prod.snd).reverse.length ≤ 201 := by
    rw [List.length_reverse, List.length_map]
    omega
  have hroomLeft : rest.length+1+([] : List Valtype).length ≤ 1000 := by
    rw [List.length_nil]
    omega
  refine wp_mono (wp_evalStep_checkMultiSig hlast rfl (h.stack hsigs hroom) ?_ hroomLeft) ?_
    fun _ _ hfail => hfail.elim
  · exact hcounted
  rintro st s' ⟨hpc,hexec,hstack⟩
  rw [evalLoop_nil hpc, wp_pure, wp_bind, wp_returnFalseIf]
  refine ⟨fun hopen => absurd hexec hopen, fun _ => ?_⟩
  rw [wp_pure, hstack]
  rfl

end Run

end Candypool.Script
