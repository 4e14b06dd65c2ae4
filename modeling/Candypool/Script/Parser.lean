import Candypool.Core.Script

/-! `GetOp2` as it reads the vector, `FindAndDelete`, and what the two keep to: no read is outside
the vector, and every turn of a loop over them takes something off what is left of the script. -/
namespace Candypool.Script
open Candypool.Core

section Reads

/-- `pc[0] .. pc[n-1]` of the vector; there is no such value when one of them is outside it. -/
def readBytes (script : CScript) (pc n : ℕ) : Option (List UInt8) :=
  if pc+n ≤ script.length then some ((script.drop pc).take n) else none

/-- What `GetOp2` returns and leaves in its reference parameters. -/
structure GetOpResult where
  fRet : Bool
  opcodeRet : ℕ
  vchRet : List UInt8
  pc : ℕ
  deriving DecidableEq, Repr

def GetOpResult.failed (pc : ℕ) : GetOpResult := ⟨false, opInvalidOpcode, [], pc⟩

/-- The operand of a push: its size in `sizeLength` bytes, or the opcode itself for none. -/
def getOperand (script : CScript) (pc opcode sizeLength : ℕ) : Option GetOpResult :=
  if script.length-pc < sizeLength then some (.failed pc)
  else do
    let sizeBytes ← readBytes script pc sizeLength
    let nSize := if opcode < opPushData1 then opcode else littleEndian sizeBytes
    let pc := pc+sizeLength
    if (script.length-pc) % 2^32 < nSize then some (.failed pc)
    else do
      let vchRet ← readBytes script pc nSize
      some ⟨true, opcode, vchRet, pc+nSize⟩

/-- `GetOp2` at an index of the vector. It has no value when a read leaves the vector. -/
def getOp2 (script : CScript) (pc : ℕ) : Option GetOpResult :=
  if script.length ≤ pc then some (.failed pc)
  else do
    let read ← readBytes script pc 1
    let opcode := littleEndian read
    let pc := pc+1
    if opcode ≤ opPushData4 then
      if opcode < opPushData1 then getOperand script pc opcode 0
      else if opcode = opPushData1 then getOperand script pc opcode 1
      else if opcode = opPushData2 then getOperand script pc opcode 2
      else getOperand script pc opcode 4
    else some ⟨true, opcode, [], pc⟩

end Reads

/-- `FindAndDelete` with what it has passed and what is left. A turn either erases a copy of `b`
at `pc` or moves on by one instruction; the fuel bounds the turns. -/
def findAndDeleteLoop (b : CScript) : ℕ → CScript → CScript → ℕ → Option (ℕ × CScript)
  | 0, _, _, _ => none
  | fuel+1, passed, pc, nFound =>
    if b.isPrefixOf pc then findAndDeleteLoop b fuel passed (pc.drop b.length) (nFound+1)
    else match getOp pc with
      | none => some (nFound, passed ++ pc)
      | some (_,_,next) =>
        findAndDeleteLoop b fuel (passed ++ pc.take (pc.length-next.length)) next nFound

/-- The number of copies erased and the script without them. -/
def findAndDelete (fuel : ℕ) (script b : CScript) : Option (ℕ × CScript) :=
  if b = [] then some (0, script) else findAndDeleteLoop b fuel [] script 0

/-- `GetOp` again and again until it returns false: the instructions and the script left. -/
def getOps : ℕ → CScript → Option (List (ℕ × List UInt8) × CScript)
  | 0, _ => none
  | fuel+1, pc =>
    match getOp pc with
    | none => some ([], pc)
    | some (opcode,data,next) =>
      (getOps fuel next).map fun (ops,rest) => ((opcode,data) :: ops, rest)

section GetOp
variable {pc next : CScript} {opcode : ℕ} {data : List UInt8}

theorem pushSize_suffix {rest : CScript} {nSize : ℕ} (h : pushSize opcode pc = some (nSize,rest)) :
    ∃ size, pc = size ++ rest := by
  simp only [pushSize] at h
  split_ifs at h <;> simp only [Option.some.injEq, Prod.mk.injEq] at h
  · exact ⟨[], h.2⟩
  all_goals exact ⟨_, by rw [← h.2, List.take_append_drop]⟩

/-- An instruction is its opcode, the bytes of its size and its data, in this order. -/
theorem getOp_split (h : getOp pc = some (opcode,data,next)) :
    ∃ b size, b.toNat = opcode ∧ pc = b :: (size ++ (data ++ next)) := by
  cases pc with
  | nil => simp [getOp] at h
  | cons b pc =>
    simp only [getOp] at h
    split_ifs at h with hpush
    · simp only [Option.bind_eq_bind, Option.bind_eq_some_iff, Prod.exists] at h
      obtain ⟨nSize,rest,hsize,h⟩ := h
      split_ifs at h with hshort
      · simp at h
      · simp only [Option.pure_def, Option.some.injEq, Prod.mk.injEq] at h
        obtain ⟨rfl,rfl,rfl⟩ := h
        obtain ⟨size,rfl⟩ := pushSize_suffix hsize
        exact ⟨b, size, rfl, by rw [List.take_append_drop]⟩
    · simp only [Option.some.injEq, Prod.mk.injEq] at h
      obtain ⟨rfl,rfl,rfl⟩ := h
      exact ⟨b, [], rfl, rfl⟩

theorem getOp_shortens (h : getOp pc = some (opcode,data,next)) : next.length < pc.length := by
  obtain ⟨b,size,-,rfl⟩ := getOp_split h
  simp only [List.length_cons, List.length_append]
  omega

end GetOp

section Bounds
variable {script : CScript} {pc : ℕ}

/-- What a result says about the bytes from `pc` on. -/
def GetOpResult.rest (script : CScript) (r : GetOpResult) : Option (ℕ × List UInt8 × CScript) :=
  if r.fRet then some (r.opcodeRet, r.vchRet, script.drop r.pc) else none

/-- The operand `GetOp2` reads at `pc`, from the bytes there. -/
def operandOf (opcode sizeLength : ℕ) (bytes : CScript) : Option (ℕ × List UInt8 × CScript) :=
  if bytes.length < sizeLength then none
  else
    let nSize := if opcode < opPushData1 then opcode else littleEndian (bytes.take sizeLength)
    let operand := bytes.drop sizeLength
    if operand.length % 2^32 < nSize then none
    else some (opcode, operand.take nSize, operand.drop nSize)

theorem getOperand_in_bounds (opcode sizeLength : ℕ) (hpc : pc ≤ script.length) :
    ∃ r, getOperand script pc opcode sizeLength = some r ∧ r.pc ≤ script.length ∧
      r.rest script = operandOf opcode sizeLength (script.drop pc) := by
  rw [getOperand, operandOf, List.length_drop]
  by_cases hshort : script.length-pc < sizeLength
  · rw [if_pos hshort, if_pos hshort]
    exact ⟨_, rfl, hpc, rfl⟩
  · have hread : readBytes script pc sizeLength = some ((script.drop pc).take sizeLength) :=
      if_pos (by omega)
    rw [if_neg hshort, if_neg hshort]
    simp only [hread, Option.bind_eq_bind, Option.bind_some, List.drop_drop, List.length_drop]
    generalize (if opcode < opPushData1 then opcode
      else littleEndian ((script.drop pc).take sizeLength)) = nSize
    by_cases hsize : (script.length-(pc+sizeLength)) % 2^32 < nSize
    · rw [if_pos hsize, if_pos hsize]
      exact ⟨_, rfl, by change pc+sizeLength ≤ script.length; omega, rfl⟩
    · -- the 32 bits compared are no more than the bytes there are
      have hfits : pc+sizeLength+nSize ≤ script.length := by
        have := Nat.mod_le (script.length-(pc+sizeLength)) (2^32)
        omega
      have hread' : readBytes script (pc+sizeLength) nSize =
          some ((script.drop (pc+sizeLength)).take nSize) := if_pos hfits
      rw [if_neg hsize, if_neg hsize, hread', Option.bind_some]
      exact ⟨_, rfl, hfits, by simp [GetOpResult.rest]⟩

theorem getOp_cons (b : UInt8) (bytes : CScript) :
    getOp (b :: bytes) = if b.toNat ≤ opPushData4 then
      operandOf b.toNat (if b.toNat < opPushData1 then 0 else if b.toNat = opPushData1 then 1
        else if b.toNat = opPushData2 then 2 else 4) bytes
    else some (b.toNat, [], bytes) := by
  simp only [getOp, operandOf, pushSize]
  split_ifs <;> simp_all

/-- `GetOp2` reads no byte outside the vector and leaves `pc` inside it; what it returns is the
first instruction of the rest of the script. -/
theorem getOp2_in_bounds (hpc : pc ≤ script.length) :
    ∃ r, getOp2 script pc = some r ∧ r.pc ≤ script.length ∧
      r.rest script = getOp (script.drop pc) := by
  rw [getOp2]
  split_ifs with hend
  · refine ⟨_, rfl, hpc, ?_⟩
    rw [List.drop_eq_nil_of_le hend]
    rfl
  · have hlt : pc < script.length := by omega
    have hread : readBytes script pc 1 = some [script[pc]] := by
      rw [readBytes, if_pos (by omega), List.drop_eq_getElem_cons hlt]
      rfl
    have hopcode : littleEndian [script[pc]] = script[pc].toNat := by simp [littleEndian]
    simp only [hread, Option.bind_eq_bind, Option.bind_some, hopcode]
    rw [List.drop_eq_getElem_cons hlt, getOp_cons]
    split_ifs
    · exact getOperand_in_bounds _ _ hlt
    · exact getOperand_in_bounds _ _ hlt
    · exact getOperand_in_bounds _ _ hlt
    · exact getOperand_in_bounds _ _ hlt
    · exact ⟨_, rfl, hlt, rfl⟩

end Bounds

section Termination

/-- The loop of `GetOp` ends for every script. -/
theorem getOps_terminates (pc : CScript) :
    ∃ r, ∀ fuel, pc.length < fuel → getOps fuel pc = some r := by
  induction hlen : pc.length using Nat.strong_induction_on generalizing pc with
  | _ n ih =>
    cases hop : getOp pc with
    | none =>
      refine ⟨([],pc), fun fuel hfuel => ?_⟩
      obtain ⟨fuel,rfl⟩ := Nat.exists_eq_add_of_lt hfuel
      rw [getOps, hop]
    | some instr =>
      obtain ⟨opcode,data,next⟩ := instr
      have hshort := getOp_shortens hop
      obtain ⟨r,hr⟩ := ih next.length (by omega) next rfl
      refine ⟨((opcode,data) :: r.1,r.2), fun fuel hfuel => ?_⟩
      obtain ⟨fuel,rfl⟩ := Nat.exists_eq_add_of_lt hfuel
      rw [getOps, hop]
      simp only
      rw [hr _ (by omega), Option.map_some]

/-- Erasing and moving on both shorten what is left, so the length of the script bounds the turns. -/
theorem findAndDeleteLoop_terminates {b : CScript} (hb : b ≠ []) (pc passed : CScript)
    (nFound : ℕ) : ∃ r, ∀ fuel, pc.length < fuel →
      findAndDeleteLoop b fuel passed pc nFound = some r := by
  induction hlen : pc.length using Nat.strong_induction_on generalizing pc passed nFound with
  | _ n ih =>
    by_cases hbegins : b.isPrefixOf pc = true
    · have hle : b.length ≤ pc.length := (List.isPrefixOf_iff_prefix.mp hbegins).length_le
      have hpos := List.length_pos_of_ne_nil hb
      obtain ⟨r,hr⟩ := ih (pc.drop b.length).length (by rw [List.length_drop]; omega)
        (pc.drop b.length) passed (nFound+1) rfl
      refine ⟨r, fun fuel hfuel => ?_⟩
      obtain ⟨fuel,rfl⟩ := Nat.exists_eq_add_of_lt hfuel
      rw [findAndDeleteLoop, if_pos hbegins]
      exact hr _ (by rw [List.length_drop]; omega)
    · cases hop : getOp pc with
      | none =>
        refine ⟨(nFound,passed ++ pc), fun fuel hfuel => ?_⟩
        obtain ⟨fuel,rfl⟩ := Nat.exists_eq_add_of_lt hfuel
        rw [findAndDeleteLoop, if_neg hbegins, hop]
      | some instr =>
        obtain ⟨opcode,data,next⟩ := instr
        have hshort := getOp_shortens hop
        obtain ⟨r,hr⟩ := ih next.length (by omega) next
          (passed ++ pc.take (pc.length-next.length)) nFound rfl
        refine ⟨r, fun fuel hfuel => ?_⟩
        obtain ⟨fuel,rfl⟩ := Nat.exists_eq_add_of_lt hfuel
        rw [findAndDeleteLoop, if_neg hbegins, hop]
        exact hr _ (by omega)

theorem findAndDelete_terminates (script b : CScript) :
    ∃ r, ∀ fuel, script.length < fuel → findAndDelete fuel script b = some r := by
  by_cases hb : b = []
  · exact ⟨(0,script), fun fuel _ => if_pos hb⟩
  · obtain ⟨r,hr⟩ := findAndDeleteLoop_terminates hb script [] 0
    exact ⟨r, fun fuel hfuel => (if_neg hb).trans (hr fuel hfuel)⟩

end Termination

end Candypool.Script
