import Candypool.Pool.Work
import Candypool.Script.Limits

/-! Scripts built with `<<` and taken apart with `GetOp`. The parser compares the size of a push with
the low 32 bits of what is left of the script, so it gives the items back as long as that is all
there is. -/
namespace Candypool.Script
open Candypool.Prime Candypool.Core Candypool.Lib

/-- `push_int64`. -/
def pushInt64 (n : ℤ) : CScript :=
  if n = -1 ∨ (1 ≤ n ∧ n ≤ 16) then [UInt8.ofNat (n+(op1-1)).toNat] else pushData (bnGetvch n)

/-- `<<` of an opcode, which throws when it is not a byte. -/
def pushOpcode (opcode : ℕ) : Option CScript :=
  if opcode > 0xff then none else some [UInt8.ofNat opcode]

/-- What can be pushed onto a script. -/
inductive ScriptItem
  | data (b : List UInt8)
  | opcode (n : ℕ)
  | int64 (n : Int64)
  | uint64 (n : UInt64)

def ScriptItem.push : ScriptItem → Option CScript
  | .data b => some (pushData b)
  | .opcode n => pushOpcode n
  | .int64 n => some (pushInt64 n.toInt)
  | .uint64 n => some (pushUint64 n.toNat)

/-- `CScript() << item << item ..`. -/
def buildScript (items : List ScriptItem) : Option CScript :=
  items.foldlM (fun script item => item.push.map (script ++ ·)) []

/-- A vector whose size fits in an `unsigned int`, or an opcode that does not stand for a push of
data. -/
def ScriptItem.Valid : ScriptItem → Prop
  | .data b => b.length < 2^32
  | .opcode n => n = 0 ∨ (opPushData4 < n ∧ n ≤ 0xff)
  | _ => True

/-- The opcode that pushes so many bytes. -/
def pushClass (nSize : ℕ) : ℕ :=
  if nSize < opPushData1 then nSize
  else if nSize ≤ 0xff then opPushData1
  else if nSize ≤ 0xffff then opPushData2
  else opPushData4

/-- An integer as an instruction. -/
def integerInstruction (n : ℤ) : ℕ × List UInt8 :=
  if n = -1 ∨ (1 ≤ n ∧ n ≤ 16) then ((n+(op1-1)).toNat, [])
  else (pushClass (bnGetvch n).length, bnGetvch n)

/-- The instruction an item is to be read back as. -/
def ScriptItem.instruction : ScriptItem → ℕ × List UInt8
  | .data b => (pushClass b.length, b)
  | .opcode n => (n, [])
  | .int64 n => integerInstruction n.toInt
  | .uint64 n => integerInstruction n.toNat

/-- The number an integer item stands for. -/
def ScriptItem.value : ScriptItem → Option ℤ
  | .int64 n => some n.toInt
  | .uint64 n => some n.toNat
  | _ => none

section Push

/-- The two ways to push a number that is not negative agree. -/
theorem pushInt64_natCast (n : ℕ) : pushInt64 n = pushUint64 n := by
  rw [pushInt64, pushUint64, bnGetvch_natCast]
  have hcond : ((n : ℤ) = -1 ∨ (1 ≤ (n : ℤ) ∧ (n : ℤ) ≤ 16)) ↔ 1 ≤ n ∧ n ≤ 16 := by omega
  have hbyte : ((n : ℤ)+(op1-1)).toNat = op1-1+n := by
    simp only [op1]
    omega
  simp only [hcond, hbyte]

/-- The size bytes of `pushData` as a number. -/
theorem littleEndian_sizeBytes (nSize n : ℕ) :
    littleEndian ((List.range n).map fun i => UInt8.ofNat (nSize/256^i % 256)) = nSize % 256^n := by
  induction n with
  | zero => simp [littleEndian, Nat.mod_one]
  | succ n ih =>
    have hbyte : (UInt8.ofNat (nSize/256^n % 256)).toNat = nSize/256^n % 256 := by
      rw [UInt8.toNat_ofNat']
      omega
    rw [List.range_succ, List.map_append, littleEndian_append, ih, List.length_map,
      List.length_range, List.map_singleton, littleEndian, littleEndian, hbyte, mul_zero, add_zero,
      Nat.mod_pow_succ]

/-- An operand behind its size bytes. -/
theorem operandOf_sized {opcode nSize : ℕ} (size : List UInt8) {b : List UInt8} (rest : CScript)
    (hsize : nSize = b.length)
    (hread : (if opcode < opPushData1 then opcode else littleEndian size) = nSize) :
    operandOf opcode size.length (size ++ (b ++ rest)) =
      if (b.length+rest.length) % 2^32 < b.length then none else some (opcode, b, rest) := by
  have hlong : ¬(size ++ (b ++ rest)).length < size.length := by
    rw [List.length_append]
    omega
  subst hsize
  rw [operandOf, if_neg hlong]
  simp only [List.take_left, List.drop_left, hread, List.length_append]

/-- `GetOp` of the three opcodes that are followed by a size. -/
theorem getOp_sized {opcode n : ℕ} {b : List UInt8} (rest : CScript) (hb : b.length < 256^n)
    (hop : (opcode = opPushData1 ∧ n = 1) ∨ (opcode = opPushData2 ∧ n = 2) ∨
      (opcode = opPushData4 ∧ n = 4)) :
    getOp ((UInt8.ofNat opcode :: (((List.range n).map fun i =>
        UInt8.ofNat (b.length/256^i % 256)) ++ b)) ++ rest) =
      if (b.length+rest.length) % 2^32 < b.length then none else some (opcode, b, rest) := by
  have hsize := littleEndian_sizeBytes b.length n
  have hlen : ((List.range n).map fun i => UInt8.ofNat (b.length/256^i % 256)).length = n := by simp
  generalize ((List.range n).map fun i => UInt8.ofNat (b.length/256^i % 256)) = size at hsize hlen ⊢
  rw [Nat.mod_eq_of_lt hb] at hsize
  have hread : (if opcode < opPushData1 then opcode else littleEndian size) = b.length := by
    rw [if_neg, hsize]
    simp only [opPushData1, opPushData2, opPushData4] at hop ⊢
    omega
  have hoperand := operandOf_sized size rest rfl hread
  rw [hlen] at hoperand
  rw [List.cons_append, List.append_assoc, getOp_cons]
  obtain ⟨rfl,rfl⟩ | ⟨rfl,rfl⟩ | ⟨rfl,rfl⟩ := hop
  · exact hoperand
  · exact hoperand
  · exact hoperand

/-- `GetOp` of a push gives the data back unless what is left behind the size, in 32 bits, looks
shorter than it. -/
theorem getOp_pushData {b : List UInt8} (hb : b.length < 2^32) (rest : CScript) :
    getOp (pushData b ++ rest) = if (b.length+rest.length) % 2^32 < b.length then none
      else some (pushClass b.length, b, rest) := by
  simp only [pushData, pushClass]
  by_cases hdirect : b.length < opPushData1
  · have hbyte : (UInt8.ofNat (b.length/256^0 % 256)).toNat = b.length := by
      rw [opPushData1] at hdirect
      rw [UInt8.toNat_ofNat']
      omega
    have hpush : b.length ≤ opPushData4 := hdirect.le.trans (by decide)
    rw [if_pos hdirect, if_pos hdirect, List.append_assoc]
    change getOp (UInt8.ofNat (b.length/256^0 % 256) :: (b ++ rest)) = _
    rw [getOp_cons, hbyte, if_pos hpush, if_pos hdirect]
    exact operandOf_sized [] rest rfl (if_pos hdirect)
  · rw [if_neg hdirect, if_neg hdirect]
    by_cases hshort : b.length ≤ 0xff
    · rw [if_pos hshort, if_pos hshort]
      exact getOp_sized rest (by omega) (Or.inl ⟨rfl,rfl⟩)
    · rw [if_neg hshort, if_neg hshort]
      by_cases hmedium : b.length ≤ 0xffff
      · rw [if_pos hmedium, if_pos hmedium]
        exact getOp_sized rest (by omega) (Or.inr (Or.inl ⟨rfl,rfl⟩))
      · rw [if_neg hmedium, if_neg hmedium]
        exact getOp_sized rest (by omega) (Or.inr (Or.inr ⟨rfl,rfl⟩))

theorem getOp_opcode {n : ℕ} (hn : n = 0 ∨ (opPushData4 < n ∧ n ≤ 0xff)) (rest : CScript) :
    getOp (UInt8.ofNat n :: rest) = some (n, [], rest) := by
  have hbyte : (UInt8.ofNat n).toNat = n := by
    rw [UInt8.toNat_ofNat']
    omega
  rw [getOp_cons, hbyte]
  obtain rfl | ⟨hlo,hhi⟩ := hn
  · simp [operandOf, opPushData1]
  · rw [if_neg (Nat.not_le.mpr hlo)]

end Push

section Items

/-- The bytes of an item that can be pushed. -/
def ScriptItem.bytes (item : ScriptItem) : CScript := item.push.getD []

theorem ScriptItem.push_eq {item : ScriptItem} (h : item.Valid) : item.push = some item.bytes := by
  cases item with
  | opcode n =>
    have hbyte : ¬n > 0xff := by
      rcases h with rfl | ⟨-,hle⟩
      · decide
      · omega
    simp only [bytes, push, pushOpcode, if_neg hbyte, Option.getD_some]
  | _ => rfl

theorem buildScript_eq {items : List ScriptItem} (h : ∀ item ∈ items, item.Valid) :
    buildScript items = some (items.flatMap ScriptItem.bytes) := by
  have hfold : ∀ script : CScript,
      items.foldlM (fun script item => item.push.map (script ++ ·)) script =
        some (script ++ items.flatMap ScriptItem.bytes) := by
    induction items with
    | nil => intro script; simp
    | cons item items ih =>
      intro script
      rw [List.foldlM_cons, ScriptItem.push_eq (h item List.mem_cons_self), Option.map_some,
        Option.bind_eq_bind, Option.bind_some, ih fun item hitem => h item (List.mem_cons_of_mem _ hitem),
        List.flatMap_cons, List.append_assoc]
  exact hfold []

theorem getOp_pushInt64 {n : ℤ} (hn : (bnGetvch n).length < 2^32) (rest : CScript) :
    getOp (pushInt64 n ++ rest) =
      if ((integerInstruction n).2.length+rest.length) % 2^32 < (integerInstruction n).2.length
      then none else some ((integerInstruction n).1, (integerInstruction n).2, rest) := by
  rw [pushInt64, integerInstruction]
  by_cases hsmall : n = -1 ∨ (1 ≤ n ∧ n ≤ 16)
  · rw [if_pos hsmall, if_pos hsmall, List.singleton_append, getOp_opcode]
    · simp
    · simp only [op1, opPushData4]
      omega
  · rw [if_neg hsmall, if_neg hsmall]
    exact getOp_pushData hn rest

/-- A 64-bit number takes at most nine bytes. -/
theorem bnGetvch_int64_length {n : ℤ} (hlo : -2^63 ≤ n) (hhi : n < 2^64) :
    (bnGetvch n).length ≤ 9 := by
  apply bnGetvch_length_le
  omega

/-- `GetOp` gives an item back unless the script behind it is cut below its size. -/
theorem getOp_item {item : ScriptItem} (h : item.Valid) (rest : CScript) :
    getOp (item.bytes ++ rest) =
      if (item.instruction.2.length+rest.length) % 2^32 < item.instruction.2.length
      then none else some (item.instruction.1, item.instruction.2, rest) := by
  cases item with
  | data b => exact getOp_pushData h rest
  | opcode n =>
    have hbyte : ¬n > 0xff := by
      rcases h with rfl | ⟨-,hle⟩
      · decide
      · omega
    have hbytes : (ScriptItem.opcode n).bytes = [UInt8.ofNat n] := by
      simp only [ScriptItem.bytes, ScriptItem.push, pushOpcode, if_neg hbyte, Option.getD_some]
    rw [hbytes, List.singleton_append, getOp_opcode h]
    simp [ScriptItem.instruction]
  | int64 n =>
    have hlen := bnGetvch_int64_length n.le_toInt (n.toInt_lt.trans (by decide))
    exact getOp_pushInt64 (by omega) rest
  | uint64 n =>
    have hlen := bnGetvch_int64_length (n := n.toNat) (by omega) (by have := n.toNat_lt; omega)
    have hbytes : (ScriptItem.uint64 n).bytes = pushInt64 n.toNat := (pushInt64_natCast n.toNat).symm
    rw [hbytes]
    exact getOp_pushInt64 (by omega) rest

/-- At every item, what is left of the script from its data on, kept in 32 bits, is not shorter
than the data. -/
def PushesFit : List ScriptItem → Prop
  | [] => True
  | item :: items => item.instruction.2.length ≤
      (item.instruction.2.length+(items.flatMap ScriptItem.bytes).length) % 2^32 ∧ PushesFit items

/-- `GetOp` runs through the items up to the first one that does not fit. -/
theorem getOps_items_iff {items : List ScriptItem} (h : ∀ item ∈ items, item.Valid) {fuel : ℕ}
    (hfuel : (items.flatMap ScriptItem.bytes).length < fuel) :
    getOps fuel (items.flatMap ScriptItem.bytes) = some (items.map ScriptItem.instruction, []) ↔
      PushesFit items := by
  induction items generalizing fuel with
  | nil =>
    obtain ⟨fuel,rfl⟩ := Nat.exists_eq_add_of_lt hfuel
    simp [getOps, getOp, PushesFit]
  | cons item items ih =>
    obtain ⟨fuel,rfl⟩ : ∃ k, fuel = k+1 := ⟨fuel-1, by omega⟩
    have hitem := getOp_item (h item List.mem_cons_self) (items.flatMap ScriptItem.bytes)
    have htail : ∀ item' ∈ items, item'.Valid := fun _ hmem => h _ (List.mem_cons_of_mem _ hmem)
    rw [List.flatMap_cons] at hfuel ⊢
    rw [getOps, PushesFit, hitem]
    by_cases hcut : (item.instruction.2.length+(items.flatMap ScriptItem.bytes).length) % 2^32 <
        item.instruction.2.length
    · rw [if_pos hcut]
      exact iff_of_false (by simp) fun hfit => absurd hfit.1 (Nat.not_le.mpr hcut)
    · rw [if_neg hcut] at hitem ⊢
      have hshort := getOp_shortens hitem
      have htailFuel : (items.flatMap ScriptItem.bytes).length < fuel := by omega
      have hrest := ih htail htailFuel
      simp only [Option.map_eq_some_iff, Prod.exists, Prod.mk.injEq, List.map_cons, List.cons.injEq,
        Nat.not_lt.mp hcut, true_and]
      rw [← hrest]
      constructor
      · rintro ⟨ops,rest,hops,rfl,rfl⟩
        exact hops
      · exact fun hops => ⟨_,_,hops,rfl,rfl⟩

theorem pushData_length_le (b : List UInt8) : b.length ≤ (pushData b).length := by
  obtain ⟨size,heq,-⟩ := pushData_eq b
  rw [heq, List.length_append]
  exact Nat.le_add_left _ _

theorem integerInstruction_length_le (n : ℤ) :
    (integerInstruction n).2.length ≤ (pushInt64 n).length := by
  rw [integerInstruction, pushInt64]
  split_ifs
  · exact Nat.zero_le _
  · exact pushData_length_le _

theorem instruction_length_le {item : ScriptItem} (h : item.Valid) :
    item.instruction.2.length ≤ item.bytes.length := by
  cases item with
  | data b => exact pushData_length_le b
  | opcode n => exact Nat.zero_le _
  | int64 n => exact integerInstruction_length_le n.toInt
  | uint64 n =>
    have hbytes : (ScriptItem.uint64 n).bytes = pushInt64 n.toNat := (pushInt64_natCast n.toNat).symm
    rw [hbytes]
    exact integerInstruction_length_le n.toNat

/-- Nothing is cut in a script of less than 4 GiB. -/
theorem pushesFit_of_length {items : List ScriptItem} (h : ∀ item ∈ items, item.Valid)
    (hlen : (items.flatMap ScriptItem.bytes).length < 2^32) : PushesFit items := by
  induction items with
  | nil => trivial
  | cons item items ih =>
    have hitem := instruction_length_le (h item List.mem_cons_self)
    rw [List.flatMap_cons, List.length_append] at hlen
    refine ⟨?_, ih (fun _ hmem => h _ (List.mem_cons_of_mem _ hmem)) (by omega)⟩
    rw [Nat.mod_eq_of_lt (by omega)]
    exact Nat.le_add_right _ _

end Items

section Evaluate
variable (env : EvalEnv) (ctx : EvalContext)

theorem executeOpcode_integer {st : EvalState} {n : ℤ} (hsize : (bnGetvch n).length ≤ 9)
    (hexec : st.fExec = true) :
    executeOpcode env ctx (integerInstruction n).1 (integerInstruction n).2 st =
      pure { st with stack := bnGetvch n :: st.stack } := by
  rw [executeOpcode, integerInstruction]
  by_cases hsmall : n = -1 ∨ (1 ≤ n ∧ n ≤ 16)
  · have hnopush : ¬(n+(op1-1)).toNat ≤ opPushData4 := by
      simp only [op1, opPushData4]
      omega
    have hvalue : (((n+(op1-1)).toNat : ℕ) : ℤ)-(op1-1) = n := by
      simp only [op1]
      omega
    have hnumber : (n+(op1-1)).toNat = op1Negate ∨
        (op1 ≤ (n+(op1-1)).toNat ∧ (n+(op1-1)).toNat ≤ op16) := by
      simp only [op1, op16, op1Negate]
      omega
    rw [if_pos hsmall]
    simp only [hexec, hnopush, and_false, if_false, true_or, if_true, decodeOp, if_pos hnumber,
      hvalue, evalOp, evalStackOp, pure_bind]
  · have hdirect : (bnGetvch n).length < opPushData1 := lt_of_le_of_lt hsize (by decide)
    rw [if_neg hsmall, pushClass, if_pos hdirect, if_pos ⟨hexec,hdirect.le.trans (by decide)⟩]

/-- The opcodes of integers are pushes. -/
theorem integerInstruction_push {n : ℤ} (hsize : (bnGetvch n).length ≤ 9) :
    (integerInstruction n).1 ≤ op16 ∧ (integerInstruction n).1 ∉ disabledOpcodes := by
  have hle : (integerInstruction n).1 ≤ op16 := by
    rw [integerInstruction]
    split_ifs with hsmall
    · simp only [op1, op16]
      omega
    · have hdirect : (bnGetvch n).length < opPushData1 := lt_of_le_of_lt hsize (by decide)
      rw [pushClass, if_pos hdirect]
      exact hdirect.le.trans (by decide)
  refine ⟨hle, fun hmem => ?_⟩
  have hdisabled : ∀ opcode ∈ disabledOpcodes, ¬opcode ≤ op16 := by decide
  exact hdisabled _ hmem hle

/-- An integer item in an executed branch leaves one element, which stands for the integer. -/
theorem evalStep_integer {st : EvalState} {n : ℤ} {rest : CScript} {s : ℕ} (hlo : -2^63 ≤ n)
    (hhi : n < 2^64) (hpc : st.pc = pushInt64 n ++ rest) (hlen : st.pc.length ≤ 10000)
    (hexec : st.fExec = true) (hroom : st.stack.length+st.altstack.length < 1000) :
    (evalStep env ctx st).run.run s =
      (.ok { st with pc := rest, stack := bnGetvch n :: st.stack }, s) := by
  have hsize := bnGetvch_int64_length hlo hhi
  have hop := getOp_pushInt64 (n := n) (by omega) rest
  have hlen' : (integerInstruction n).2.length+rest.length ≤ 10000 := by
    rw [hpc, List.length_append] at hlen
    exact (Nat.add_le_add_right (integerInstruction_length_le n) _).trans hlen
  rw [if_neg (by rw [Nat.mod_eq_of_lt (by omega)]; omega), ← hpc] at hop
  have hstep : wp (evalStep env ctx st)
      (fun st' s' => st' = { st with pc := rest, stack := bnGetvch n :: st.stack } ∧ s' = s)
      (fun _ _ => False) s := by
    obtain ⟨hpush,henabled⟩ := integerInstruction_push hsize
    simp only [evalStep, hop]
    rw [wp_bind, wp_returnFalseIf]
    refine ⟨fun hlong => ?_, fun _ => ?_⟩
    · have : (integerInstruction n).2.length ≤ 9 := by
        rw [integerInstruction]
        split_ifs
        · exact Nat.zero_le _
        · exact hsize
      simp only [maxScriptElementSize] at hlong
      omega
    rw [wp_bind, wp_returnFalseIf]
    refine ⟨fun hops => absurd hops.1 (Nat.not_lt.mpr hpush), fun _ => ?_⟩
    rw [wp_bind, wp_returnFalseIf]
    refine ⟨fun hdisabled => absurd hdisabled henabled, fun _ => ?_⟩
    rw [if_neg (Nat.not_lt.mpr hpush), wp_bind, executeOpcode_integer env ctx hsize (by exact hexec),
      wp_pure, wp_bind, wp_returnFalseIf]
    refine ⟨fun hfull => ?_, fun _ => ?_⟩
    · simp only [List.length_cons] at hfull
      omega
    · rw [wp_pure]
      exact ⟨rfl,rfl⟩
  obtain ⟨st',s',hrun,rfl,rfl⟩ := run_of_wp hstep
  exact hrun

end Evaluate

section RoundTrip
open Candypool.Pool

theorem value_in_range {item : ScriptItem} {n : ℤ} (h : item.value = some n) :
    item.push = some (pushInt64 n) ∧ -2^63 ≤ n ∧ n < 2^64 := by
  cases item with
  | data b => cases h
  | opcode k => cases h
  | int64 k =>
    obtain rfl := Option.some.inj h
    exact ⟨rfl, k.le_toInt, k.toInt_lt.trans (by decide)⟩
  | uint64 k =>
    obtain rfl := Option.some.inj h
    refine ⟨congrArg some (pushInt64_natCast k.toNat).symm, by omega, ?_⟩
    have := k.toNat_lt
    omega

/-- Building a script and taking it apart are inverse on scripts that are not cut at 32 bits, thus
on all of less than 4 GiB; integers evaluate to themselves, the two ways to push a number agree, so
that the coinbase starts with the height that is demanded; and on any bytes at all the parser stays
inside the vector and its loops end. -/
theorem script_build_parse_inverse :
    (∀ items : List ScriptItem, (∀ item ∈ items, item.Valid) →
      ∃ script, buildScript items = some script ∧
        ((∀ fuel, script.length < fuel →
          getOps fuel script = some (items.map ScriptItem.instruction, [])) ↔ PushesFit items) ∧
        (script.length < 2^32 → PushesFit items)) ∧
    (∀ (env : EvalEnv) (ctx : EvalContext) (item : ScriptItem) (n : ℤ) (bytes rest : CScript)
      (st : EvalState) (s : ℕ), item.value = some n → item.push = some bytes →
      st.pc = bytes ++ rest → st.pc.length ≤ 10000 → st.fExec = true →
      st.stack.length+st.altstack.length < 1000 →
      ∃ vch, (evalStep env ctx st).run.run s =
        (.ok { st with pc := rest, stack := vch :: st.stack }, s) ∧ setvch vch = n) ∧
    (∀ n : ℕ, n < 2^63 → pushInt64 n = pushUint64 n) ∧
    (∀ (p : PoolParams) (nHeight nExtraNonce : ℕ), nHeight < 2^31 →
      (pushInt64 nHeight).isPrefixOf (coinbaseScript p nHeight nExtraNonce) = true) ∧
    (∀ (script : CScript) (pc : ℕ), pc ≤ script.length →
      ∃ r, getOp2 script pc = some r ∧ r.pc ≤ script.length ∧
        r.rest script = getOp (script.drop pc)) ∧
    (∀ script : CScript, ∃ r, ∀ fuel, script.length < fuel → getOps fuel script = some r) ∧
    ∀ script b : CScript, ∃ r, ∀ fuel, script.length < fuel →
      findAndDelete fuel script b = some r := by
  refine ⟨?_, ?_, fun n _ => pushInt64_natCast n, ?_, fun script pc => getOp2_in_bounds,
    getOps_terminates, findAndDelete_terminates⟩
  · intro items hvalid
    refine ⟨_, buildScript_eq hvalid, ⟨fun hall => ?_, fun hfit fuel hfuel => ?_⟩,
      pushesFit_of_length hvalid⟩
    · exact (getOps_items_iff hvalid (Nat.lt_succ_self _)).mp (hall _ (Nat.lt_succ_self _))
    · exact (getOps_items_iff hvalid hfuel).mpr hfit
  · intro env ctx item n bytes rest st s hvalue hbytes hpc hlen hexec hroom
    obtain ⟨hpush,hlo,hhi⟩ := value_in_range hvalue
    obtain rfl := Option.some.inj (hbytes.symm.trans hpush)
    exact ⟨_, evalStep_integer env ctx hlo hhi hpc hlen hexec hroom, setvch_bnGetvch n⟩
  · intro p nHeight nExtraNonce _
    rw [List.isPrefixOf_iff_prefix, pushInt64_natCast, coinbaseScript, List.append_assoc,
      List.append_assoc]
    exact List.prefix_append _ _

/-- The number 300 is pushed as two bytes, and evaluates to itself. -/
theorem script_build_parse_inverse_300 :
    (∃ script, buildScript [.int64 300, .opcode 0xac] = some script ∧
      getOps (script.length+1) script = some ([(2,[0x2c,0x01]), (0xac,[])], [])) ∧
    ∃ vch, setvch vch = 300 := by
  have hvalid : ∀ item ∈ [ScriptItem.int64 300, ScriptItem.opcode 0xac], item.Valid := by
    intro item hitem
    rcases List.mem_cons.mp hitem with rfl | hitem
    · trivial
    · obtain rfl := List.mem_singleton.mp hitem
      exact Or.inr (by decide)
  refine ⟨?_, ?_⟩
  · obtain ⟨script,hbuild,hparse,hfit⟩ := script_build_parse_inverse.1 _ hvalid
    refine ⟨script,hbuild,?_⟩
    have hlen : script.length < 2^32 := by
      obtain rfl : [0x02,0x2c,0x01,0xac] = script := Option.some.inj hbuild
      decide
    exact hparse.mpr (hfit hlen) _ (Nat.lt_succ_self _)
  · obtain ⟨vch,-,hvch⟩ := script_build_parse_inverse.2.1 zeroEnv emptyContext (.int64 300) 300
      (pushInt64 300) [] (.init [] (pushInt64 300)) 0 rfl rfl (by rfl) (by decide) rfl (by decide)
    exact ⟨vch,hvch⟩

/-- Behind the size of the first of two pushes of 2 GiB there are `2^32+5` bytes. -/
theorem not_pushesFit_two {b : List UInt8} (hlen : b.length = 2^31) :
    ¬PushesFit [.data b, .data b] := by
  intro hfit
  obtain ⟨size,hpush,hsize⟩ := pushData_eq b
  rw [if_neg (by rw [opPushData1]; omega), if_neg (by omega), if_neg (by omega)] at hsize
  have htail : ([ScriptItem.data b].flatMap ScriptItem.bytes).length = 2^31+5 := by
    have hbytes : (ScriptItem.data b).bytes = pushData b := rfl
    rw [List.flatMap_singleton, hbytes, hpush, List.length_append, hsize, hlen]
    omega
  have hfirst := hfit.1
  have hdata : (ScriptItem.data b).instruction.2.length = 2^31 := hlen
  rw [htail, hdata] at hfirst
  omega

theorem exists_bytes (n : ℕ) : ∃ b : List UInt8, b.length = n :=
  ⟨List.replicate n 0, List.length_replicate⟩

/-- Two pushes of 2 GiB: of the bytes behind the first size the parser sees five. -/
theorem script_parser_cuts_at_4GiB : ¬∀ items : List ScriptItem, (∀ item ∈ items, item.Valid) →
    ∃ script, buildScript items = some script ∧ ∀ fuel, script.length < fuel →
      getOps fuel script = some (items.map ScriptItem.instruction, []) := by
  intro hclaim
  obtain ⟨b,hlen⟩ := exists_bytes (2^31)
  have hvalid : ∀ item ∈ [ScriptItem.data b, ScriptItem.data b], item.Valid := by
    intro item hitem
    have hitem' : item = ScriptItem.data b := by simpa using hitem
    have hb : b.length < 2^32 := by omega
    rw [hitem']
    exact hb
  obtain ⟨script,hbuild,hparse⟩ := hclaim _ hvalid
  rw [buildScript_eq hvalid] at hbuild
  obtain rfl := Option.some.inj hbuild
  exact not_pushesFit_two hlen
    ((getOps_items_iff hvalid (Nat.lt_succ_self _)).mp (hparse _ (Nat.lt_succ_self _)))

end RoundTrip

end Candypool.Script
