import Candypool.Core.Block
import Candypool.Lib.Fallible
import Candypool.Script.Parser
import Candypool.Script.ScriptNum

/-! The stack machine of script.cpp. A stack is a list with its top first. Leaving `EvalScript`
by `return false` and the two kinds of exceptions thrown inside it are told apart, although the
handler answers all of them with `false`. -/
namespace Candypool.Script
open Candypool.Prime Candypool.Core Candypool.Lib

def maxScriptElementSize : ℕ := 520

/-- How the loop of `EvalScript` is left before the end of the script. -/
inductive EvalError
  | returnFalse
  /-- `at`, `popstack` or an iterator of `erase` and `insert` outside a stack -/
  | outOfRange
  /-- `CastToBigNum` of an element that is too long -/
  | castOverflow (vch : Valtype)
  deriving DecidableEq, Repr

/-- The state counts the calls of `CheckSig`. -/
abbrev EvalM (α : Type) := Fallible ℕ EvalError α

def returnFalseIf (c : Prop) [Decidable c] : EvalM PUnit :=
  if c then throw .returnFalse else pure ⟨⟩

def castToBigNum (vch : Valtype) : EvalM CBigNum :=
  if vch.length > 4 then throw (.castOverflow vch) else pure (setvch (bnGetvch (setvch vch)))

/-- A vector's size as an `int`. -/
def castInt (n : ℕ) : ℤ := (n : ℤ).bmod (2^32)

section Stack

/-- `stacktop(-i)`. -/
def stacktop : List Valtype → ℕ → EvalM Valtype
  | _, 0 => throw .outOfRange
  | stack, i+1 => match stack[i]? with
    | some vch => pure vch
    | none => throw .outOfRange

def popstack : List Valtype → EvalM (List Valtype)
  | [] => throw .outOfRange
  | _ :: stack => pure stack

def popstackTimes : ℕ → List Valtype → EvalM (List Valtype)
  | 0, stack => pure stack
  | i+1, stack => do
    let stack ← popstack stack
    popstackTimes i stack

/-- `stack.erase(stack.end()-i, stack.end()-j)`. -/
def eraseTop (stack : List Valtype) (i j : ℕ) : EvalM (List Valtype) :=
  if j ≤ i ∧ i ≤ stack.length then pure (stack.take j ++ stack.drop i) else throw .outOfRange

/-- `stack.insert(stack.end()-i, vch)`. -/
def insertTop (stack : List Valtype) (i : ℕ) (vch : Valtype) : EvalM (List Valtype) :=
  if i ≤ stack.length then pure (stack.take i ++ vch :: stack.drop i) else throw .outOfRange

/-- `swap(stacktop(-i), stacktop(-j))`. -/
def swapTop (stack : List Valtype) (i j : ℕ) : EvalM (List Valtype) := do
  let vch1 ← stacktop stack i
  let vch2 ← stacktop stack j
  return (stack.set (i-1) vch2).set (j-1) vch1

def vchFalse : Valtype := []
def vchTrue : Valtype := [1]

def vchBool (fValue : Bool) : Valtype := if fValue then vchTrue else vchFalse

/-- What the `VERIFY` forms do with the result on top of the stack. -/
def verifyTop (fVerify fValue : Bool) (stack : List Valtype) : EvalM (List Valtype) :=
  if fVerify then if fValue then popstack stack else throw .returnFalse else pure stack

end Stack

section Opcodes

inductive UnaryOp
  | add1 | sub1 | negate | abs | not | notEqual0
  deriving DecidableEq, Repr

inductive BinaryOp
  | add | sub | boolAnd | boolOr | numEqual | numNotEqual | lessThan | greaterThan
  | lessThanOrEqual | greaterThanOrEqual | min | max
  deriving DecidableEq, Repr

inductive HashOp
  | ripemd160 | sha1 | sha256 | hash160 | hash256
  deriving DecidableEq, Repr

/-- The opcodes that work on the stack alone. -/
inductive StackOp
  | number (n : ℤ)
  | drop2 | dup2 | dup3 | over2 | rot2 | swap2 | ifDup | depth | drop | dup | nip | opOver
  | pick | roll | rot | swap | tuck | size | verify
  | equal (fVerify : Bool)
  | unary (op : UnaryOp)
  | binary (op : BinaryOp) (fVerify : Bool)
  | within
  | hash (op : HashOp)
  deriving DecidableEq, Repr

inductive ScriptOp
  | nop
  | opIf (fNot : Bool)
  | opElse
  | opEndIf
  | opReturn
  | toAltStack
  | fromAltStack
  | stackOp (op : StackOp)
  | codeSeparator
  | checkSig (fVerify : Bool)
  | checkMultiSig (fVerify : Bool)
  deriving DecidableEq, Repr

def op1Negate : ℕ := 0x4f
def opIf : ℕ := 0x63
def opEndIf : ℕ := 0x68

/-- `OP_CAT`, `OP_SUBSTR`, `OP_LEFT`, `OP_RIGHT`, `OP_INVERT`, `OP_AND`, `OP_OR`, `OP_XOR`, `OP_2MUL`,
`OP_2DIV`, `OP_MUL`, `OP_DIV`, `OP_MOD`, `OP_LSHIFT`, `OP_RSHIFT`. -/
def disabledOpcodes : List ℕ :=
  [0x7e, 0x7f, 0x80, 0x81, 0x83, 0x84, 0x85, 0x86, 0x8d, 0x8e, 0x95, 0x96, 0x97, 0x98, 0x99]

/-- The cases of the `switch` but for the small numbers. -/
def opcodeTable : List (ℕ × ScriptOp) :=
  [(0x61, .nop), (0xb0, .nop), (0xb1, .nop), (0xb2, .nop), (0xb3, .nop), (0xb4, .nop),
    (0xb5, .nop), (0xb6, .nop), (0xb7, .nop), (0xb8, .nop), (0xb9, .nop),
    (0x63, .opIf false), (0x64, .opIf true), (0x67, .opElse), (0x68, .opEndIf),
    (0x69, .stackOp .verify), (0x6a, .opReturn), (0x6b, .toAltStack), (0x6c, .fromAltStack),
    (0x6d, .stackOp .drop2), (0x6e, .stackOp .dup2), (0x6f, .stackOp .dup3),
    (0x70, .stackOp .over2), (0x71, .stackOp .rot2), (0x72, .stackOp .swap2),
    (0x73, .stackOp .ifDup), (0x74, .stackOp .depth), (0x75, .stackOp .drop),
    (0x76, .stackOp .dup), (0x77, .stackOp .nip), (0x78, .stackOp .opOver),
    (0x79, .stackOp .pick), (0x7a, .stackOp .roll), (0x7b, .stackOp .rot),
    (0x7c, .stackOp .swap), (0x7d, .stackOp .tuck), (0x82, .stackOp .size),
    (0x87, .stackOp (.equal false)), (0x88, .stackOp (.equal true)),
    (0x8b, .stackOp (.unary .add1)), (0x8c, .stackOp (.unary .sub1)),
    (0x8f, .stackOp (.unary .negate)), (0x90, .stackOp (.unary .abs)),
    (0x91, .stackOp (.unary .not)), (0x92, .stackOp (.unary .notEqual0)),
    (0x93, .stackOp (.binary .add false)), (0x94, .stackOp (.binary .sub false)),
    (0x9a, .stackOp (.binary .boolAnd false)), (0x9b, .stackOp (.binary .boolOr false)),
    (0x9c, .stackOp (.binary .numEqual false)), (0x9d, .stackOp (.binary .numEqual true)),
    (0x9e, .stackOp (.binary .numNotEqual false)), (0x9f, .stackOp (.binary .lessThan false)),
    (0xa0, .stackOp (.binary .greaterThan false)),
    (0xa1, .stackOp (.binary .lessThanOrEqual false)),
    (0xa2, .stackOp (.binary .greaterThanOrEqual false)),
    (0xa3, .stackOp (.binary .min false)), (0xa4, .stackOp (.binary .max false)),
    (0xa5, .stackOp .within),
    (0xa6, .stackOp (.hash .ripemd160)), (0xa7, .stackOp (.hash .sha1)),
    (0xa8, .stackOp (.hash .sha256)), (0xa9, .stackOp (.hash .hash160)),
    (0xaa, .stackOp (.hash .hash256)), (0xab, .codeSeparator),
    (0xac, .checkSig false), (0xad, .checkSig true),
    (0xae, .checkMultiSig false), (0xaf, .checkMultiSig true)]

/-- The case of an opcode, none for the default. -/
def decodeOp (opcode : ℕ) : Option ScriptOp :=
  if opcode = op1Negate ∨ (op1 ≤ opcode ∧ opcode ≤ op16) then
    some (.stackOp (.number ((opcode : ℤ)-(op1-1))))
  else opcodeTable.lookup opcode

end Opcodes

/-- The hash functions and `CheckSig`, which the interpreter calls. -/
structure EvalEnv where
  ripemd160 : List UInt8 → Vector UInt8 20
  sha1 : List UInt8 → Vector UInt8 20
  sha256 : List UInt8 → Vector UInt8 32
  checkSig : Valtype → Valtype → CScript → CTransaction → ℕ → ℤ → ScriptFlags → Bool

/-- What `EvalScript` is given beside the stack and the script. -/
structure EvalContext where
  txTo : CTransaction
  nIn : ℕ
  flags : ScriptFlags
  nHashType : ℤ

structure EvalState where
  /-- what is left of the script -/
  pc : CScript
  /-- the script from the last code separator on -/
  pbegincodehash : CScript
  /-- the innermost branch first -/
  vfExec : List Bool
  stack : List Valtype
  altstack : List Valtype
  nOpCount : ℕ
  deriving DecidableEq, Repr

section Canonical

/-- `vch[i]`. -/
def byteAt (vch : Valtype) (i : ℕ) : ℕ := (vch.getD i 0).toNat

def isCanonicalPubKey (vchPubKey : Valtype) : Bool :=
  if vchPubKey.length < 33 then false
  else if byteAt vchPubKey 0 = 0x04 then vchPubKey.length == 65
  else if byteAt vchPubKey 0 = 0x02 ∨ byteAt vchPubKey 0 = 0x03 then vchPubKey.length == 33
  else false

/-- A number of a signature: where it starts and how long it is. -/
def isCanonicalNumber (vchSig : Valtype) (start len : ℕ) : Bool :=
  byteAt vchSig (start-2) == 0x02 && len != 0 && byteAt vchSig start &&& 0x80 == 0 &&
    !(decide (len > 1) && byteAt vchSig start == 0 && byteAt vchSig (start+1) &&& 0x80 == 0)

def isCanonicalSignature (vchSig : Valtype) : Bool :=
  let size := vchSig.length
  let nHashType := byteAt vchSig (size-1) &&& 0x7f
  let nLenR := byteAt vchSig 3
  let nLenS := byteAt vchSig (5+nLenR)
  if size < 9 then false
  else if size > 73 then false
  else if nHashType < 1 ∨ nHashType > 3 then false
  else if byteAt vchSig 0 ≠ 0x30 then false
  else if byteAt vchSig 1 ≠ size-3 then false
  else if 5+nLenR ≥ size then false
  else if nLenR+nLenS+7 ≠ size then false
  else isCanonicalNumber vchSig 4 nLenR && isCanonicalNumber vchSig (6+nLenR) nLenS

end Canonical

section Numeric

def evalUnary (bn : CBigNum) : UnaryOp → CBigNum
  | .add1 => bn+1
  | .sub1 => bn-1
  | .negate => -bn
  | .abs => if bn < 0 then -bn else bn
  | .not => if bn = 0 then 1 else 0
  | .notEqual0 => if bn ≠ 0 then 1 else 0

def evalBinary (bn1 bn2 : CBigNum) : BinaryOp → CBigNum
  | .add => bn1+bn2
  | .sub => bn1-bn2
  | .boolAnd => if bn1 ≠ 0 ∧ bn2 ≠ 0 then 1 else 0
  | .boolOr => if bn1 ≠ 0 ∨ bn2 ≠ 0 then 1 else 0
  | .numEqual => if bn1 = bn2 then 1 else 0
  | .numNotEqual => if bn1 ≠ bn2 then 1 else 0
  | .lessThan => if bn1 < bn2 then 1 else 0
  | .greaterThan => if bn1 > bn2 then 1 else 0
  | .lessThanOrEqual => if bn1 ≤ bn2 then 1 else 0
  | .greaterThanOrEqual => if bn1 ≥ bn2 then 1 else 0
  | .min => if bn1 < bn2 then bn1 else bn2
  | .max => if bn1 > bn2 then bn1 else bn2

end Numeric

section Eval
variable (env : EvalEnv) (ctx : EvalContext)

def evalHash (vch : Valtype) : HashOp → Valtype
  | .ripemd160 => (env.ripemd160 vch).toList
  | .sha1 => (env.sha1 vch).toList
  | .sha256 => (env.sha256 vch).toList
  | .hash160 => (env.ripemd160 (env.sha256 vch).toList).toList
  | .hash256 => (env.sha256 (env.sha256 vch).toList).toList

def evalStackOp (stack : List Valtype) : StackOp → EvalM (List Valtype)
  | .number n => pure (bnGetvch n :: stack)
  | .verify => do
    returnFalseIf (stack.length < 1)
    let vch ← stacktop stack 1
    if castToBool vch then popstack stack else throw .returnFalse
  | .drop2 => do
    returnFalseIf (stack.length < 2)
    let stack ← popstack stack
    popstack stack
  | .dup2 => do
    returnFalseIf (stack.length < 2)
    let vch1 ← stacktop stack 2
    let vch2 ← stacktop stack 1
    return vch2 :: vch1 :: stack
  | .dup3 => do
    returnFalseIf (stack.length < 3)
    let vch1 ← stacktop stack 3
    let vch2 ← stacktop stack 2
    let vch3 ← stacktop stack 1
    return vch3 :: vch2 :: vch1 :: stack
  | .over2 => do
    returnFalseIf (stack.length < 4)
    let vch1 ← stacktop stack 4
    let vch2 ← stacktop stack 3
    return vch2 :: vch1 :: stack
  | .rot2 => do
    returnFalseIf (stack.length < 6)
    let vch1 ← stacktop stack 6
    let vch2 ← stacktop stack 5
    let stack ← eraseTop stack 6 4
    return vch2 :: vch1 :: stack
  | .swap2 => do
    returnFalseIf (stack.length < 4)
    let stack ← swapTop stack 4 2
    swapTop stack 3 1
  | .ifDup => do
    returnFalseIf (stack.length < 1)
    let vch ← stacktop stack 1
    return if castToBool vch then vch :: stack else stack
  | .depth => pure (bnGetvch stack.length :: stack)
  | .drop => do
    returnFalseIf (stack.length < 1)
    popstack stack
  | .dup => do
    returnFalseIf (stack.length < 1)
    let vch ← stacktop stack 1
    return vch :: stack
  | .nip => do
    returnFalseIf (stack.length < 2)
    eraseTop stack 2 1
  | .opOver => do
    returnFalseIf (stack.length < 2)
    let vch ← stacktop stack 2
    return vch :: stack
  | .pick => evalPick false stack
  | .roll => evalPick true stack
  | .rot => do
    returnFalseIf (stack.length < 3)
    let stack ← swapTop stack 3 2
    swapTop stack 2 1
  | .swap => do
    returnFalseIf (stack.length < 2)
    swapTop stack 2 1
  | .tuck => do
    returnFalseIf (stack.length < 2)
    let vch ← stacktop stack 1
    insertTop stack 2 vch
  | .size => do
    returnFalseIf (stack.length < 1)
    let vch ← stacktop stack 1
    return bnGetvch vch.length :: stack
  | .equal fVerify => do
    returnFalseIf (stack.length < 2)
    let vch1 ← stacktop stack 2
    let vch2 ← stacktop stack 1
    let fEqual := vch1 == vch2
    let stack ← popstack stack
    let stack ← popstack stack
    verifyTop fVerify fEqual (vchBool fEqual :: stack)
  | .unary op => do
    returnFalseIf (stack.length < 1)
    let vch ← stacktop stack 1
    let bn ← castToBigNum vch
    let stack ← popstack stack
    return bnGetvch (evalUnary bn op) :: stack
  | .binary op fVerify => do
    returnFalseIf (stack.length < 2)
    let vch1 ← stacktop stack 2
    let bn1 ← castToBigNum vch1
    let vch2 ← stacktop stack 1
    let bn2 ← castToBigNum vch2
    let stack ← popstack stack
    let stack ← popstack stack
    let vch := bnGetvch (evalBinary bn1 bn2 op)
    verifyTop fVerify (castToBool vch) (vch :: stack)
  | .within => do
    returnFalseIf (stack.length < 3)
    let vch1 ← stacktop stack 3
    let bn1 ← castToBigNum vch1
    let vch2 ← stacktop stack 2
    let bn2 ← castToBigNum vch2
    let vch3 ← stacktop stack 1
    let bn3 ← castToBigNum vch3
    let stack ← popstack stack
    let stack ← popstack stack
    let stack ← popstack stack
    return vchBool (decide (bn2 ≤ bn1) && decide (bn1 < bn3)) :: stack
  | .hash op => do
    returnFalseIf (stack.length < 1)
    let vch ← stacktop stack 1
    let stack ← popstack stack
    return evalHash env vch op :: stack
where
  /-- `OP_PICK` and `OP_ROLL`. -/
  evalPick (fRoll : Bool) (stack : List Valtype) : EvalM (List Valtype) := do
    returnFalseIf (stack.length < 2)
    let vch ← stacktop stack 1
    let bn ← castToBigNum vch
    let n := bnGetint bn
    let stack ← popstack stack
    returnFalseIf (n < 0 ∨ n ≥ castInt stack.length)
    let vch ← stacktop stack (n.toNat+1)
    if fRoll then do
      let stack ← eraseTop stack (n.toNat+1) n.toNat
      return vch :: stack
    else return vch :: stack

/-- The script without the pushes of a signature, which cannot sign itself. -/
def dropSignature (scriptCode : CScript) (vchSig : Valtype) : CScript :=
  ((findAndDelete (scriptCode.length+1) scriptCode (pushData vchSig)).getD (0, scriptCode)).2

/-- `CheckSig` after the encoding checks that `SCRIPT_VERIFY_STRICTENC` asks for. -/
def checkSigCounted (vchSig vchPubKey : Valtype) (scriptCode : CScript) : EvalM Bool :=
  if !ctx.flags.strictEnc || (isCanonicalSignature vchSig && isCanonicalPubKey vchPubKey) then do
    modify (·+1)
    return env.checkSig vchSig vchPubKey scriptCode ctx.txTo ctx.nIn ctx.nHashType ctx.flags
  else return false

def evalCheckSig (fVerify : Bool) (st : EvalState) : EvalM EvalState := do
  returnFalseIf (st.stack.length < 2)
  let vchSig ← stacktop st.stack 2
  let vchPubKey ← stacktop st.stack 1
  let fSuccess ←
    checkSigCounted env ctx vchSig vchPubKey (dropSignature st.pbegincodehash vchSig)
  let stack ← popstack st.stack
  let stack ← popstack stack
  let stack ← verifyTop fVerify fSuccess (vchBool fSuccess :: stack)
  return { st with stack := stack }

/-- The loop that drops the signatures from `stacktop(-isig)` on. -/
def dropSignatures (stack : List Valtype) : ℕ → ℕ → CScript → EvalM CScript
  | _, 0, scriptCode => pure scriptCode
  | isig, nSigsCount+1, scriptCode => do
    let vchSig ← stacktop stack isig
    dropSignatures stack (isig+1) nSigsCount (dropSignature scriptCode vchSig)

/-- `while (fSuccess && nSigsCount > 0)` of `OP_CHECKMULTISIG`. The guards before the loop and in it
keep `nSigsCount` from exceeding `nKeysCount`. -/
def multiSigLoop (stack : List Valtype) (scriptCode : CScript) : ℕ → ℕ → ℕ → ℕ → EvalM Bool
  | _, _, 0, _ => pure true
  | _, _, _+1, 0 => throw .outOfRange
  | isig, ikey, nSigsCount+1, nKeysCount+1 => do
    let vchSig ← stacktop stack isig
    let vchPubKey ← stacktop stack ikey
    let fOk ← checkSigCounted env ctx vchSig vchPubKey scriptCode
    let isig := if fOk then isig+1 else isig
    let nSigsCount := if fOk then nSigsCount else nSigsCount+1
    if nSigsCount > nKeysCount then return false
    else multiSigLoop stack scriptCode isig (ikey+1) nSigsCount nKeysCount

def evalCheckMultiSig (fVerify : Bool) (st : EvalState) : EvalM EvalState := do
  let stack := st.stack
  returnFalseIf (castInt stack.length < 1)
  let vch ← stacktop stack 1
  let bn ← castToBigNum vch
  returnFalseIf (bnGetint bn < 0 ∨ bnGetint bn > 20)
  let nKeysCount := (bnGetint bn).toNat
  let nOpCount := st.nOpCount+nKeysCount
  returnFalseIf (nOpCount > 201)
  let ikey := 2
  let i := ikey+nKeysCount
  returnFalseIf (castInt stack.length < i)
  let vch ← stacktop stack i
  let bn ← castToBigNum vch
  returnFalseIf (bnGetint bn < 0 ∨ bnGetint bn > nKeysCount)
  let nSigsCount := (bnGetint bn).toNat
  let isig := i+1
  let i := isig+nSigsCount
  returnFalseIf (castInt stack.length < i)
  let scriptCode ← dropSignatures stack isig nSigsCount st.pbegincodehash
  let fSuccess ← multiSigLoop env ctx stack scriptCode isig ikey nSigsCount nKeysCount
  let stack ← popstackTimes i stack
  let stack ← verifyTop fVerify fSuccess (vchBool fSuccess :: stack)
  return { st with stack := stack, nOpCount := nOpCount }

/-- The `switch`. -/
def evalOp (fExec : Bool) (st : EvalState) : ScriptOp → EvalM EvalState
  | .nop => pure st
  | .opIf fNot =>
    if fExec then do
      returnFalseIf (st.stack.length < 1)
      let vch ← stacktop st.stack 1
      let stack ← popstack st.stack
      return { st with stack := stack, vfExec := (castToBool vch ^^ fNot) :: st.vfExec }
    else pure { st with vfExec := false :: st.vfExec }
  | .opElse => match st.vfExec with
    | [] => throw .returnFalse
    | fValue :: vfExec => pure { st with vfExec := (!fValue) :: vfExec }
  | .opEndIf => match st.vfExec with
    | [] => throw .returnFalse
    | _ :: vfExec => pure { st with vfExec := vfExec }
  | .opReturn => throw .returnFalse
  | .toAltStack => do
    returnFalseIf (st.stack.length < 1)
    let vch ← stacktop st.stack 1
    let stack ← popstack st.stack
    return { st with stack := stack, altstack := vch :: st.altstack }
  | .fromAltStack => do
    returnFalseIf (st.altstack.length < 1)
    let vch ← stacktop st.altstack 1
    let altstack ← popstack st.altstack
    return { st with stack := vch :: st.stack, altstack := altstack }
  | .stackOp op => do
    let stack ← evalStackOp env st.stack op
    return { st with stack := stack }
  | .codeSeparator => pure { st with pbegincodehash := st.pc }
  | .checkSig fVerify => evalCheckSig env ctx fVerify st
  | .checkMultiSig fVerify => evalCheckMultiSig env ctx fVerify st

/-- `fExec`: every branch the instruction stands in is executed. -/
def EvalState.fExec (st : EvalState) : Bool := !st.vfExec.contains false

/-- What an instruction that was read does to the state; `pc` is behind it. -/
def executeOpcode (opcode : ℕ) (vchPushValue : Valtype) (st : EvalState) : EvalM EvalState :=
  if st.fExec = true ∧ opcode ≤ opPushData4 then
    pure { st with stack := vchPushValue :: st.stack }
  else if st.fExec = true ∨ (opIf ≤ opcode ∧ opcode ≤ opEndIf) then
    match decodeOp opcode with
    | none => throw .returnFalse
    | some op => evalOp env ctx st.fExec st op
  else pure st

/-- One turn of the loop of `EvalScript`. -/
def evalStep (st : EvalState) : EvalM EvalState :=
  match getOp st.pc with
  | none => throw .returnFalse
  | some (opcode,vchPushValue,pc) => do
    returnFalseIf (vchPushValue.length > maxScriptElementSize)
    let nOpCount := if opcode > op16 then st.nOpCount+1 else st.nOpCount
    returnFalseIf (opcode > op16 ∧ nOpCount > 201)
    returnFalseIf (opcode ∈ disabledOpcodes)
    let st ← executeOpcode env ctx opcode vchPushValue { st with pc := pc, nOpCount := nOpCount }
    returnFalseIf (st.stack.length+st.altstack.length > 1000)
    return st

/-- Every instruction takes a byte, so the length of the script bounds the turns. -/
def evalLoop : ℕ → EvalState → EvalM EvalState
  | 0, st => pure st
  | fuel+1, st => if st.pc = [] then pure st else do
    let st ← evalStep env ctx st
    evalLoop fuel st

def EvalState.init (stack : List Valtype) (script : CScript) : EvalState :=
  { pc := script, pbegincodehash := script, vfExec := [], stack := stack, altstack := [],
    nOpCount := 0 }

/-- The body of `EvalScript`, which leaves its stack in the state it ends with. -/
def evalBody (stack : List Valtype) (script : CScript) : EvalM EvalState := do
  returnFalseIf (script.length > 10000)
  let st ← evalLoop env ctx script.length (.init stack script)
  returnFalseIf (st.vfExec ≠ [])
  return st

/-- `EvalScript`: the stack it leaves when it returns true. -/
def evalScript (stack : List Valtype) (script : CScript) : EvalM (Option (List Valtype)) :=
  tryCatch (do
    let st ← evalBody env ctx stack script
    return some st.stack) fun _ => pure none

end Eval

end Candypool.Script
