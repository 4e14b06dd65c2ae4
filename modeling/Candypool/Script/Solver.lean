import Candypool.Core.Script
import Candypool.Script.ScriptNum

/-! The standard forms of an output script, and what they hold. -/
namespace Candypool.Script
open Candypool.Core Candypool.Prime

def opDup : ℕ := 0x76
def opEqualVerify : ℕ := 0x88
def opSmallInteger : ℕ := 0xfa
def opPubKeys : ℕ := 0xfb
def opPubKeyHash : ℕ := 0xfd
def opPubKey : ℕ := 0xfe

inductive TxnOutType
  | nonstandard
  | pubkey
  | pubkeyhash
  | scripthash
  | multisig
  deriving DecidableEq, Repr

/-- The templates, in the order of their types. -/
def mTemplates : List (TxnOutType × CScript) :=
  [(.pubkey,[opPubKey,opCheckSig].map UInt8.ofNat),
    (.pubkeyhash,[opDup,opHash160,opPubKeyHash,opEqualVerify,opCheckSig].map UInt8.ofNat),
    (.multisig,[opSmallInteger,opPubKeys,opSmallInteger,opCheckMultiSig].map UInt8.ofNat)]

/-- What the scan has read of a script last: the opcode and its data, and the script after it. -/
structure ScanStep where
  opcode : ℕ
  vch : Valtype
  pc : CScript

def scanOp (pc : CScript) : Option ScanStep := (getOp pc).map fun (opcode,vch,pc) => ⟨opcode,vch,pc⟩

/-- The loop over `OP_PUBKEYS`: every instruction takes a byte, so that the script bounds it. -/
def takePubKeys : ℕ → ScanStep → List Valtype → List Valtype × ScanStep
  | 0, step, vSolutions => (vSolutions,step)
  | fuel+1, step, vSolutions =>
    if 33 ≤ step.vch.length ∧ step.vch.length ≤ 120 then
      match scanOp step.pc with
      | none => (vSolutions ++ [step.vch],⟨opInvalidOpcode,[],step.pc⟩)
      | some next => takePubKeys fuel next (vSolutions ++ [step.vch])
    else (vSolutions,step)

/-- What an opcode of the template takes from the instruction it meets; nothing if they differ. -/
def matchOp (opcode2 : ℕ) (vch2 : Valtype) (step : ScanStep) : Option (List Valtype) :=
  if opcode2 = opPubKey then
    if step.vch.length < 33 ∨ step.vch.length > 120 then none else some [step.vch]
  else if opcode2 = opPubKeyHash then
    if step.vch.length ≠ 20 then none else some [step.vch]
  else if opcode2 = opSmallInteger then
    if step.opcode = 0 then some [[0]]
    else if op1 ≤ step.opcode ∧ step.opcode ≤ op16 then some [[UInt8.ofNat (step.opcode-(op1-1))]]
    else none
  else if step.opcode ≠ opcode2 ∨ step.vch ≠ vch2 then none
  else some []

/-- The comparison with one template, whose length bounds the turns. -/
def matchTemplate : ℕ → CScript → CScript → List Valtype → Option (List Valtype)
  | 0, _, _, _ => none
  | fuel+1, pc1, pc2, vSolutions =>
    if pc1 = [] ∧ pc2 = [] then some vSolutions
    else do
      let step1 ← scanOp pc1
      let step2 ← scanOp pc2
      if step2.opcode = opPubKeys then
        let (vSolutions,step1) := takePubKeys (step1.pc.length+1) step1 vSolutions
        let step2 ← scanOp step2.pc
        let found ← matchOp step2.opcode step2.vch step1
        matchTemplate fuel step1.pc step2.pc (vSolutions ++ found)
      else
        let found ← matchOp step2.opcode step2.vch step1
        matchTemplate fuel step1.pc step2.pc (vSolutions ++ found)

/-- Additional checks for TX_MULTISIG. -/
def multisigOk (vSolutions : List Valtype) : Bool :=
  let m := ((vSolutions.headD []).headD 0).toNat
  let n := ((vSolutions.getLastD []).headD 0).toNat
  !(m < 1 || n < 1 || m > n || vSolutions.length-2 != n)

/-- `Solver`: whether the script is solved, its type and what was found. -/
def solver (scriptPubKey : CScript) : Bool × TxnOutType × List Valtype :=
  if isPayToScriptHash scriptPubKey then (true,.scripthash,[(scriptPubKey.drop 2).take 20])
  else
    let found := mTemplates.findSome? fun (type,script2) =>
      (matchTemplate (script2.length+1) scriptPubKey script2 []).map fun vSolutions => (type,vSolutions)
    match found with
    | some (type,vSolutions) => (type ≠ .multisig || multisigOk vSolutions,type,vSolutions)
    | none => (false,.nonstandard,[])

inductive CTxDestination
  | noDestination
  | keyID (id : BitVec 160)
  | scriptID (id : BitVec 160)
  deriving DecidableEq, Repr

/-- `ExtractDestination`; `hash160` gives the id of a public key. -/
def extractDestination (hash160 : Valtype → BitVec 160) (scriptPubKey : CScript) : Option CTxDestination :=
  match solver scriptPubKey with
  | (true,.pubkey,vSolutions) => some (.keyID (hash160 (vSolutions.headD [])))
  | (true,.pubkeyhash,vSolutions) => some (.keyID (BitVec.ofNat 160 (littleEndian (vSolutions.headD []))))
  | (true,.scripthash,vSolutions) =>
    some (.scriptID (BitVec.ofNat 160 (littleEndian (vSolutions.headD []))))
  | _ => none

/-- Two of two keys, and two of three where only two are given. -/
example : solver (0x52 :: 33 :: (List.replicate 33 2 ++ 33 :: (List.replicate 33 3 ++ [0x52,0xae]))) =
      (true,.multisig,[[2],List.replicate 33 2,List.replicate 33 3,[2]]) ∧
    (solver (0x52 :: 33 :: (List.replicate 33 2 ++ 33 :: (List.replicate 33 3 ++ [0x53,0xae])))).1 = false := by
  decide +kernel

end Candypool.Script
