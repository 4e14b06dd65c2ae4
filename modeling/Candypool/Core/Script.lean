import Candypool.Prime.BigNum

/-! Scripts as byte vectors, and the signature-operation counts of script.cpp. The block
checks take `VerifyScript` as a parameter; the interpreter behind it is in the `Script` modules. -/
namespace Candypool.Core

abbrev CScript := List UInt8

def opPushData1 : ℕ := 0x4c
def opPushData2 : ℕ := 0x4d
def opPushData4 : ℕ := 0x4e
def op1 : ℕ := 0x51
def op16 : ℕ := 0x60
def opEqual : ℕ := 0x87
def opHash160 : ℕ := 0xa9
def opCheckSig : ℕ := 0xac
def opCheckSigVerify : ℕ := 0xad
def opCheckMultiSig : ℕ := 0xae
def opCheckMultiSigVerify : ℕ := 0xaf
def opInvalidOpcode : ℕ := 0xff

/-- The little-endian number `memcpy` reads into `nSize`. -/
def littleEndian : List UInt8 → ℕ
  | [] => 0
  | b :: bs => b.toNat+256*littleEndian bs

/-- The bytes of a number, the lowest one first; the fuel bounds how many there are. -/
def lowBytes : ℕ → ℕ → List UInt8
  | 0, _ => []
  | fuel+1, n => if n = 0 then [] else UInt8.ofNat (n % 256) :: lowBytes fuel (n/256)

/-- `getvch` of a number that is not negative: the last byte keeps the sign bit clear. -/
def getvch (n : ℕ) : List UInt8 :=
  let vch := lowBytes (n.log2+1) n
  if vch.getLastD 0 ≥ 0x80 then vch ++ [0] else vch

/-- `setvch`: the top bit of the last byte is the sign. -/
def setvch (vch : List UInt8) : Prime.CBigNum :=
  if vch.getLastD 0 ≥ 0x80 then -((littleEndian vch-2^(8*vch.length-1) : ℕ) : ℤ)
  else littleEndian vch

/-- `<<` of a byte vector onto a script. -/
def pushData (b : List UInt8) : CScript :=
  let nSize := b.length
  let sizeBytes (n : ℕ) : List UInt8 := (List.range n).map fun i => UInt8.ofNat (nSize/256^i % 256)
  if nSize < opPushData1 then sizeBytes 1 ++ b
  else if nSize ≤ 0xff then UInt8.ofNat opPushData1 :: (sizeBytes 1 ++ b)
  else if nSize ≤ 0xffff then UInt8.ofNat opPushData2 :: (sizeBytes 2 ++ b)
  else UInt8.ofNat opPushData4 :: (sizeBytes 4 ++ b)

/-- `push_uint64`. -/
def pushUint64 (n : ℕ) : CScript :=
  if 1 ≤ n ∧ n ≤ 16 then [UInt8.ofNat (op1-1+n)] else pushData (getvch n)

/-- The size bytes of a push and the script after them. -/
def pushSize (opcode : ℕ) (pc : CScript) : Option (ℕ × CScript) :=
  let read (n : ℕ) : Option (ℕ × CScript) :=
    if pc.length < n then none else some (littleEndian (pc.take n), pc.drop n)
  if opcode < opPushData1 then some (opcode, pc)
  else if opcode = opPushData1 then read 1
  else if opcode = opPushData2 then read 2
  else read 4

/-- `GetOp2`: the opcode, the data it pushes and the script after it. -/
def getOp : CScript → Option (ℕ × List UInt8 × CScript)
  | [] => none
  | b :: pc =>
    let opcode := b.toNat
    if opcode ≤ opPushData4 then do
      let (nSize,pc) ← pushSize opcode pc
      -- `(unsigned int)(end() - pc)` keeps the low 32 bits of the length
      if pc.length % 2^32 < nSize then none
      return (opcode, pc.take nSize, pc.drop nSize)
    else some (opcode, [], pc)

/-- Every instruction takes a byte, so the length of the script bounds the loop. -/
def sigOpLoop (fAccurate : Bool) : ℕ → CScript → ℕ → ℕ
  | 0, _, _ => 0
  | fuel+1, pc, lastOpcode =>
    match getOp pc with
    | none => 0
    | some (opcode,_,pc) =>
      let n :=
        if opcode = opCheckSig ∨ opcode = opCheckSigVerify then 1
        else if opcode = opCheckMultiSig ∨ opcode = opCheckMultiSigVerify then
          if fAccurate = true ∧ op1 ≤ lastOpcode ∧ lastOpcode ≤ op16 then lastOpcode-(op1-1)
          else 20
        else 0
      n+sigOpLoop fAccurate fuel pc opcode

def getSigOpCount (script : CScript) (fAccurate : Bool) : ℕ :=
  sigOpLoop fAccurate script.length script opInvalidOpcode

def isPayToScriptHash (script : CScript) : Bool :=
  script.length == 23 && (script.map UInt8.toNat)[0]? == some opHash160 &&
    (script.map UInt8.toNat)[1]? == some 0x14 && (script.map UInt8.toNat)[22]? == some opEqual

/-- The last item a push-only `scriptSig` leaves on the stack. -/
def lastPush : ℕ → CScript → List UInt8 → Option (List UInt8)
  | 0, _, data => some data
  | fuel+1, pc, data =>
    if pc = [] then some data
    else do
      let (opcode,data,pc) ← getOp pc
      if opcode > op16 then none
      lastPush fuel pc data

/-- `GetSigOpCount(scriptSig)` of a previous output script. -/
def getSigOpCountP2SH (scriptPubKey scriptSig : CScript) : ℕ :=
  if !isPayToScriptHash scriptPubKey then getSigOpCount scriptPubKey true
  else match lastPush scriptSig.length scriptSig [] with
    | none => 0
    | some data => getSigOpCount data true

section Pushes

theorem littleEndian_append_zero (bytes : List UInt8) :
    littleEndian (bytes ++ [0]) = littleEndian bytes := by
  induction bytes with
  | nil => rfl
  | cons b bytes ih => rw [List.cons_append, littleEndian, littleEndian, ih]

theorem littleEndian_lowBytes {fuel n : ℕ} (h : n < 2^fuel) : littleEndian (lowBytes fuel n) = n := by
  induction fuel generalizing n with
  | zero =>
    rw [pow_zero] at h
    rw [lowBytes, littleEndian]
    omega
  | succ fuel ih =>
    rw [pow_succ] at h
    rw [lowBytes]
    split_ifs with hzero
    · exact hzero.symm
    · rw [littleEndian, ih (by omega), UInt8.toNat_ofNat']
      omega

/-- The bytes of a number that is not negative read back as the number. -/
theorem littleEndian_getvch (n : ℕ) : littleEndian (getvch n) = n := by
  have hlow : littleEndian (lowBytes (n.log2+1) n) = n := littleEndian_lowBytes Nat.lt_log2_self
  rw [getvch]
  split_ifs
  · rw [littleEndian_append_zero, hlow]
  · exact hlow

/-- A push is the data after a prefix that its size determines. -/
theorem pushData_eq (b : List UInt8) : ∃ size : List UInt8, pushData b = size ++ b ∧
    size.length = if b.length < opPushData1 then 1 else if b.length ≤ 0xff then 2
      else if b.length ≤ 0xffff then 3 else 5 := by
  rw [pushData]
  dsimp only
  split_ifs
  · exact ⟨_, rfl, rfl⟩
  · exact ⟨_ :: _, rfl, rfl⟩
  · exact ⟨_ :: _, rfl, rfl⟩
  · exact ⟨_ :: _, rfl, rfl⟩

theorem pushData_injective {b b' : List UInt8} (h : pushData b = pushData b') : b = b' := by
  obtain ⟨size,heq,hlen⟩ := pushData_eq b
  obtain ⟨size',heq',hlen'⟩ := pushData_eq b'
  rw [heq, heq'] at h
  have htotal := congrArg List.length h
  rw [List.length_append, List.length_append] at htotal
  have hsame : b.length = b'.length := by
    rw [opPushData1] at hlen hlen'
    split_ifs at hlen hlen' <;> omega
  exact (List.append_inj' h hsame).2

end Pushes

end Candypool.Core
