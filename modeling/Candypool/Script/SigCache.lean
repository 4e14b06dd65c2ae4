import Candypool.Coins.Connect
import Candypool.Script.SigOps

/-! The cache of valid signatures in `CheckSig`. The interpreter is given once more with its calls of
`CheckSig` left open, so that each of them can find a cache of its own. -/
namespace Candypool.Script
open Candypool.Prime Candypool.Core Candypool.Coins Candypool.Lib

/-- The hash of a serialized transaction with a hash type behind it, and the keys. -/
structure SigEnv where
  hashTx : CTransaction → ℤ → Uint256
  setPubKey : Valtype → Bool
  verify : Valtype → Uint256 → Valtype → Bool

def sighashNone : BitVec 32 := 2
def sighashSingle : BitVec 32 := 3
def sighashAnyoneCanPay : BitVec 32 := 0x80

def opCodeSeparator : UInt8 := 0xab

def deleteCodeSeparators (scriptCode : CScript) : CScript :=
  ((findAndDelete (scriptCode.length+1) scriptCode [opCodeSeparator]).getD (0, scriptCode)).2

def signatureHash (sig : SigEnv) (scriptCode : CScript) (txTo : CTransaction) (nIn : ℕ)
    (nHashType : ℤ) : Uint256 :=
  if nIn ≥ txTo.vin.length then 1
  else
    -- blank out other inputs' signatures
    let vin := txTo.vin.mapIdx fun i txin =>
      { txin with scriptSig := if i = nIn then deleteCodeSeparators scriptCode else [] }
    -- let the others update at will
    let vinFree := vin.mapIdx fun i txin => if i = nIn then txin else { txin with nSequence := 0 }
    let hash (vin : List CTxIn) (vout : List CTxOut) : Uint256 :=
      let vin := if BitVec.ofInt 32 nHashType &&& sighashAnyoneCanPay ≠ 0 then vin[nIn]?.toList else vin
      sig.hashTx { txTo with vin := vin, vout := vout } nHashType
    if BitVec.ofInt 32 nHashType &&& 0x1f = sighashNone then hash vinFree []
    else if BitVec.ofInt 32 nHashType &&& 0x1f = sighashSingle then
      if nIn ≥ txTo.vout.length then 1
      else hash vinFree ((txTo.vout.take (nIn+1)).mapIdx fun i txout =>
        if i < nIn then CTxOut.null else txout)
    else hash vin txTo.vout

section Cache

/-- `sigdata_type`. -/
structure SigData where
  hash : Uint256
  vchSig : Valtype
  pubKey : Valtype
  deriving DecidableEq

def SigData.lt (a b : SigData) : Bool :=
  decide (a.hash < b.hash) || (a.hash == b.hash && (decide (a.vchSig < b.vchSig) ||
    (a.vchSig == b.vchSig && decide (a.pubKey < b.pubKey))))

/-- The elements of `setValid`, in their order. -/
structure CSignatureCache where
  setValid : List SigData

/-- `-maxsigcachesize` and the random hashes of one call. -/
structure CacheIO where
  nMaxCacheSize : ℤ
  randomHash : ℕ → Uint256

def CSignatureCache.get (cache : CSignatureCache) (k : SigData) : Bool := cache.setValid.contains k

/-- The entry at the lower bound of a random hash goes, or else the first. -/
def evictOne (setValid : List SigData) (randomHash : Uint256) : List SigData :=
  match (setValid.find? fun k => decide (randomHash ≤ k.hash)).or setValid.head? with
  | none => setValid
  | some it => setValid.erase it

/-- The loop that evicts; each turn takes one entry out, so the size bounds the turns. -/
def evict (io : CacheIO) : ℕ → List SigData → List SigData
  | 0, setValid => setValid
  | fuel+1, setValid =>
    if (setValid.length : ℤ) > io.nMaxCacheSize then
      evict io fuel (evictOne setValid (io.randomHash fuel))
    else setValid

/-- `setValid.insert(k)`. -/
def insertSigData (k : SigData) : List SigData → List SigData
  | [] => [k]
  | a :: setValid =>
    if k.lt a then k :: a :: setValid
    else if a.lt k then a :: insertSigData k setValid
    else a :: setValid

def CSignatureCache.set (io : CacheIO) (cache : CSignatureCache) (k : SigData) : CSignatureCache :=
  if io.nMaxCacheSize ≤ 0 then cache
  else ⟨insertSigData k (evict io cache.setValid.length cache.setValid)⟩

end Cache

section CheckSig
variable (sig : SigEnv)

/-- What is left of a signature and its hash type, unless they are refused. -/
def splitSignature (vchSig : Valtype) (nHashType : ℤ) : Option (Valtype × ℤ) :=
  match vchSig.getLast? with
  | none => none
  | some back =>
    if nHashType = 0 then some (vchSig.dropLast, back.toNat)
    else if nHashType ≠ back.toNat then none
    else some (vchSig.dropLast, nHashType)

def checkSig (io : CacheIO) (vchSig vchPubKey : Valtype) (scriptCode : CScript) (txTo : CTransaction)
    (nIn : ℕ) (nHashType : ℤ) (flags : ScriptFlags) (signatureCache : CSignatureCache) :
    Bool × CSignatureCache :=
  match splitSignature vchSig nHashType with
  | none => (false, signatureCache)
  | some (vchSig,nHashType) =>
    let sighash := signatureHash sig scriptCode txTo nIn nHashType
    if signatureCache.get ⟨sighash, vchSig, vchPubKey⟩ then (true, signatureCache)
    else if !sig.setPubKey vchPubKey then (false, signatureCache)
    else if !sig.verify vchPubKey sighash vchSig then (false, signatureCache)
    else if !flags.noCache then (true, signatureCache.set io ⟨sighash, vchSig, vchPubKey⟩)
    else (true, signatureCache)

/-- The same without a cache. -/
def checkSigAlone (vchSig vchPubKey : Valtype) (scriptCode : CScript) (txTo : CTransaction) (nIn : ℕ)
    (nHashType : ℤ) : Bool :=
  match splitSignature vchSig nHashType with
  | none => false
  | some (vchSig,nHashType) =>
    sig.setPubKey vchPubKey &&
      sig.verify vchPubKey (signatureHash sig scriptCode txTo nIn nHashType) vchSig

/-- The arguments of a call and what it finds beside the cache. -/
structure SigCall where
  vchSig : Valtype
  vchPubKey : Valtype
  scriptCode : CScript
  txTo : CTransaction
  nIn : ℕ
  nHashType : ℤ
  flags : ScriptFlags
  io : CacheIO

def SigCall.exec (call : SigCall) (signatureCache : CSignatureCache) : Bool × CSignatureCache :=
  checkSig sig call.io call.vchSig call.vchPubKey call.scriptCode call.txTo call.nIn call.nHashType
    call.flags signatureCache

/-- The cache after a history of calls. -/
def cacheAfter (history : List SigCall) : CSignatureCache :=
  history.foldl (fun signatureCache call => (call.exec sig signatureCache).2) ⟨[]⟩

/-- Every entry is a signature that its key verifies. -/
def CSignatureCache.Sound (signatureCache : CSignatureCache) : Prop :=
  ∀ k ∈ signatureCache.setValid, sig.setPubKey k.pubKey = true ∧
    sig.verify k.pubKey k.hash k.vchSig = true

end CheckSig

section Sound
variable {sig : SigEnv} {signatureCache : CSignatureCache}

theorem evictOne_subset (setValid : List SigData) (randomHash : Uint256) :
    evictOne setValid randomHash ⊆ setValid := by
  rw [evictOne]
  split
  · exact List.Subset.refl _
  · exact List.erase_subset

theorem evict_subset (io : CacheIO) (fuel : ℕ) (setValid : List SigData) :
    evict io fuel setValid ⊆ setValid := by
  induction fuel generalizing setValid with
  | zero => exact List.Subset.refl _
  | succ fuel ih =>
    rw [evict]
    split_ifs
    · exact List.Subset.trans (ih _) (evictOne_subset _ _)
    · exact List.Subset.refl _

theorem mem_insertSigData {k a : SigData} {setValid : List SigData} (h : a ∈ insertSigData k setValid) :
    a = k ∨ a ∈ setValid := by
  induction setValid with
  | nil => exact Or.inl (List.mem_singleton.mp h)
  | cons b setValid ih =>
    rw [insertSigData] at h
    split_ifs at h
    · exact List.mem_cons.mp h
    · rcases List.mem_cons.mp h with rfl | h
      · exact Or.inr List.mem_cons_self
      · exact (ih h).imp_right (List.mem_cons_of_mem _)
    · exact Or.inr h

theorem CSignatureCache.Sound.set (h : signatureCache.Sound sig) {k : SigData}
    (hkey : sig.setPubKey k.pubKey = true) (hverify : sig.verify k.pubKey k.hash k.vchSig = true)
    (io : CacheIO) : (signatureCache.set io k).Sound sig := by
  rw [CSignatureCache.set]
  split_ifs
  · exact h
  · intro a ha
    rcases mem_insertSigData ha with rfl | ha
    · exact ⟨hkey, hverify⟩
    · exact h a (evict_subset io _ _ ha)

/-- One call: its result is that without a cache, and the cache stays sound. -/
theorem checkSig_sound (h : signatureCache.Sound sig) (io : CacheIO) (vchSig vchPubKey : Valtype)
    (scriptCode : CScript) (txTo : CTransaction) (nIn : ℕ) (nHashType : ℤ) (flags : ScriptFlags) :
    (checkSig sig io vchSig vchPubKey scriptCode txTo nIn nHashType flags signatureCache).1 =
        checkSigAlone sig vchSig vchPubKey scriptCode txTo nIn nHashType ∧
      (checkSig sig io vchSig vchPubKey scriptCode txTo nIn nHashType flags
        signatureCache).2.Sound sig := by
  rw [checkSig, checkSigAlone]
  split
  · exact ⟨rfl, h⟩
  rename_i vchSig nHashType _
  dsimp only
  generalize signatureHash sig scriptCode txTo nIn nHashType = sighash
  -- the cases follow the code: a hit, a bad key, a bad signature, stored, and not stored
  split_ifs with hcached hkey hverify
  -- a hit says what the check would, as only good triples are stored
  · obtain ⟨hkey,hverify⟩ := h _ (List.contains_iff_mem.mp hcached)
    exact ⟨by rw [hkey, hverify]; rfl, h⟩
  · rw [Bool.not_eq_true'] at hkey
    exact ⟨by rw [hkey, Bool.false_and], h⟩
  · rw [Bool.not_eq_true'] at hverify
    exact ⟨by rw [hverify, Bool.and_false], h⟩
  · rw [Bool.not_eq_true', Bool.not_eq_false] at hkey hverify
    exact ⟨by rw [hkey, hverify]; rfl, h.set hkey hverify io⟩
  · rw [Bool.not_eq_true', Bool.not_eq_false] at hkey hverify
    exact ⟨by rw [hkey, hverify]; rfl, h⟩

/-- No history leaves anything else in the cache than valid signatures. -/
theorem cacheAfter_sound (history : List SigCall) : (cacheAfter sig history).Sound sig := by
  rw [cacheAfter]
  have hempty : CSignatureCache.Sound sig ⟨[]⟩ := fun k hk => by cases hk
  generalize (⟨[]⟩ : CSignatureCache) = start at hempty
  induction history generalizing start with
  | nil => exact hempty
  | cons call history ih =>
    rw [List.foldl_cons]
    exact ih _ (checkSig_sound hempty call.io call.vchSig call.vchPubKey call.scriptCode call.txTo
      call.nIn call.nHashType call.flags).2

end Sound

section Open
variable (env : EvalEnv) (check : Valtype → Valtype → CScript → EvalM Bool)

/-- `OP_CHECKSIG` with its check left open, and so on up to `VerifyScript`. -/
def evalCheckSigBy (fVerify : Bool) (st : EvalState) : EvalM EvalState := do
  returnFalseIf (st.stack.length < 2)
  let vchSig ← stacktop st.stack 2
  let vchPubKey ← stacktop st.stack 1
  let fSuccess ← check vchSig vchPubKey (dropSignature st.pbegincodehash vchSig)
  let stack ← popstack st.stack
  let stack ← popstack stack
  let stack ← verifyTop fVerify fSuccess (vchBool fSuccess :: stack)
  return { st with stack := stack }

def multiSigLoopBy (stack : List Valtype) (scriptCode : CScript) : ℕ → ℕ → ℕ → ℕ → EvalM Bool
  | _, _, 0, _ => pure true
  | _, _, _+1, 0 => throw .outOfRange
  | isig, ikey, nSigsCount+1, nKeysCount+1 => do
    let vchSig ← stacktop stack isig
    let vchPubKey ← stacktop stack ikey
    let fOk ← check vchSig vchPubKey scriptCode
    let isig := if fOk then isig+1 else isig
    let nSigsCount := if fOk then nSigsCount else nSigsCount+1
    if nSigsCount > nKeysCount then return false
    else multiSigLoopBy stack scriptCode isig (ikey+1) nSigsCount nKeysCount

def evalCheckMultiSigBy (fVerify : Bool) (st : EvalState) : EvalM EvalState := do
  let stack := st.stack
  returnFalseIf (castInt stack.length < 1)
  let vch ← stacktop stack 1
  let bn ← castToBigNum vch
  returnFalseIf (bnGetint bn < 0 ∨ bnGetint bn > 20)
  let nKeysCount := (bnGetint bn).toNat
  let nOpCount := st.nOpCount+nKeysCount
  returnFalseIf (nOpCount > 201)
  let ikey := 2
  let i := ikey+nKeysCount
  returnFalseIf (castInt stack.length < i)
  let vch ← stacktop stack i
  let bn ← castToBigNum vch
  returnFalseIf (bnGetint bn < 0 ∨ bnGetint bn > nKeysCount)
  let nSigsCount := (bnGetint bn).toNat
  let isig := i+1
  let i := isig+nSigsCount
  returnFalseIf (castInt stack.length < i)
  let scriptCode ← dropSignatures stack isig nSigsCount st.pbegincodehash
  let fSuccess ← multiSigLoopBy check stack scriptCode isig ikey nSigsCount nKeysCount
  let stack ← popstackTimes i stack
  let stack ← verifyTop fVerify fSuccess (vchBool fSuccess :: stack)
  return { st with stack := stack, nOpCount := nOpCount }

/-- The opcodes that call `CheckSig`; no other one depends on the context. -/
def evalOpBy (fExec : Bool) (st : EvalState) : ScriptOp → EvalM EvalState
  | .checkSig fVerify => evalCheckSigBy check fVerify st
  | .checkMultiSig fVerify => evalCheckMultiSigBy check fVerify st
  | op => evalOp env ⟨⟨0, [], [], 0⟩, 0, ⟨false, false, false⟩, 0⟩ fExec st op

def executeOpcodeBy (opcode : ℕ) (vchPushValue : Valtype) (st : EvalState) : EvalM EvalState :=
  if st.fExec = true ∧ opcode ≤ opPushData4 then
    pure { st with stack := vchPushValue :: st.stack }
  else if st.fExec = true ∨ (opIf ≤ opcode ∧ opcode ≤ opEndIf) then
    match decodeOp opcode with
    | none => throw .returnFalse
    | some op => evalOpBy env check st.fExec st op
  else pure st

def evalStepBy (st : EvalState) : EvalM EvalState :=
  match getOp st.pc with
  | none => throw .returnFalse
  | some (opcode,vchPushValue,pc) => do
    returnFalseIf (vchPushValue.length > maxScriptElementSize)
    let nOpCount := if opcode > op16 then st.nOpCount+1 else st.nOpCount
    returnFalseIf (opcode > op16 ∧ nOpCount > 201)
    returnFalseIf (opcode ∈ disabledOpcodes)
    let st ← executeOpcodeBy env check opcode vchPushValue { st with pc := pc, nOpCount := nOpCount }
    returnFalseIf (st.stack.length+st.altstack.length > 1000)
    return st

def evalLoopBy : ℕ → EvalState → EvalM EvalState
  | 0, st => pure st
  | fuel+1, st => if st.pc = [] then pure st else do
    let st ← evalStepBy env check st
    evalLoopBy fuel st

def evalScriptBy (stack : List Valtype) (script : CScript) : EvalM (Option (List Valtype)) :=
  tryCatch (do
    returnFalseIf (script.length > 10000)
    let st ← evalLoopBy env check script.length (.init stack script)
    returnFalseIf (st.vfExec ≠ [])
    return some st.stack) fun _ => pure none

def verifyPayToScriptHashBy : List Valtype → EvalM Bool
  | [] => throw .outOfRange
  | pubKeySerialized :: stackCopy => do
    match ← evalScriptBy env check stackCopy pubKeySerialized with
    | none => return false
    | some stackCopy => return castToBool (stackCopy.headD [])

def verifyScriptBy (p2sh : Bool) (scriptSig scriptPubKey : CScript) : EvalM Bool := do
  match ← evalScriptBy env check [] scriptSig with
  | none => return false
  | some stackCopy =>
    match ← evalScriptBy env check stackCopy scriptPubKey with
    | none => return false
    | some [] => return false
    | some (vch :: _) =>
      if castToBool vch = false then return false
      else if p2sh && isPayToScriptHash scriptPubKey then
        if isPushOnly scriptSig then verifyPayToScriptHashBy env check stackCopy else return false
      else return true

end Open

section Same
variable {env : EvalEnv} {ctx : EvalContext}

/-- The open interpreter, closed with the checks of the interpreter. -/
theorem multiSigLoopBy_eq (stack : List Valtype) (scriptCode : CScript)
    (isig ikey nSigsCount nKeysCount : ℕ) :
    multiSigLoopBy (checkSigCounted env ctx) stack scriptCode isig ikey nSigsCount nKeysCount =
      multiSigLoop env ctx stack scriptCode isig ikey nSigsCount nKeysCount := by
  induction nKeysCount generalizing isig ikey nSigsCount with
  | zero => cases nSigsCount <;> rfl
  | succ nKeysCount ih =>
    cases nSigsCount with
    | zero => rfl
    | succ nSigsCount => simp only [multiSigLoopBy, multiSigLoop, ih]

theorem evalOpBy_eq (fExec : Bool) (st : EvalState) (op : ScriptOp) :
    evalOpBy env (checkSigCounted env ctx) fExec st op = evalOp env ctx fExec st op := by
  cases op with
  | checkMultiSig fVerify =>
    simp only [evalOpBy, evalOp, evalCheckMultiSigBy, evalCheckMultiSig, multiSigLoopBy_eq]
  | _ => rfl

theorem executeOpcodeBy_eq (opcode : ℕ) (vchPushValue : Valtype) (st : EvalState) :
    executeOpcodeBy env (checkSigCounted env ctx) opcode vchPushValue st =
      executeOpcode env ctx opcode vchPushValue st := by
  rw [executeOpcodeBy, executeOpcode]
  cases decodeOp opcode with
  | none => rfl
  | some op => simp only [evalOpBy_eq]

theorem evalStepBy_eq (st : EvalState) :
    evalStepBy env (checkSigCounted env ctx) st = evalStep env ctx st := by
  rw [evalStepBy, evalStep]
  cases getOp st.pc with
  | none => rfl
  | some instruction => simp only [executeOpcodeBy_eq]

theorem evalLoopBy_eq (fuel : ℕ) (st : EvalState) :
    evalLoopBy env (checkSigCounted env ctx) fuel st = evalLoop env ctx fuel st := by
  induction fuel generalizing st with
  | zero => rfl
  | succ fuel ih => simp only [evalLoopBy, evalLoop, evalStepBy_eq, ih]

theorem evalScriptBy_eq (stack : List Valtype) (script : CScript) :
    evalScriptBy env (checkSigCounted env ctx) stack script = evalScript env ctx stack script := by
  simp only [evalScriptBy, evalScript, evalBody, evalLoopBy_eq, bind_assoc, pure_bind]

theorem verifyScriptBy_eq (scriptSig scriptPubKey : CScript) :
    verifyScriptBy env (checkSigCounted env ctx) ctx.flags.p2sh scriptSig scriptPubKey =
      verifyScript env ctx scriptSig scriptPubKey := by
  have hpay (stack : List Valtype) : verifyPayToScriptHashBy env (checkSigCounted env ctx) stack =
      verifyPayToScriptHash env ctx stack := by
    cases stack with
    | nil => rfl
    | cons pubKeySerialized stackCopy =>
      simp only [verifyPayToScriptHashBy, verifyPayToScriptHash, evalScriptBy_eq]
      all_goals rfl
  simp only [verifyScriptBy, verifyScript, evalScriptBy_eq, hpay]
  all_goals rfl

end Same

section Verdict
variable (sig : SigEnv) (env : EvalEnv)

/-- The interpreter's check without a cache. -/
def SigEnv.evalEnv : EvalEnv := { env with
  checkSig := fun vchSig vchPubKey scriptCode txTo nIn nHashType _ =>
    checkSigAlone sig vchSig vchPubKey scriptCode txTo nIn nHashType }

/-- What the calls of `CheckSig` find: each call the cache that some history leaves. -/
structure CacheRun where
  history : ℕ → List SigCall
  io : ℕ → CacheIO

/-- `checkSigCounted` with the cache. -/
def checkSigCached (ctx : EvalContext) (caches : CacheRun) (vchSig vchPubKey : Valtype)
    (scriptCode : CScript) : EvalM Bool :=
  if !ctx.flags.strictEnc || (isCanonicalSignature vchSig && isCanonicalPubKey vchPubKey) then do
    let calls ← get
    modify (·+1)
    return (checkSig sig (caches.io calls) vchSig vchPubKey scriptCode ctx.txTo ctx.nIn ctx.nHashType
      ctx.flags (cacheAfter sig (caches.history calls))).1
  else return false

/-- `VerifyScript` with the cache. -/
def verifyScriptCached (ctx : EvalContext) (caches : CacheRun) (scriptSig scriptPubKey : CScript) :
    EvalM Bool :=
  verifyScriptBy (sig.evalEnv env) (checkSigCached sig ctx caches) ctx.flags.p2sh scriptSig scriptPubKey

/-- The script checks of a block with the cache, `SCRIPT_VERIFY_NOCACHE` being set or not. A failed
assertion is no success. -/
def Externals.cached (ext : Externals) (noCache : Bool)
    (caches : CScript → CScript → CTransaction → ℕ → ScriptFlags → CacheRun) : Externals :=
  { ext with
    verifyScript := fun scriptSig scriptPubKey txTo nIn flags =>
      let ctx : EvalContext := ⟨txTo, nIn, { flags with noCache := noCache }, 0⟩
      ((verifyScriptCached sig env ctx (caches scriptSig scriptPubKey txTo nIn flags) scriptSig
        scriptPubKey).run.run 0).1.toOption.getD false }

/-- Without one. -/
def Externals.uncached (ext : Externals) : Externals :=
  { ext with
    verifyScript := fun scriptSig scriptPubKey txTo nIn flags =>
      ((verifyScript (sig.evalEnv env) ⟨txTo, nIn, flags, 0⟩ scriptSig
        scriptPubKey).run.run 0).1.toOption.getD false }

theorem checkSigCached_eq (ctx : EvalContext) (caches : CacheRun) :
    checkSigCached sig ctx caches = checkSigCounted (sig.evalEnv env) ctx := by
  funext vchSig vchPubKey scriptCode
  have hresult (calls : ℕ) := (checkSig_sound (@cacheAfter_sound sig (caches.history calls))
    (caches.io calls) vchSig vchPubKey scriptCode ctx.txTo ctx.nIn ctx.nHashType ctx.flags).1
  rw [checkSigCached, checkSigCounted]
  simp only [hresult, SigEnv.evalEnv]
  rfl

theorem verifyScriptCached_eq (ctx : EvalContext) (caches : CacheRun)
    (scriptSig scriptPubKey : CScript) :
    verifyScriptCached sig env ctx caches scriptSig scriptPubKey =
      verifyScript (sig.evalEnv env) ctx scriptSig scriptPubKey := by
  rw [verifyScriptCached, checkSigCached_eq sig env, verifyScriptBy_eq]

/-- No check looks at `SCRIPT_VERIFY_NOCACHE`. -/
theorem verifyScript_noCache (ctx : EvalContext) (noCache : Bool) (scriptSig scriptPubKey : CScript) :
    verifyScript (sig.evalEnv env) { ctx with flags := { ctx.flags with noCache := noCache } } scriptSig
        scriptPubKey = verifyScript (sig.evalEnv env) ctx scriptSig scriptPubKey := by
  have hcheck : checkSigCounted (sig.evalEnv env)
      { ctx with flags := { ctx.flags with noCache := noCache } } =
        checkSigCounted (sig.evalEnv env) ctx := rfl
  rw [← verifyScriptBy_eq, ← verifyScriptBy_eq, hcheck]

theorem Externals.cached_eq (ext : Externals) (noCache : Bool)
    (caches : CScript → CScript → CTransaction → ℕ → ScriptFlags → CacheRun) :
    Externals.cached sig env ext noCache caches = Externals.uncached sig env ext := by
  have hverify : (Externals.cached sig env ext noCache caches).verifyScript =
      (Externals.uncached sig env ext).verifyScript := by
    funext scriptSig scriptPubKey txTo nIn flags
    have hnoCache := verifyScript_noCache sig env ⟨txTo, nIn, flags, 0⟩ noCache scriptSig scriptPubKey
    dsimp only at hnoCache
    simp only [Externals.cached, Externals.uncached, verifyScriptCached_eq, hnoCache]
  exact congrArg (fun verify => ({ ext with verifyScript := verify } : Externals)) hverify

end Verdict

/-- Whatever calls came before and whatever was evicted, a call of `CheckSig` has the result it has
without a cache; so have `VerifyScript` and `ConnectBlock`, with and without
`SCRIPT_VERIFY_NOCACHE`. -/
theorem signature_cache_transparent (sig : SigEnv) (env : EvalEnv) :
    (∀ (history1 history2 : List SigCall) (call : SigCall),
      (call.exec sig (cacheAfter sig history1)).1 = (call.exec sig (cacheAfter sig history2)).1 ∧
      (call.exec sig (cacheAfter sig history1)).1 = checkSigAlone sig call.vchSig call.vchPubKey
        call.scriptCode call.txTo call.nIn call.nHashType) ∧
    (∀ ctx noCache caches scriptSig scriptPubKey,
      verifyScriptCached sig env { ctx with flags := { ctx.flags with noCache := noCache } } caches
          scriptSig scriptPubKey =
        verifyScript (sig.evalEnv env) ctx scriptSig scriptPubKey) ∧
    ∀ {V : Type} [CCoinsView V] (cons : Consensus) noCache caches io mapBlockIndex block ptr pindex
      (view : V) fJustCheck,
      connectBlock { cons with ext := Externals.cached sig env cons.ext noCache caches } io
          mapBlockIndex block ptr pindex view fJustCheck =
        connectBlock { cons with ext := Externals.uncached sig env cons.ext } io mapBlockIndex block ptr
          pindex view fJustCheck := by
  have hcall (history : List SigCall) (call : SigCall) := (checkSig_sound (@cacheAfter_sound sig history)
    call.io call.vchSig call.vchPubKey call.scriptCode call.txTo call.nIn call.nHashType call.flags).1
  refine ⟨fun history1 history2 call => ⟨?_, hcall history1 call⟩, ?_, ?_⟩
  · exact (hcall history1 call).trans (hcall history2 call).symm
  · intro ctx noCache caches scriptSig scriptPubKey
    rw [verifyScriptCached_eq, verifyScript_noCache]
  · intro V _ cons noCache caches io mapBlockIndex block ptr pindex view fJustCheck
    rw [Externals.cached_eq]

end Candypool.Script
