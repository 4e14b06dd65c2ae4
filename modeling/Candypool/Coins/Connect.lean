import Candypool.Coins.Update
import Candypool.Core.Subsidy

/-! `ConnectBlock` and `DisconnectBlock`. -/
namespace Candypool.Coins
open Candypool.Prime Candypool.Core

/-- `nStatus`: the validity level and the flags. -/
structure BlockStatus where
  validLevel : ℕ
  haveData : Bool
  haveUndo : Bool
  failedValid : Bool
  failedChild : Bool
  deriving DecidableEq, Repr

def blockValidTransactions : ℕ := 3
def blockValidScripts : ℕ := 5

structure CBlockIndex where
  phashBlock : Option Uint256
  pprev : Option BlockPtr
  pnext : Option BlockPtr
  nHeight : ℕ
  nChainWork : Uint256
  nMoneySupply : ℤ
  nStatus : BlockStatus
  hashMerkleRoot : Uint256
  nTime : ℕ
  nBits : BitVec 32
  deriving DecidableEq, Repr

/-- What stays the same during a run of the node. -/
structure Consensus where
  ext : Externals
  fees : FeeParams
  target : TargetParams
  hashGenesisBlock : Uint256
  nTotalBlocksEstimate : ℕ
  fScriptCheckThreads : Bool
  fTxIndex : Bool

/-- The clock and the outcome of each write of one `ConnectBlock` call. -/
structure ConnectIO where
  nAdjustedTime : ℤ
  writeMoneySupply : Bool
  findUndoPos : Bool
  writeUndo : Bool
  writeBlockIndex : Bool
  writeTxIndex : Bool

inductive InputError
  | inputsUnavailable
  | immatureCoinbase
  | valuesOutOfRange
  | valueInBelowOut
  | negativeFee
  | belowRequiredFee
  | feesOutOfRange
  | nonCanonical
  | scriptFailed
  | exception
  deriving DecidableEq, Repr

inductive ConnectError
  | checkBlock (e : CheckBlockError)
  | notPrevBlock
  | overwriteTransaction
  | tooManySigOps
  | inputsMissing
  | checkInputs (e : InputError)
  | assertion
  | valueOutOfRange
  | writeMoneySupply
  | coinbasePaysTooMuch
  | scriptChecks
  | findUndoPos
  | writeUndo
  | writeBlockIndex
  | writeTxIndex
  deriving DecidableEq, Repr

/-- The failures after which `state.IsInvalid()` holds. -/
def ConnectError.isInvalid : ConnectError → Bool
  | .checkBlock e => e.nDoS.isSome
  | .overwriteTransaction => true
  | .tooManySigOps => true
  | .inputsMissing => true
  | .checkInputs e => e != .exception
  | .coinbasePaysTooMuch => true
  | .scriptChecks => true
  | _ => false

structure CScriptCheck where
  scriptPubKey : CScript
  txTo : CTransaction
  nIn : ℕ
  nFlags : ScriptFlags

def CScriptCheck.run (ext : Externals) (check : CScriptCheck) : Bool :=
  match check.txTo.vin[check.nIn]? with
  | none => false
  | some txin =>
    ext.verifyScript txin.scriptSig check.scriptPubKey check.txTo check.nIn check.nFlags

section Inputs
variable {V : Type} [CoinStore V]

def haveInputs (view : V) (tx : CTransaction) : Bool :=
  tx.isCoinBase || (tx.vin.all (fun txin => (getCoins view txin.prevout.hash).isSome) &&
    tx.vin.all fun txin =>
      (getCoins view txin.prevout.hash).any fun coins => coins.isAvailable txin.prevout.n)

/-- `GetOutputFor`; its callers have made sure that the output is available. -/
def getOutputFor (view : V) (prevout : COutPoint) : Option CTxOut :=
  (getCoins view prevout.hash).bind fun coins => coins.vout[prevout.n]?

def getValueIn (view : V) (tx : CTransaction) : ℤ :=
  if tx.isCoinBase then 0
  else (tx.vin.map fun txin => ((getOutputFor view txin.prevout).map CTxOut.nValue).getD 0).sum

def getP2SHSigOpCount (view : V) (tx : CTransaction) : ℕ :=
  if tx.isCoinBase then 0
  else (tx.vin.map fun txin => match getOutputFor view txin.prevout with
    | none => 0
    | some prevout =>
      if isPayToScriptHash prevout.scriptPubKey then
        getSigOpCountP2SH prevout.scriptPubKey txin.scriptSig
      else 0).sum

/-- The inexpensive checks of the inputs, which add up their values. -/
def checkInputValues (view : V) (nSpendHeight : ℤ) : List CTxIn → ℤ → Except InputError ℤ
  | [], nValueIn => .ok nValueIn
  | txin :: vin, nValueIn =>
    match getCoins view txin.prevout.hash with
    | none => .error .inputsUnavailable
    | some coins =>
      if coins.fCoinBase = true ∧ nSpendHeight-coins.nHeight < coinbaseMaturity then
        .error .immatureCoinbase
      else
        let nValue := (coins.vout.getD txin.prevout.n CTxOut.null).nValue
        let nValueIn := nValueIn+nValue
        if !moneyRange nValue || !moneyRange nValueIn then .error .valuesOutOfRange
        else checkInputValues view nSpendHeight vin nValueIn

/-- The script checks of the inputs, in order. -/
def scriptChecksOf (view : V) (tx : CTransaction) (flags : ScriptFlags) : List CScriptCheck :=
  tx.vin.zipIdx.map fun (txin,i) =>
    ⟨((getOutputFor view txin.prevout).map CTxOut.scriptPubKey).getD [], tx, i, flags⟩

/-- The checks run one by one. A failure that only strict encoding causes is no DoS. -/
def runChecks (ext : Externals) : List CScriptCheck → Except InputError Unit
  | [] => .ok ()
  | check :: checks =>
    if check.run ext then runChecks ext checks
    else if check.nFlags.strictEnc &&
        ({ check with nFlags := { check.nFlags with strictEnc := false } }).run ext then
      .error .nonCanonical
    else .error .scriptFailed

/-- `CheckInputs`; with `fQueue` the script checks are returned instead of being run. -/
def checkInputs (ext : Externals) (fees : FeeParams) (view : V) (tx : CTransaction)
    (nSpendHeight : ℤ) (fScriptChecks : Bool) (flags : ScriptFlags) (fQueue : Bool) :
    Except InputError (List CScriptCheck) :=
  if tx.isCoinBase then .ok []
  else if !haveInputs view tx then .error .inputsUnavailable
  else match checkInputValues view nSpendHeight tx.vin 0 with
    | .error e => .error e
    | .ok nValueIn =>
      match tx.getValueOut with
      | none => .error .exception
      | some nValueOut =>
        if nValueIn < nValueOut then .error .valueInBelowOut
        else
          let nTxFee := nValueIn-nValueOut
          if nTxFee < 0 then .error .negativeFee
          else if nTxFee < tx.getMinFee fees 1 false .block then .error .belowRequiredFee
          else if !moneyRange nTxFee then .error .feesOutOfRange
          else if !fScriptChecks then .ok []
          else if fQueue then .ok (scriptChecksOf view tx flags)
          else (runChecks ext (scriptChecksOf view tx flags)).map fun _ => []

end Inputs

/-- The two blocks of the chain that may overwrite a transaction. -/
def bip30Exempt (pindex : CBlockIndex) : Bool :=
  match pindex.phashBlock with
  | none => false
  | some hash =>
    (pindex.nHeight == 91842 &&
      hash == 0x00000000000a4d0a398161ffc163c503763b1f4360639393e0e4c8e300e0caec) ||
    (pindex.nHeight == 91880 &&
      hash == 0x00000000000743f190a18c5577a3c2d2a1f610ae9601ac046a38084ccb7cd721)

def nBIP16SwitchTime : ℕ := 1333238400

/-- What the loop over the transactions of a block carries. -/
structure BlockLoop (V : Type) where
  view : V
  vtxundo : List CTxUndo
  nFees : ℤ
  nValueIn : ℤ
  nValueOut : ℤ
  nSigOps : ℕ
  checks : List CScriptCheck

/-- The values `ConnectBlock` fixes before the loop. -/
structure LoopEnv where
  nHeight : ℕ
  nSpendHeight : ℤ
  fScriptChecks : Bool
  fStrictPayToScriptHash : Bool
  flags : ScriptFlags

section Connect
variable {V : Type} [CCoinsView V] (cons : Consensus)

/-- `UpdateCoins` and the undo data of one transaction. -/
def updateStep (env : LoopEnv) (tx : CTransaction) (s : BlockLoop V) :
    Option ConnectError × BlockLoop V :=
  match updateCoins s.view tx env.nHeight (cons.ext.txHash tx) with
  | none => (some .assertion, s)
  | some (view,txundo) =>
    (none, { s with view := view
                    vtxundo := if tx.isCoinBase then s.vtxundo else s.vtxundo ++ [txundo] })

def connectTx (env : LoopEnv) (tx : CTransaction) (s : BlockLoop V) :
    Option ConnectError × BlockLoop V :=
  let s := { s with nSigOps := s.nSigOps+tx.getLegacySigOpCount }
  if s.nSigOps > maxBlockSigOps then (some .tooManySigOps, s)
  else if tx.isCoinBase then
    match tx.getValueOut with
    | none => (some .valueOutOfRange, s)
    | some nTxValueOut => updateStep cons env tx { s with nValueOut := s.nValueOut+nTxValueOut }
  else if !haveInputs s.view tx then (some .inputsMissing, s)
  else
    let s := if env.fStrictPayToScriptHash then
      { s with nSigOps := s.nSigOps+getP2SHSigOpCount s.view tx } else s
    if s.nSigOps > maxBlockSigOps then (some .tooManySigOps, s)
    else
      let nTxValueIn := getValueIn s.view tx
      match tx.getValueOut with
      | none => (some .valueOutOfRange, s)
      | some nTxValueOut =>
        let s := { s with nValueIn := s.nValueIn+nTxValueIn
                          nValueOut := s.nValueOut+nTxValueOut
                          nFees := s.nFees+(nTxValueIn-nTxValueOut) }
        match checkInputs cons.ext cons.fees s.view tx env.nSpendHeight env.fScriptChecks
            env.flags cons.fScriptCheckThreads with
        | .error e => (some (.checkInputs e), s)
        | .ok vChecks => updateStep cons env tx { s with checks := s.checks ++ vChecks }

def connectTxs (env : LoopEnv) : List CTransaction → BlockLoop V → Option ConnectError × BlockLoop V
  | [], s => (none, s)
  | tx :: vtx, s =>
    match connectTx cons env tx s with
    | (some e, s) => (some e, s)
    | (none, s) => connectTxs env vtx s

/-- How a `ConnectBlock` call leaves its view, its index entry and the undo file, and the
record of undo data it made. -/
structure ConnectResult (V : Type) where
  error : Option ConnectError
  view : V
  pindex : CBlockIndex
  undoWritten : Option CBlockUndo
  blockundo : Option CBlockUndo

/-- The writes after a block was found valid. -/
def recordBlock (io : ConnectIO) (ptr : BlockPtr) (pindex : CBlockIndex) (view : V)
    (blockundo : CBlockUndo) : ConnectResult V :=
  let finish (pindex : CBlockIndex) (undoWritten : Option CBlockUndo) : ConnectResult V :=
    if cons.fTxIndex && !io.writeTxIndex then
      ⟨some .writeTxIndex, view, pindex, undoWritten, some blockundo⟩
    else ⟨none, setBestBlock view ptr, pindex, undoWritten, some blockundo⟩
  let raise (pindex : CBlockIndex) (undoWritten : Option CBlockUndo) : ConnectResult V :=
    let pindex := { pindex with nStatus := { pindex.nStatus with validLevel := blockValidScripts } }
    if !io.writeBlockIndex then
      ⟨some .writeBlockIndex, view, pindex, undoWritten, some blockundo⟩
    else finish pindex undoWritten
  if !pindex.nStatus.haveUndo then
    if !io.findUndoPos then ⟨some .findUndoPos, view, pindex, none, some blockundo⟩
    else if !io.writeUndo then ⟨some .writeUndo, view, pindex, none, some blockundo⟩
    else raise { pindex with nStatus := { pindex.nStatus with haveUndo := true } } (some blockundo)
  else if pindex.nStatus.validLevel < blockValidScripts then raise pindex none
  else finish pindex none

/-- `ConnectBlock` of the block with index entry `pindex`, kept under `ptr`. -/
def connectBlock (io : ConnectIO) (mapBlockIndex : BlockPtr → Option CBlockIndex) (block : CBlock)
    (ptr : BlockPtr) (pindex : CBlockIndex) (view : V) (fJustCheck : Bool) : ConnectResult V :=
  let fail (e : ConnectError) (pindex : CBlockIndex) (view : V) : ConnectResult V :=
    ⟨some e, view, pindex, none, none⟩
  match block.checkBlock cons.ext io.nAdjustedTime (!fJustCheck) with
  | .error e => fail (.checkBlock e) pindex view
  | .ok () =>
    if pindex.pprev ≠ getBestBlock view then fail .notPrevBlock pindex view
    else if block.getHash cons.ext = cons.hashGenesisBlock then
      -- the coinbase of the genesis block is unspendable
      ⟨none, setBestBlock view ptr, pindex, none, none⟩
    else if !bip30Exempt pindex && block.vtx.any (fun tx =>
        (getCoins view (cons.ext.txHash tx)).any fun coins => !coins.isPruned) then
      fail .overwriteTransaction pindex view
    else match pindex.pprev.bind mapBlockIndex with
      | none => fail .assertion pindex view
      | some pprev =>
        let fStrictPayToScriptHash := decide (pindex.nTime ≥ nBIP16SwitchTime)
        let env : LoopEnv :=
          ⟨pindex.nHeight, pprev.nHeight+1, decide (pindex.nHeight ≥ cons.nTotalBlocksEstimate),
            fStrictPayToScriptHash, ⟨fStrictPayToScriptHash, false, true⟩⟩
        match connectTxs cons env block.vtx ⟨view, [], 0, 0, 0, 0, []⟩ with
        | (some e, s) => fail e pindex s.view
        | (none, s) =>
          let pindex := if fJustCheck then pindex
            else { pindex with nMoneySupply := pprev.nMoneySupply+s.nValueOut-s.nValueIn }
          if !fJustCheck && !io.writeMoneySupply then fail .writeMoneySupply pindex s.view
          else match block.vtx.head? with
            | none => fail .assertion pindex s.view
            | some coinbase =>
              if coinbase.getValueOut.getD 0 > getBlockValue cons.target pindex.nBits s.nFees-
                  coinbase.getMinFee cons.fees 1 false .block+minTxFee then
                fail .coinbasePaysTooMuch pindex s.view
              else if !(s.checks.all (CScriptCheck.run cons.ext)) then
                fail .scriptChecks pindex s.view
              else if fJustCheck then ⟨none, s.view, pindex, none, some ⟨s.vtxundo⟩⟩
              else recordBlock cons io ptr pindex s.view ⟨s.vtxundo⟩

/-- `DisconnectBlock`; `blockUndo` is what reading the undo file gives. -/
def disconnectBlock (block : CBlock) (ptr : BlockPtr) (pindex : CBlockIndex)
    (blockUndo : Option CBlockUndo) (view : V) : DisconnectResult V :=
  if getBestBlock view ≠ some ptr then ⟨some .notBestBlock, true, view⟩
  else if !pindex.nStatus.haveUndo then ⟨some .noUndoData, true, view⟩
  else match blockUndo with
    | none => ⟨some .readFailure, true, view⟩
    | some undo =>
      if undo.vtxundo.length+1 ≠ block.vtx.length then
        ⟨some .blockUndoInconsistent, true, view⟩
      else match block.vtx with
        | [] => ⟨some .blockUndoInconsistent, true, view⟩
        | tx :: vtx =>
          let rest := disconnectTxs cons.ext.txHash pindex.nHeight view vtx undo.vtxundo
          if rest.error.isSome then rest
          else
            let (same,view) := removeOutputs cons.ext.txHash pindex.nHeight rest.view tx
            -- move best block pointer to prevout block
            ⟨none, rest.fClean && same, match pindex.pprev with
              | none => view
              | some pprev => setBestBlock view pprev⟩

end Connect

section ConnectOk
variable {V : Type} [CCoinsView V] {cons : Consensus}

theorem updateStep_ok {env : LoopEnv} {tx : CTransaction} {s s' : BlockLoop V}
    (h : updateStep cons env tx s = (none,s')) :
    ∃ view txundo, updateCoins s.view tx env.nHeight (cons.ext.txHash tx) = some (view,txundo) ∧
      s' = { s with view := view
                    vtxundo := if tx.isCoinBase then s.vtxundo else s.vtxundo ++ [txundo] } := by
  rw [updateStep] at h
  split at h
  · cases h
  · rename_i view txundo hupdate
    exact ⟨view, txundo, hupdate, (Prod.mk.inj h).2.symm⟩

/-- What one turn of the loop has done when it goes on. -/
structure TxConnected (cons : Consensus) (env : LoopEnv) (tx : CTransaction)
    (s s' : BlockLoop V) : Prop where
  update : ∃ txundo, updateCoins s.view tx env.nHeight (cons.ext.txHash tx) =
      some (s'.view,txundo) ∧
    s'.vtxundo = if tx.isCoinBase then s.vtxundo else s.vtxundo ++ [txundo]
  values : ∃ nTxValueOut, tx.getValueOut = some nTxValueOut ∧
    s'.nValueOut = s.nValueOut+nTxValueOut ∧
    s'.nValueIn = s.nValueIn+getValueIn s.view tx ∧
    s'.nFees = s.nFees+if tx.isCoinBase then 0 else getValueIn s.view tx-nTxValueOut
  inputs : tx.isCoinBase = false → haveInputs s.view tx = true

theorem connectTx_ok {env : LoopEnv} {tx : CTransaction} {s s' : BlockLoop V}
    (h : connectTx cons env tx s = (none,s')) : TxConnected cons env tx s s' := by
  rw [connectTx] at h
  split at h
  · cases h
  split at h
  · rename_i hcb
    split at h
    · cases h
    · rename_i nTxValueOut hvalue
      obtain ⟨view,txundo,hupdate,rfl⟩ := updateStep_ok h
      refine ⟨⟨txundo, hupdate, rfl⟩, ⟨nTxValueOut, hvalue, rfl, ?_, ?_⟩, ?_⟩
      · simp [getValueIn, hcb]
      · simp [hcb]
      · intro hf
        rw [hcb] at hf
        cases hf
  split at h
  · cases h
  rename_i hcb hin
  rw [Bool.not_eq_true] at hcb
  -- counting the sigops of the previous outputs leaves the rest of the state alone
  generalize hs1 : (if env.fStrictPayToScriptHash = true then _ else _ : BlockLoop V) = s1 at h
  have hkeep : s1.view = s.view ∧ s1.vtxundo = s.vtxundo ∧ s1.nFees = s.nFees ∧
      s1.nValueIn = s.nValueIn ∧ s1.nValueOut = s.nValueOut := by
    rw [← hs1]
    split_ifs <;> exact ⟨rfl, rfl, rfl, rfl, rfl⟩
  obtain ⟨hview,hundo,hfees,hvin,hvout⟩ := hkeep
  dsimp only at h
  split at h
  · cases h
  split at h
  · cases h
  rename_i nTxValueOut hvalue
  split at h
  · cases h
  obtain ⟨view,txundo,hupdate,rfl⟩ := updateStep_ok h
  refine ⟨⟨txundo, ?_, ?_⟩, ⟨nTxValueOut, hvalue, ?_, ?_, ?_⟩, ?_⟩
  · rw [← hview]
    exact hupdate
  · simp only [hundo]
  · simp only [hvout]
  · simp only [hvin, hview]
  · simp only [hfees, hview, hcb, Bool.false_eq_true, if_false]
  · intro _
    simpa using hin

/-- A loop over transactions in which every turn went on. -/
inductive TxsConnected (cons : Consensus) (env : LoopEnv) :
    List CTransaction → BlockLoop V → BlockLoop V → Prop
  | nil (s : BlockLoop V) : TxsConnected cons env [] s s
  | cons {tx : CTransaction} {vtx : List CTransaction} {s s1 s' : BlockLoop V}
      (head : TxConnected cons env tx s s1) (tail : TxsConnected cons env vtx s1 s') :
      TxsConnected cons env (tx :: vtx) s s'

theorem connectTxs_ok {env : LoopEnv} {vtx : List CTransaction} {s s' : BlockLoop V}
    (h : connectTxs cons env vtx s = (none,s')) : TxsConnected cons env vtx s s' := by
  induction vtx generalizing s with
  | nil =>
    obtain rfl : s = s' := (Prod.mk.inj h).2
    exact TxsConnected.nil s
  | cons tx vtx ih =>
    rw [connectTxs] at h
    split at h
    · cases h
    · rename_i s1 htx
      exact TxsConnected.cons (connectTx_ok htx) (ih h)

/-- The loop runs `UpdateCoins` for the transactions after the first. -/
theorem TxsConnected.updateTxs {env : LoopEnv} {vtx : List CTransaction} {s s' : BlockLoop V}
    (h : TxsConnected cons env vtx s s') (hcb : ∀ tx ∈ vtx, tx.isCoinBase = false) :
    ∃ vtxundo, Coins.updateTxs cons.ext.txHash env.nHeight s.view vtx = some (s'.view,vtxundo) ∧
      s'.vtxundo = s.vtxundo ++ vtxundo := by
  induction h with
  | nil s => exact ⟨[], rfl, (List.append_nil _).symm⟩
  | @cons tx vtx s s1 s' head tail ih =>
    obtain ⟨txundo,hupdate,hundo⟩ := head.update
    obtain ⟨vtxundo,hrest,hundos⟩ := ih fun tx' hmem => hcb tx' (List.mem_cons_of_mem _ hmem)
    refine ⟨txundo :: vtxundo, ?_, ?_⟩
    · simp only [Coins.updateTxs, hupdate, hrest, Option.bind_eq_bind, Option.bind_some,
        Option.pure_def]
    · rw [hundos, hundo, hcb tx List.mem_cons_self, if_neg Bool.false_ne_true, List.append_assoc,
        List.singleton_append]

/-- The state the loop of a block starts in. -/
def BlockLoop.start (view : V) : BlockLoop V := ⟨view, [], 0, 0, 0, 0, []⟩

/-- A block that `ConnectBlock` found valid on a view, with the state its loop ended in. -/
structure BlockValid (cons : Consensus) (mapBlockIndex : BlockPtr → Option CBlockIndex)
    (block : CBlock) (pindex : CBlockIndex) (view : V) (pprev : CBlockIndex)
    (s : BlockLoop V) : Prop where
  checked : block.Checked cons.ext
  merkle : block.hashMerkleRoot = buildMerkleTree cons.ext.nodeHash (block.txHashes cons.ext)
  notGenesis : block.getHash cons.ext ≠ cons.hashGenesisBlock
  best : getBestBlock view = pindex.pprev
  prev : pindex.pprev.bind mapBlockIndex = some pprev
  fresh : bip30Exempt pindex = false →
    ∀ tx ∈ block.vtx, live (getCoins view (cons.ext.txHash tx)) = none
  loop : ∃ env : LoopEnv, env.nHeight = pindex.nHeight ∧
    TxsConnected cons env block.vtx (BlockLoop.start view) s
  limit : ∃ coinbase vtx, block.vtx = coinbase :: vtx ∧ coinbase.getValueOut.getD 0 ≤
    getBlockValue cons.target pindex.nBits s.nFees-coinbase.getMinFee cons.fees 1 false .block+
      minTxFee

theorem not_any_live {view : V} {vtx : List CTransaction}
    (h : ¬ vtx.any (fun tx => (getCoins view (cons.ext.txHash tx)).any fun coins =>
      !coins.isPruned) = true) :
    ∀ tx ∈ vtx, live (getCoins view (cons.ext.txHash tx)) = none := by
  intro tx hmem
  cases hentry : getCoins view (cons.ext.txHash tx) with
  | none => rfl
  | some coins =>
    cases hp : coins.isPruned with
    | true => exact live_none_of_pruned hp
    | false =>
      exfalso
      apply h
      rw [List.any_eq_true]
      exact ⟨tx, hmem, by simp [hentry, hp]⟩

/-- The ways out of `ConnectBlock`: a failure that leaves no undo data, the genesis block, or
the writes after a valid block. -/
theorem connectBlock_cases {io : ConnectIO} {mapBlockIndex : BlockPtr → Option CBlockIndex}
    {block : CBlock} {ptr : BlockPtr} {pindex : CBlockIndex} {view : V} {r : ConnectResult V}
    (hr : connectBlock cons io mapBlockIndex block ptr pindex view false = r) :
    (r.error ≠ none ∧ r.undoWritten = none ∧ r.blockundo = none ∧
      ∃ m, r.pindex = { pindex with nMoneySupply := m }) ∨
    (block.getHash cons.ext = cons.hashGenesisBlock ∧ getBestBlock view = pindex.pprev ∧
      block.Checked cons.ext ∧ r = ⟨none, setBestBlock view ptr, pindex, none, none⟩) ∨
    (∃ pprev s, BlockValid cons mapBlockIndex block pindex view pprev s ∧
      r = recordBlock cons io ptr
        { pindex with nMoneySupply := pprev.nMoneySupply+s.nValueOut-s.nValueIn } s.view
        ⟨s.vtxundo⟩) := by
  have hfail (e : ConnectError) (m : ℤ) (v : V)
      (h : (⟨some e, v, { pindex with nMoneySupply := m }, none, none⟩ : ConnectResult V) = r) :
      r.error ≠ none ∧ r.undoWritten = none ∧ r.blockundo = none ∧
        ∃ m, r.pindex = { pindex with nMoneySupply := m } := by
    rw [← h]
    exact ⟨by simp, rfl, rfl, m, rfl⟩
  rw [connectBlock] at hr
  dsimp only at hr
  -- each check that fails leaves with an error and at most another money supply
  split at hr
  · exact Or.inl (hfail _ _ _ hr)
  rename_i hcheck
  obtain ⟨hchecked,hmerkle⟩ := checkBlock_ok hcheck
  split at hr
  · exact Or.inl (hfail _ _ _ hr)
  rename_i hbest
  rw [ne_eq, not_not] at hbest
  split at hr
  · rename_i hgenesis
    exact Or.inr (Or.inl ⟨hgenesis, hbest.symm, hchecked, hr.symm⟩)
  rename_i hgenesis
  split at hr
  · exact Or.inl (hfail _ _ _ hr)
  rename_i hbip30
  split at hr
  · exact Or.inl (hfail _ _ _ hr)
  rename_i pprev hprev
  split at hr
  · exact Or.inl (hfail _ _ _ hr)
  rename_i s hloop
  simp only [Bool.false_eq_true, if_false, Bool.not_false, Bool.true_and] at hr
  split at hr
  · exact Or.inl (hfail _ _ _ hr)
  split at hr
  · exact Or.inl (hfail _ _ _ hr)
  rename_i coinbase hhead
  split at hr
  · exact Or.inl (hfail _ _ _ hr)
  rename_i hlimit
  split at hr
  · exact Or.inl (hfail _ _ _ hr)
  refine Or.inr (Or.inr ⟨pprev, s, ⟨hchecked, hmerkle rfl, hgenesis, hbest.symm, hprev, ?_,
    ⟨_, rfl, connectTxs_ok hloop⟩, ?_⟩, hr.symm⟩)
  · intro hexempt
    rw [hexempt, Bool.not_false, Bool.true_and] at hbip30
    exact not_any_live hbip30
  · obtain ⟨vtx,hvtx⟩ := List.head?_eq_some_iff.mp hhead
    exact ⟨coinbase, vtx, hvtx, not_lt.mp hlimit⟩

/-- The writes after a valid block: they touch the status of the entry alone, and the undo data
is written unless it is there already. -/
theorem recordBlock_effect {io : ConnectIO} {ptr : BlockPtr} {pindex : CBlockIndex} {view : V}
    {blockundo : CBlockUndo} {r : ConnectResult V}
    (hr : recordBlock cons io ptr pindex view blockundo = r) :
    r.blockundo = some blockundo ∧
    (r.error = none → r.view = setBestBlock view ptr ∧ r.pindex.nStatus.haveUndo = true) ∧
    (∃ level haveUndo, r.pindex = { pindex with
        nStatus := { pindex.nStatus with validLevel := level, haveUndo := haveUndo } } ∧
      (r.undoWritten = none ∧ haveUndo = pindex.nStatus.haveUndo ∨
        pindex.nStatus.haveUndo = false ∧ r.undoWritten = some blockundo ∧ haveUndo = true)) := by
  obtain ⟨hash,pprev,pnext,height,work,supply,⟨level,data,haveUndo,failed,child⟩,root,time,bits⟩ :=
    pindex
  simp only [recordBlock] at hr
  cases haveUndo with
  | false =>
    simp only [Bool.not_false, if_true] at hr
    split_ifs at hr <;> subst hr <;> simp
  | true =>
    simp only [Bool.not_true, Bool.false_eq_true, if_false] at hr
    split_ifs at hr <;> subst hr <;> simp

end ConnectOk

end Candypool.Coins
