import Candypool.Chain.State

/-! `SetBestChain`, `ConnectBestBlock` and `AddToBlockIndex`. A block that fails to connect makes
`SetBestChain` call `ConnectBestBlock` again if it was on the main chain; that call is the
argument `nested` until the two are tied together. -/
namespace Candypool.Chain
open Candypool.Prime Candypool.Core Candypool.Coins Candypool.Lib

section Defs
variable {W : Type} (cons : Consensus) (sync : WalletSync W)

/-- The loop over `vDisconnect`: it takes the blocks back in the view and collects the
transactions to resurrect. Blocks up to the last checkpoint leave none. -/
def disconnectLoop (io : ChainIO) (s : NodeState W) : List BlockPtr → CCoinsViewCache →
    List CTransaction → Except ChainExit (CCoinsViewCache × List CTransaction)
  | [], view, vResurrect => .ok (view, vResurrect)
  | p :: ps, view, vResurrect =>
    match s.mapBlockIndex p with
    | none => .error .assertion
    | some pindex =>
      match s.readBlock cons io p pindex with
      | none => .error .readBlock
      | some block =>
        let r := disconnectBlock cons block p pindex (s.readUndo io p) view
        if r.error.isSome || !r.fClean then .error .disconnect
        else
          let queue := if pindex.nHeight > cons.nTotalBlocksEstimate then
            block.vtx.filter fun tx => !tx.isCoinBase else []
          disconnectLoop io s ps r.view (queue ++ vResurrect)

/-- `InvalidBlockFound`. -/
def invalidBlockFound (nested : NodeState W → ChainExit × NodeState W) (s : NodeState W)
    (p : BlockPtr) : Option ChainExit × NodeState W :=
  let s := { s with
    mapBlockIndex := modifyIndex s.mapBlockIndex p fun pindex =>
      { pindex with nStatus := { pindex.nStatus with failedValid := true } }
    setBlockIndexValid := s.setBlockIndexValid.filter (· ≠ p) }
  let s := s.invalidChainFound p
  if (nextOf s.mapBlockIndex p).isSome then
    -- reorganise away from the failed block
    match nested s with
    | (.assertion, s) => (some .assertion, s)
    | (.unfinished, s) => (some .unfinished, s)
    | (_, s) => (none, s)
  else (none, s)

/-- What a `ConnectBlock` failure does before `SetBestChain` returns. -/
def connectFailed (nested : NodeState W → ChainExit × NodeState W) (pindexNew p : BlockPtr)
    (e : ConnectError) (s : NodeState W) : ChainExit × NodeState W :=
  if e.isInvalid then
    match invalidBlockFound nested (s.invalidChainFound pindexNew) p with
    | (some exit, s) => (exit, s)
    | (none, s) => (.connect e, s)
  else (.connect e, s)

/-- What the loop over `vConnect` carries. -/
structure ConnectLoop (W : Type) where
  exit : ChainExit
  node : NodeState W
  view : CCoinsViewCache
  vDelete : List CTransaction

/-- The loop over `vConnect`. The coins go to the view; the index, the undo file and the wallets
are written at once. -/
def connectLoop (nested : NodeState W → ChainExit × NodeState W) (io : ChainIO)
    (pindexNew : BlockPtr) : List BlockPtr → NodeState W → CCoinsViewCache → List CTransaction →
    ConnectLoop W
  | [], s, view, vDelete => ⟨.ok, s, view, vDelete⟩
  | p :: ps, s, view, vDelete =>
    match s.mapBlockIndex p with
    | none => ⟨.assertion, s, view, vDelete⟩
    | some pindex =>
      match s.readBlock cons io p pindex with
      | none => ⟨.readBlock, s, view, vDelete⟩
      | some block =>
        let r := connectBlock cons (io.connect p) s.mapBlockIndex block p pindex view false
        let s := s.connected cons sync p block r
        match r.error with
        | some e =>
          let (exit,s) := connectFailed nested pindexNew p e s
          ⟨exit, s, r.view, vDelete⟩
        | none => connectLoop nested io pindexNew ps s r.view (vDelete ++ block.vtx)

/-- The part of `SetBestChain` after the database was written. -/
def updateMemory (io : ChainIO) (s : NodeState W) (vDisconnect vConnect : List BlockPtr)
    (vResurrect vDelete : List CTransaction) (pindexNew : BlockPtr) : NodeState W :=
  let s := { s with mapBlockIndex := NodeState.relink s.mapBlockIndex vDisconnect vConnect }
  let s := vResurrect.foldl (fun s tx => s.resurrect cons sync io tx) s
  let s := { s with mempool := s.mempool.deleteAll cons.ext.txHash vDelete }
  s.setTip pindexNew

/-- The last block both chains have, and what has to be disconnected and connected. -/
def findBranches (m : BlockPtr → Option CBlockIndex) (best : Option BlockPtr)
    (pindexNew : BlockPtr) : Option (List BlockPtr × List BlockPtr) := do
  let pfork ← match best with
    | none => some none
    | some b => (findFork (parentOf m) (heightOf m) (heightOf m b+1) b pindexNew).map some
  let fuel := (best.map (heightOf m)).getD 0+1
  let vDisconnect ← pathTo (parentOf m) pfork fuel best
  let vConnect ← pathTo (parentOf m) pfork (heightOf m pindexNew+1) (some pindexNew)
  return (vDisconnect, vConnect.reverse)

/-- The second half of `SetBestChain`, from the flush of the view on. -/
def pushView (io : ChainIO) (vDisconnect vConnect : List BlockPtr) (vResurrect : List CTransaction)
    (pindexNew : BlockPtr) (c : ConnectLoop W) : ChainExit × NodeState W :=
  -- flush changes to global coin state
  let s := c.node.flushView c.view
  if io.fFlush && !io.checkDiskSpace then (.diskSpace, s)
  else if io.fFlush && !io.flush then (.flush, s)
  else
    let s := if io.fFlush then s.flushTip else s
    (.ok, updateMemory cons sync io s vDisconnect vConnect vResurrect c.vDelete pindexNew)

def setBestChain (nested : NodeState W → ChainExit × NodeState W) (io : ChainIO)
    (pindexNew : BlockPtr) (s : NodeState W) : ChainExit × NodeState W :=
  match findBranches s.mapBlockIndex (getBestBlock s.newView) pindexNew with
  | none => (.assertion, s)
  | some (vDisconnect,vConnect) =>
    match disconnectLoop cons io s vDisconnect s.newView [] with
    | .error exit => (exit, s)
    | .ok (view,vResurrect) =>
      let c := connectLoop cons sync nested io pindexNew vConnect s view []
      match c.exit with
      | .ok => pushView cons sync io vDisconnect vConnect vResurrect pindexNew c
      | exit => (exit, c.node)

/-- What the walk from the heaviest candidate to the main chain finds. -/
inductive Ancestry
  | failed (pindexTest : BlockPtr)
  | attach (vAttach : List BlockPtr)
  deriving DecidableEq

/-- The inner loop of `ConnectBestBlock`. -/
def checkAncestry (m : BlockPtr → Option CBlockIndex) (pindexBest : Option BlockPtr) :
    ℕ → BlockPtr → List BlockPtr → Option Ancestry
  | 0, _, _ => none
  | fuel+1, pindexTest, vAttach =>
    match m pindexTest with
    | none => none
    | some test =>
      if isFailed test then some (.failed pindexTest)
      else
        let vAttach := if pindexBest.all fun best => decide (test.nChainWork > workOf m best) then
          pindexTest :: vAttach else vAttach
        match test.pprev, test.pnext with
        | some pprev, none => checkAncestry m pindexBest fuel pprev vAttach
        | _, _ => some (.attach vAttach)

/-- Mark descendants failed. -/
def markFailed (s : NodeState W) (descendants : List BlockPtr) : NodeState W :=
  descendants.foldl (fun s p => { s with
    mapBlockIndex := modifyIndex s.mapBlockIndex p fun pindex =>
      { pindex with nStatus := { pindex.nStatus with failedChild := true } }
    setBlockIndexValid := s.setBlockIndexValid.filter (· ≠ p) }) s

/-- `SetBestChain` for each block to attach, until one fails. -/
def attach (setBest : BlockPtr → NodeState W → ChainExit × NodeState W) :
    List BlockPtr → NodeState W → ChainExit × NodeState W
  | [], s => (.ok, s)
  | p :: ps, s => match setBest p s with
    | (.ok, s) => attach setBest ps s
    | (exit, s) => (exit, s)

/-- The outer loop of `ConnectBestBlock`. -/
def bestLoop (setBest : BlockPtr → NodeState W → ChainExit × NodeState W) :
    ℕ → NodeState W → ChainExit × NodeState W
  | 0, s => (.unfinished, s)
  | fuel+1, s =>
    let m := s.mapBlockIndex
    match rbegin m s.setBlockIndexValid with
    | none => (.ok, s)
    | some pindexNewBest =>
      -- nothing to do
      if s.pindexBest.any fun best =>
          best == pindexNewBest || workOf m pindexNewBest == workOf m best then (.ok, s)
      else match checkAncestry m s.pindexBest (heightOf m pindexNewBest+1) pindexNewBest [] with
        | none => (.assertion, s)
        | some (.attach vAttach) => attach setBest vAttach s
        | some (.failed pindexTest) =>
          match pathTo (parentOf m) (some pindexTest) (heightOf m pindexNewBest+1)
              (some pindexNewBest) with
          | none => (.assertion, s)
          | some descendants =>
            bestLoop setBest fuel ((markFailed s descendants).invalidChainFound pindexNewBest)

/-- `ConnectBestBlock`, at a depth of nesting and with the outcomes of the `SetBestChain` calls
made there. Each turn of the outer loop but the last takes a candidate out of the set. -/
def connectBestBlock (io : ℕ → BlockPtr → ChainIO) : ℕ → ℕ → NodeState W → ChainExit × NodeState W
  | 0, _, s => (.unfinished, s)
  | fuel+1, depth, s =>
    bestLoop (fun p s =>
      setBestChain cons sync (connectBestBlock io fuel (depth+1)) (io depth p) p s)
      (s.setBlockIndexValid.length+1) s

/-- The outcomes of one `AddToBlockIndex` call. -/
structure AddIO where
  writeBlockIndex : Bool
  syncBlockIndex : Bool
  chain : ℕ → BlockPtr → ChainIO

/-- The new index entry. -/
def newIndex (m : BlockPtr → Option CBlockIndex) (block : CBlock) : CBlockIndex :=
  let pprev := (m block.hashPrevBlock).map fun _ => block.hashPrevBlock
  { phashBlock := some (block.getHash cons.ext)
    pprev := pprev
    pnext := none
    nHeight := (pprev.map fun p => heightOf m p+1).getD 0
    nChainWork := (pprev.map (workOf m)).getD 0+
      BitVec.ofNat 256 (getBlockWork cons.target block.nBits)
    nMoneySupply := 0
    nStatus := ⟨blockValidTransactions, true, false, false, false⟩
    hashMerkleRoot := block.hashMerkleRoot
    nTime := block.nTime
    nBits := block.nBits }

/-- The block is on the disk by the time `AddToBlockIndex` is called; its entry is a candidate
at once. -/
def insertIndex (s : NodeState W) (block : CBlock) : NodeState W :=
  let hash := block.getHash cons.ext
  { s with
    mapBlockIndex := Function.update s.mapBlockIndex hash
      (some (newIndex cons s.mapBlockIndex block))
    setBlockIndexValid := hash :: s.setBlockIndexValid
    blockFile := Function.update s.blockFile hash (some block) }

def addToBlockIndex (io : AddIO) (fuel : ℕ) (block : CBlock) (s : NodeState W) :
    ChainExit × NodeState W :=
  if (s.mapBlockIndex (block.getHash cons.ext)).isSome then (.duplicate, s)
  else if !io.writeBlockIndex then (.writeBlockIndex, insertIndex cons s block)
  else
    let r := connectBestBlock cons sync io.chain (fuel+1) 0 (insertIndex cons s block)
    if r.1 = .ok && !io.syncBlockIndex then (.syncBlockIndex, r.2) else r

end Defs

end Candypool.Chain
