import Candypool.Chain.Mempool
import Candypool.Lib.Tree

/-! The globals of the node that chain selection works on, and the writes to them that are not
loops. `W` is what the registered wallets keep. -/
namespace Candypool.Chain
open Candypool.Prime Candypool.Core Candypool.Coins Candypool.Lib

/-- The block tree, the coins with the database under them, the tip, the pool and the wallets.
`blockFile` and `undoFile` are the two kinds of block files, by the index entry that points into
them. -/
structure NodeState (W : Type) where
  mapBlockIndex : BlockPtr → Option CBlockIndex
  setBlockIndexValid : List BlockPtr
  blockFile : BlockPtr → Option CBlock
  undoFile : BlockPtr → Option CBlockUndo
  pcoinsdbview : CCoinsViewDB
  cacheCoins : Utxo
  pindexTip : Option BlockPtr
  pindexBest : Option BlockPtr
  hashBestChain : Uint256
  nBestHeight : ℤ
  nBestChainWork : Uint256
  nBestInvalidWork : Uint256
  mempool : CTxMemPool
  wallet : W

/-- `SyncWithWallets`: the wallets are told of a transaction and of the block it is in. -/
abbrev WalletSync (W : Type) := W → Uint256 → CTransaction → Option CBlock → W

/-- The outcomes of one `SetBestChain` call that the node does not decide: reads and writes of
the disk, the clock, and whether it is time to flush (the initial download is over, or the cache
has grown past its limit). -/
structure ChainIO where
  readBlock : BlockPtr → Bool
  readUndo : BlockPtr → Bool
  connect : BlockPtr → ConnectIO
  fFlush : Bool
  checkDiskSpace : Bool
  flush : Bool
  accept : CTransaction → AcceptIO

/-- How a call on the chain ends. `assertion` is a failed assertion or a null pointer that is
followed, `unfinished` a loop that was cut off. -/
inductive ChainExit
  | ok
  | readBlock
  | disconnect
  | connect (e : ConnectError)
  | diskSpace
  | flush
  | duplicate
  | writeBlockIndex
  | syncBlockIndex
  | assertion
  | unfinished
  deriving DecidableEq, Repr

def parentOf (m : BlockPtr → Option CBlockIndex) (p : BlockPtr) : Option BlockPtr :=
  (m p).bind CBlockIndex.pprev

def heightOf (m : BlockPtr → Option CBlockIndex) (p : BlockPtr) : ℕ :=
  ((m p).map CBlockIndex.nHeight).getD 0

def workOf (m : BlockPtr → Option CBlockIndex) (p : BlockPtr) : Uint256 :=
  ((m p).map CBlockIndex.nChainWork).getD 0

def nextOf (m : BlockPtr → Option CBlockIndex) (p : BlockPtr) : Option BlockPtr :=
  (m p).bind CBlockIndex.pnext

/-- `nStatus & BLOCK_FAILED_MASK`. -/
def isFailed (pindex : CBlockIndex) : Bool :=
  pindex.nStatus.failedValid || pindex.nStatus.failedChild

/-- A write to one entry. -/
def modifyIndex (m : BlockPtr → Option CBlockIndex) (p : BlockPtr) (f : CBlockIndex → CBlockIndex) :
    BlockPtr → Option CBlockIndex :=
  Function.update m p ((m p).map f)

/-- `CBlockIndexWorkComparator`: more work comes later, and so does the smaller hash. -/
def workLess (m : BlockPtr → Option CBlockIndex) (pa pb : BlockPtr) : Bool :=
  if workOf m pa > workOf m pb then false
  else if workOf m pa < workOf m pb then true
  else decide (pb < pa)

/-- The last element of the set in the order of the comparator. -/
def rbegin (m : BlockPtr → Option CBlockIndex) : List BlockPtr → Option BlockPtr
  | [] => none
  | p :: ps => match rbegin m ps with
    | none => some p
    | some q => if workLess m p q then some q else some p

/-- The hash under `'B'`, if the index knows it. -/
def getBestBlockDB (db : CCoinsViewDB) (m : BlockPtr → Option CBlockIndex) : Option BlockPtr :=
  db.hashBestChain.filter fun hash => (m hash).isSome

def nWorkTransitionRatio : ℕ := 32
def nFractionalDifficultyMax : ℕ := 2^(nFractionalBits+32)
def nFractionalDifficultyMin : ℕ := 2^32

def targetGetFractionalDifficulty (nBits : BitVec 32) : ℕ :=
  nFractionalDifficultyMax/(2^nFractionalBits-(nBits &&& targetFractionalMask).toNat)

def getBlockWork (params : TargetParams) (nBits : BitVec 32) : ℕ :=
  let nFractionalDifficulty := targetGetFractionalDifficulty nBits
  let bnWork := 256*nWorkTransitionRatio^((targetGetLength nBits).toNat-params.nTargetMinLength.toNat)
  bnWork*(nWorkTransitionRatio*nFractionalDifficulty)/
    ((nWorkTransitionRatio-1)*nFractionalDifficultyMin+nFractionalDifficulty)

/-- How undo data comes back from the disk: the version is written only with a height. -/
def storeInput (undo : CTxInUndo) : CTxInUndo :=
  { undo with nVersion := if 0 < undo.nHeight then storedVersion undo.nVersion else 0 }

def storeUndo (blockundo : CBlockUndo) : CBlockUndo :=
  ⟨blockundo.vtxundo.map fun txundo => ⟨txundo.vprevout.map storeInput⟩⟩

namespace NodeState
variable {W : Type}

/-- `pcoinsTip`: the cache over the database. -/
def pcoinsTip (s : NodeState W) : CCoinsViewCache :=
  ⟨s.pcoinsdbview.coins, getBestBlockDB s.pcoinsdbview s.mapBlockIndex, s.cacheCoins, s.pindexTip⟩

/-- The cache `SetBestChain` works in, after its first `GetBestBlock`. -/
def newView (s : NodeState W) : CCoinsViewCache :=
  { CCoinsViewCache.ofBase s.pcoinsTip.coinsOf (getBestBlock s.pcoinsTip) with
    pindexTip := getBestBlock s.pcoinsTip }

/-- `Flush` of that cache into `pcoinsTip`. -/
def flushView (s : NodeState W) (view : CCoinsViewCache) : NodeState W :=
  { s with cacheCoins := (s.pcoinsTip.batchWrite view.cacheCoins view.pindexTip).cacheCoins
           pindexTip := view.pindexTip }

/-- `pcoinsTip->Flush()` into the database. -/
def flushTip (s : NodeState W) : NodeState W :=
  { s with pcoinsdbview := s.pcoinsdbview.batchWrite s.cacheCoins s.pindexTip
           cacheCoins := fun _ => none }

/-- `ReadFromDisk` of the block of an index entry. -/
def readBlock (cons : Consensus) (io : ChainIO) (s : NodeState W) (p : BlockPtr)
    (pindex : CBlockIndex) : Option CBlock :=
  if pindex.nStatus.haveData && io.readBlock p then
    (s.blockFile p).filter fun block => some (block.getHash cons.ext) == pindex.phashBlock
  else none

def readUndo (io : ChainIO) (s : NodeState W) (p : BlockPtr) : Option CBlockUndo :=
  if io.readUndo p then s.undoFile p else none

def invalidChainFound (s : NodeState W) (pindexNew : BlockPtr) : NodeState W :=
  if workOf s.mapBlockIndex pindexNew > s.nBestInvalidWork then
    { s with nBestInvalidWork := workOf s.mapBlockIndex pindexNew }
  else s

/-- What a `ConnectBlock` call leaves in the index, in the undo file and in the wallets, which
hear of a block other than the genesis block once it is connected. -/
def connected (cons : Consensus) (sync : WalletSync W) (s : NodeState W) (p : BlockPtr)
    (block : CBlock) (r : ConnectResult CCoinsViewCache) : NodeState W :=
  { s with
    mapBlockIndex := modifyIndex s.mapBlockIndex p fun _ => r.pindex
    undoFile := match r.undoWritten with
      | none => s.undoFile
      | some blockundo => Function.update s.undoFile p (some (storeUndo blockundo))
    wallet := if r.error.isNone && r.blockundo.isSome then
        block.vtx.foldl (fun w tx => sync w (cons.ext.txHash tx) tx (some block)) s.wallet
      else s.wallet }

/-- `pprev->pnext` of the disconnected blocks, then of the connected ones. -/
def relink (m : BlockPtr → Option CBlockIndex) (vDisconnect vConnect : List BlockPtr) :
    BlockPtr → Option CBlockIndex :=
  let clear := fun m p => match parentOf m p with
    | none => m
    | some pprev => modifyIndex m pprev fun pindex => { pindex with pnext := none }
  let set := fun m p => match parentOf m p with
    | none => m
    | some pprev => modifyIndex m pprev fun pindex => { pindex with pnext := some p }
  vConnect.foldl set (vDisconnect.foldl clear m)

/-- `AcceptToMemoryPool`. -/
def acceptToMemoryPool (cons : Consensus) (sync : WalletSync W) (io : AcceptIO) (s : NodeState W)
    (tx : CTransaction) (fCheckInputs fLimitFree : Bool) : Option (NodeState W) :=
  let nSpendHeight := ((getBestBlock s.pcoinsTip).map (heightOf s.mapBlockIndex)).getD 0+1
  (accept cons io s.pcoinsTip.coinsOf nSpendHeight s.mempool tx fCheckInputs fLimitFree).map
    fun mempool => { s with mempool := mempool
                            wallet := sync s.wallet (cons.ext.txHash tx) tx none }

/-- A transaction of a disconnected block goes back to the pool, or what depends on it leaves. -/
def resurrect (cons : Consensus) (sync : WalletSync W) (io : ChainIO) (s : NodeState W)
    (tx : CTransaction) : NodeState W :=
  match s.acceptToMemoryPool cons sync (io.accept tx) tx true false with
  | some s => s
  | none => { s with mempool := s.mempool.remove cons.ext.txHash tx true }

/-- The new best block. -/
def setTip (s : NodeState W) (pindexNew : BlockPtr) : NodeState W :=
  { s with
    hashBestChain := ((s.mapBlockIndex pindexNew).bind CBlockIndex.phashBlock).getD 0
    pindexBest := some pindexNew
    nBestHeight := heightOf s.mapBlockIndex pindexNew
    nBestChainWork := workOf s.mapBlockIndex pindexNew }

end NodeState

end Candypool.Chain
