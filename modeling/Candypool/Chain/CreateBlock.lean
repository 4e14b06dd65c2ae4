import Candypool.Chain.AcceptBlock
import Candypool.Chain.PoolConnect

/-! `CreateNewBlock`. Numbers of type `double`, and how a heap orders its elements beyond the first
one, are left open: a priority decides which transaction is looked at next and nothing else. -/
namespace Candypool.Chain
open Candypool.Prime Candypool.Core Candypool.Coins

/-- The operations on `double` of the priorities. -/
structure Doubles (D : Type) where
  ofInt : ℤ → D
  add : D → D → D
  mul : D → D → D
  div : D → D → D
  less : D → D → Bool
  equal : D → D → Bool

structure TxPriority (D : Type) where
  dPriority : D
  dFeePerKb : D
  tx : CTransaction

/-- `TxPriorityCompare`. -/
def txPriorityCompare {D : Type} (dbl : Doubles D) (byFee : Bool) (a b : TxPriority D) : Bool :=
  if byFee then
    if dbl.equal a.dFeePerKb b.dFeePerKb then dbl.less a.dPriority b.dPriority
    else dbl.less a.dFeePerKb b.dFeePerKb
  else
    if dbl.equal a.dPriority b.dPriority then dbl.less a.dFeePerKb b.dFeePerKb
    else dbl.less a.dPriority b.dPriority

/-- `make_heap`, `pop_heap` with the `pop_back` after it, and `push_heap` after a `push_back`. The
element that is popped is the first one. -/
structure HeapFunctions (T : Type) where
  makeHeap : (T → T → Bool) → List T → List T
  popHeap : (T → T → Bool) → List T → List T
  pushHeap : (T → T → Bool) → T → List T → List T
  makeHeap_perm : ∀ less v, (makeHeap less v).Perm v
  popHeap_perm : ∀ less v, (popHeap less v).Perm v.tail
  pushHeap_perm : ∀ less x v, (pushHeap less x v).Perm (x :: v)

structure COrphan (D : Type) where
  ptx : CTransaction
  setDependsOn : Finset Uint256
  dPriority : D
  dFeePerKb : D

/-- The arguments `-blockmaxsize`, `-blockprioritysize` and `-blockminsize`. -/
structure MiningArgs where
  blockMaxSize : Option ℤ
  blockPrioritySize : Option ℤ
  blockMinSize : Option ℤ

structure BlockLimits where
  nBlockMaxSize : ℕ
  nBlockPrioritySize : ℕ
  nBlockMinSize : ℕ

/-- An `int64` as an `unsigned int`. -/
def toUnsigned (n : ℤ) : ℕ := (n % 2^32).toNat

def blockLimits (args : MiningArgs) (nAdjustedTime : ℤ) : BlockLimits :=
  let nBlockMaxSize := toUnsigned (args.blockMaxSize.getD ((maxBlockSizeGen/2 : ℕ) : ℤ))
  let nBlockMaxSize := max 1000 (min (maxBlockSize-1000) nBlockMaxSize)
  let nBlockMaxSize :=
    if nAdjustedTime < 1368576000 then min nBlockMaxSize maxBlockSizeGen else nBlockMaxSize
  ⟨nBlockMaxSize, min nBlockMaxSize (toUnsigned (args.blockPrioritySize.getD 27000)),
    min nBlockMaxSize (toUnsigned (args.blockMinSize.getD 0))⟩

/-- What `CreateNewBlock` reads: the tip with its coins, the pool, the clock and the settings. -/
structure CreateEnv (D : Type) where
  cons : Consensus
  dbl : Doubles D
  heap : HeapFunctions (TxPriority D)
  mapBlockIndex : BlockPtr → Option CBlockIndex
  pindexBest : BlockPtr
  nBestHeight : ℤ
  pcoinsTip : CCoinsViewCache
  pool : CTxMemPool
  nAdjustedTime : ℤ
  args : MiningArgs
  fDebug : Bool

/-- The ends of a call without a template. A bad access is one out of range or through a pointer to
an orphan that was removed. -/
inductive CreateBlockError
  | assertion
  | badAccess
  | valueOutOfRange
  | targetException
  | outOfFuel
  | connectBlock (e : ConnectError)
  deriving DecidableEq, Repr

structure CBlockTemplate where
  block : CBlock
  vTxFees : List ℤ
  vTxSigOps : List ℤ
  deriving DecidableEq, Repr

section Defs
variable {D : Type} (env : CreateEnv D)

/-- A new cache over the coins of the tip. -/
def CreateEnv.freshView : CCoinsViewCache :=
  CCoinsViewCache.ofBase (getCoins env.pcoinsTip) (getBestBlock env.pcoinsTip)

def CreateEnv.comparer (byFee : Bool) : TxPriority D → TxPriority D → Bool :=
  txPriorityCompare env.dbl byFee

/-- The transactions in the order of `mapTx`. -/
def CTxMemPool.inOrder (pool : CTxMemPool) : List CTransaction :=
  (pool.mapTx.entries.insertionSort fun a b => a.1.toNat ≤ b.1.toNat).map Sigma.snd

/-- What the loop over the inputs of one transaction carries. A pointer into `vOrphan` is an index;
an orphan that is taken off the end leaves its place empty, so no pointer is used twice. -/
structure InputScan (D : Type) where
  vOrphan : List (Option (COrphan D))
  mapDependers : Uint256 → List ℕ
  porphan : Option ℕ
  dPriority : D
  nTotalIn : ℤ
  fMissingInputs : Bool

/-- An input that has to wait for a transaction of the pool. -/
def waitFor (tx : CTransaction) (hash : Uint256) (s : InputScan D) : InputScan D :=
  let vOrphan : List (Option (COrphan D)) := match s.porphan with
    | some _ => s.vOrphan
    | none => s.vOrphan ++ [some ⟨tx, ∅, env.dbl.ofInt 0, env.dbl.ofInt 0⟩]
  let porphan := s.porphan.getD s.vOrphan.length
  { s with
    vOrphan := vOrphan.modify porphan fun orphan =>
      orphan.map fun orphan => { orphan with setDependsOn := insert hash orphan.setDependsOn }
    mapDependers := Function.update s.mapDependers hash (s.mapDependers hash ++ [porphan])
    porphan := some porphan }

def scanInputs (view : CCoinsViewCache) (nHeight : ℤ) (tx : CTransaction) :
    List CTxIn → InputScan D → Except CreateBlockError (InputScan D)
  | [], s => .ok s
  | txin :: vin, s =>
    match getCoins view txin.prevout.hash with
    | none =>
      match env.pool.mapTx.lookup txin.prevout.hash with
      | none =>
        if env.fDebug then .error .assertion
        else .ok { s with
          fMissingInputs := true
          vOrphan := if s.porphan.isSome then s.vOrphan.dropLast ++ [none] else s.vOrphan }
      | some prev =>
        match prev.vout[txin.prevout.n]? with
        | none => .error .badAccess
        | some txout =>
          let s := waitFor env tx txin.prevout.hash s
          scanInputs view nHeight tx vin { s with nTotalIn := s.nTotalIn+txout.nValue }
    | some coins =>
      match coins.vout[txin.prevout.n]? with
      | none => .error .badAccess
      | some txout =>
        let nValueIn := txout.nValue
        let nConf := nHeight-coins.nHeight+1
        scanInputs view nHeight tx vin { s with
          nTotalIn := s.nTotalIn+nValueIn
          dPriority := env.dbl.add s.dPriority
            (env.dbl.mul (env.dbl.ofInt nValueIn) (env.dbl.ofInt nConf)) }

/-- The orphans, who waits for which transaction, and the queue. -/
structure Collected (D : Type) where
  vOrphan : List (Option (COrphan D))
  mapDependers : Uint256 → List ℕ
  vecPriority : List (TxPriority D)

/-- The end of a turn of the first loop: the transaction becomes an orphan or goes to the queue. -/
def enqueue (tx : CTransaction) (nValueOut : ℤ) (vecPriority : List (TxPriority D))
    (scan : InputScan D) : Collected D :=
  let nTxSize := tx.getSerializeSize
  let dPriority := env.dbl.div scan.dPriority (env.dbl.ofInt nTxSize)
  let dFeePerKb := env.dbl.div (env.dbl.ofInt (scan.nTotalIn-nValueOut))
    (env.dbl.div (env.dbl.ofInt nTxSize) (env.dbl.ofInt 1000))
  match scan.porphan with
  | some porphan =>
    ⟨scan.vOrphan.modify porphan fun orphan =>
      orphan.map fun orphan => { orphan with dPriority := dPriority, dFeePerKb := dFeePerKb },
      scan.mapDependers, vecPriority⟩
  | none => ⟨scan.vOrphan, scan.mapDependers, vecPriority ++ [⟨dPriority, dFeePerKb, tx⟩]⟩

/-- One turn of the loop over the pool. -/
def collectTx (view : CCoinsViewCache) (nHeight : ℤ) (tx : CTransaction) (c : Collected D) :
    Except CreateBlockError (Collected D) :=
  if tx.isCoinBase || !tx.isFinal env.nBestHeight env.nAdjustedTime 0 0 then .ok c
  else
    match scanInputs env view nHeight tx tx.vin
        ⟨c.vOrphan, c.mapDependers, none, env.dbl.ofInt 0, 0, false⟩ with
    | .error e => .error e
    | .ok scan =>
      if scan.fMissingInputs then .ok ⟨scan.vOrphan, scan.mapDependers, c.vecPriority⟩
      else match tx.getValueOut with
        | none => .error .valueOutOfRange
        | some nValueOut => .ok (enqueue env tx nValueOut c.vecPriority scan)

def collectTxs (view : CCoinsViewCache) (nHeight : ℤ) :
    List CTransaction → Collected D → Except CreateBlockError (Collected D)
  | [], c => .ok c
  | tx :: vtx, c => match collectTx env view nHeight tx c with
    | .error e => .error e
    | .ok c => collectTxs view nHeight vtx c

/-- What the second loop carries. The block, the fees and the sigops are those after the coinbase. -/
structure Assembly (D : Type) where
  vecPriority : List (TxPriority D)
  vOrphan : List (Option (COrphan D))
  view : CCoinsViewCache
  vtx : List CTransaction
  vTxFees : List ℤ
  vTxSigOps : List ℤ
  nBlockSize : ℕ
  nBlockSigOps : ℕ
  nFees : ℤ
  fSortedByFee : Bool

/-- The loop over `mapDependers[hash]`: who waits for nothing else is queued. -/
def releaseOrphans (byFee : Bool) (hash : Uint256) :
    List ℕ → List (Option (COrphan D)) → List (TxPriority D) →
      Except CreateBlockError (List (Option (COrphan D)) × List (TxPriority D))
  | [], vOrphan, vecPriority => .ok (vOrphan, vecPriority)
  | porphan :: dependers, vOrphan, vecPriority =>
    match vOrphan[porphan]?.join with
    | none => .error .badAccess
    | some orphan =>
      if orphan.setDependsOn = ∅ then releaseOrphans byFee hash dependers vOrphan vecPriority
      else
        let setDependsOn := orphan.setDependsOn.erase hash
        releaseOrphans byFee hash dependers
          (vOrphan.set porphan (some { orphan with setDependsOn := setDependsOn }))
          (if setDependsOn = ∅ then
            env.heap.pushHeap (env.comparer byFee) ⟨orphan.dPriority, orphan.dFeePerKb, orphan.ptx⟩
              vecPriority
          else vecPriority)

/-- The part of a turn after the size limits and the order were looked at. -/
def includeTx (nHeight : ℕ) (mapDependers : Uint256 → List ℕ) (tx : CTransaction) (s : Assembly D) :
    Except CreateBlockError (Assembly D) :=
  if !haveInputs s.view tx then .ok s
  else match tx.getValueOut with
    | none => .error .valueOutOfRange
    | some nValueOut =>
      let nTxFees := getValueIn s.view tx-nValueOut
      let nTxSigOps := tx.getLegacySigOpCount+getP2SHSigOpCount s.view tx
      if s.nBlockSigOps+nTxSigOps ≥ maxBlockSigOps then .ok s
      else match checkInputs env.cons.ext env.cons.fees s.view tx ((nHeight : ℤ)+1) true
          ⟨true, false, false⟩ false with
        | .error _ => .ok s
        | .ok _ =>
          let hash := env.cons.ext.txHash tx
          match updateCoins s.view tx (nHeight+1) hash with
          | none => .error .assertion
          | some (view,_) =>
            match releaseOrphans env s.fSortedByFee hash (mapDependers hash) s.vOrphan
                s.vecPriority with
            | .error e => .error e
            | .ok (vOrphan,vecPriority) => .ok
              { vecPriority := vecPriority
                vOrphan := vOrphan
                view := view
                vtx := s.vtx ++ [tx]
                vTxFees := s.vTxFees ++ [nTxFees]
                vTxSigOps := s.vTxSigOps ++ [(nTxSigOps : ℤ)]
                nBlockSize := s.nBlockSize+tx.getSerializeSize
                nBlockSigOps := s.nBlockSigOps+nTxSigOps
                nFees := s.nFees+nTxFees
                fSortedByFee := s.fSortedByFee }

/-- The switch from sorting by priority to sorting by fee. -/
def sortByFee (limits : BlockLimits) (top : TxPriority D) (s : Assembly D) : Assembly D :=
  if !s.fSortedByFee &&
      (decide (s.nBlockSize+top.tx.getSerializeSize ≥ limits.nBlockPrioritySize) ||
        env.dbl.less top.dPriority (env.dbl.ofInt (coin*144/250))) then
    { s with
      fSortedByFee := true
      vecPriority := env.heap.makeHeap (env.comparer true) s.vecPriority }
  else s

/-- One turn of the second loop, `top` being popped. -/
def assembleTx (limits : BlockLimits) (nHeight : ℕ) (mapDependers : Uint256 → List ℕ)
    (top : TxPriority D) (s : Assembly D) : Except CreateBlockError (Assembly D) :=
  let nTxSize := top.tx.getSerializeSize
  if s.nBlockSize+nTxSize ≥ limits.nBlockMaxSize then .ok s
  else if s.nBlockSigOps+top.tx.getLegacySigOpCount ≥ maxBlockSigOps then .ok s
  else if s.fSortedByFee && env.dbl.less top.dFeePerKb (env.dbl.ofInt env.cons.fees.nMinTxFee) &&
      decide (s.nBlockSize+nTxSize ≥ limits.nBlockMinSize) then .ok s
  else includeTx env nHeight mapDependers top.tx (sortByFee env limits top s)

def assemble (limits : BlockLimits) (nHeight : ℕ) (mapDependers : Uint256 → List ℕ) :
    ℕ → Assembly D → Except CreateBlockError (Assembly D)
  | 0, s => if s.vecPriority.isEmpty then .ok s else .error .outOfFuel
  | fuel+1, s => match s.vecPriority with
    | [] => .ok s
    | top :: rest =>
      match assembleTx env limits nHeight mapDependers top { s with
          vecPriority := env.heap.popHeap (env.comparer s.fSortedByFee) (top :: rest) } with
      | .error e => .error e
      | .ok s => assemble limits nHeight mapDependers fuel s

/-- The queue when the second loop starts. -/
def startAssembly (limits : BlockLimits) (c : Collected D) : Assembly D :=
  let fSortedByFee := decide (limits.nBlockPrioritySize ≤ 0)
  { vecPriority := env.heap.makeHeap (env.comparer fSortedByFee) c.vecPriority
    vOrphan := c.vOrphan
    view := env.freshView
    vtx := []
    vTxFees := []
    vTxSigOps := []
    nBlockSize := 1000
    nBlockSigOps := 100
    nFees := 0
    fSortedByFee := fSortedByFee }

/-- The coinbase that pays a key, as it is once its value is known. -/
def coinbaseTx (vchPubKey : List UInt8) (nValue : ℤ) : CTransaction where
  nVersion := 1
  vin := [⟨⟨0, 2^32-1⟩, [0, 0], 2^32-1⟩]
  vout := [⟨nValue, pushData vchPubKey ++ [UInt8.ofNat opCheckSig]⟩]
  nLockTime := 0

/-- `UpdateTime`; `nTime` has 32 bits. -/
def updatedTime : ℕ :=
  ((max (getMedianTimePast env.mapBlockIndex env.pindexBest+1) env.nAdjustedTime) % 2^32).toNat

def newBlock (nBits : BitVec 32) (vtx : List CTransaction) : CBlock where
  nVersion := 2
  hashPrevBlock := env.pindexBest
  hashMerkleRoot := 0
  nTime := updatedTime env
  nBits := nBits
  nNonce := 0
  bnPrimeChainMultiplier := 0
  vtx := vtx

def indexDummy (block : CBlock) (nHeight : ℕ) : CBlockIndex where
  phashBlock := none
  pprev := some env.pindexBest
  pnext := none
  nHeight := nHeight+1
  nChainWork := 0
  nMoneySupply := 0
  nStatus := ⟨0, false, false, false, false⟩
  hashMerkleRoot := block.hashMerkleRoot
  nTime := block.nTime
  nBits := block.nBits

/-- The block that goes with what the loops collected, and `ConnectBlock` of it as a check. -/
def finishTemplate (nHeight : ℕ) (vchPubKey : List UInt8) (nBits : BitVec 32) (s : Assembly D) :
    Except CreateBlockError CBlockTemplate :=
  let coinbase := coinbaseTx vchPubKey (getBlockValue env.cons.target nBits s.nFees)
  let block := newBlock env nBits (coinbase :: s.vtx)
  -- a check makes no writes
  let io : ConnectIO := ⟨env.nAdjustedTime, true, true, true, true, true⟩
  match (connectBlock env.cons io env.mapBlockIndex block (block.getHash env.cons.ext)
      (indexDummy env block nHeight) env.freshView true).error with
  | some e => .error (.connectBlock e)
  | none => .ok ⟨block, -s.nFees :: s.vTxFees, (coinbase.getLegacySigOpCount : ℤ) :: s.vTxSigOps⟩

/-- `CreateNewBlock`; the result `none` is `NULL`, for want of a key. -/
def createNewBlock (pubkey : Option (List UInt8)) (fuel : ℕ) :
    Except CreateBlockError (Option CBlockTemplate) :=
  match pubkey with
  | none => .ok none
  | some vchPubKey =>
    match env.mapBlockIndex env.pindexBest with
    | none => .error .badAccess
    | some pindexPrev =>
      let limits := blockLimits env.args env.nAdjustedTime
      match collectTxs env env.freshView pindexPrev.nHeight env.pool.inOrder
          ⟨[], fun _ => [], []⟩ with
      | .error e => .error e
      | .ok c =>
        match assemble env limits pindexPrev.nHeight c.mapDependers fuel
            (startAssembly env limits c) with
        | .error e => .error e
        | .ok s =>
          match getNextWorkRequired env.cons.target env.mapBlockIndex (some env.pindexBest) with
          | none => .error .targetException
          | some nBits =>
            match finishTemplate env pindexPrev.nHeight vchPubKey nBits s with
            | .error e => .error e
            | .ok template => .ok (some template)

end Defs

end Candypool.Chain
