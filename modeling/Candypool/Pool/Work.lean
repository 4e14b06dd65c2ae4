import Candypool.Core.Block
import Candypool.Prime.ProofOfWork

/-! The work of the pool: `xptCallback_generateWork` copies the current block for a client and
gives each copy a coinbase of its own, and `xptServer_checkForNewBlocks` builds a new current block
when the chain has grown. Keys, nonces and block templates come from outside. -/
namespace Candypool.Pool
open Candypool.Prime Candypool.Core

/-- `POOL_DIFFICULT`. -/
def poolDifficult : BitVec 32 := 123246208

/-- What stays the same while the pool runs. `headerHash` is `GetHeaderHash`, which leaves the
multiplier out. -/
structure PoolParams where
  ext : Externals
  headerHash : CBlockHeader → Uint256
  target : TargetParams
  pszDedication : List UInt8
  coinbaseFlags : CScript

/-- The tip of the node, as `hashBestChain` and `pindexBest` show it. -/
structure NodeTip where
  hash : Uint256
  nHeight : ℕ
  deriving DecidableEq, Repr

/-- The fields of a client that concern its work; `currentKey` is whether it has a key. -/
structure WorkClient where
  disconnected : Bool
  loggedIn : Bool
  workerId : ℕ
  userId : ℕ
  payloadNum : ℕ
  arrCurrentBlocks : List CBlock
  currentKey : Bool
  deriving DecidableEq, Repr

/-- The height is that of the one coin type the pool knows. -/
structure XptServer where
  coinTypeBlockHeight : ℕ
  currentBlock : Option CBlock
  deriving DecidableEq, Repr

/-- What one call of `xptCallback_generateWork` takes from outside, by workload: the key from the
key pool, if there is one, and the random nonce. -/
structure WorkIO where
  pubkey : ℕ → Option (List UInt8)
  nonce : ℕ → ℕ
  nTime : ℕ

/-- `xptBlockWorkInfo_t`. -/
structure BlockWorkInfo where
  height : ℕ
  version : ℕ
  nTime : ℕ
  nBits : BitVec 32
  nBitsShare : BitVec 32
  prevBlock : Uint256
  deriving DecidableEq, Repr

def setScriptSig (scriptSig : CScript) : List CTransaction → List CTransaction
  | ⟨nVersion,txin :: vin,vout,nLockTime⟩ :: vtx =>
    ⟨nVersion, { txin with scriptSig := scriptSig } :: vin, vout, nLockTime⟩ :: vtx
  | vtx => vtx

def setScriptPubKey (scriptPubKey : CScript) : List CTransaction → List CTransaction
  | ⟨nVersion,vin,txout :: vout,nLockTime⟩ :: vtx =>
    ⟨nVersion, vin, { txout with scriptPubKey := scriptPubKey } :: vout, nLockTime⟩ :: vtx
  | vtx => vtx

section Work
variable (p : PoolParams)

def rebuildMerkleTree (block : CBlock) : CBlock :=
  { block with hashMerkleRoot := buildMerkleTree p.ext.nodeHash (block.txHashes p.ext) }

/-- The coinbase script for a height and an extra nonce. -/
def coinbaseScript (nHeight nExtraNonce : ℕ) : CScript :=
  pushUint64 nHeight ++ pushData (getvch nExtraNonce) ++ pushData p.pszDedication ++ p.coinbaseFlags

def setExtraNonce (tip : NodeTip) (nExtraNonce : ℕ) (block : CBlock) : CBlock :=
  rebuildMerkleTree p { block with
    nNonce := nExtraNonce
    vtx := setScriptSig (coinbaseScript p (tip.nHeight+1) nExtraNonce) block.vtx }

/-- `IncrementExtraNonce` with the nonce of the block for `nExtraNonce` and without a reset. -/
def incrementExtraNonce (tip : NodeTip) (block : CBlock) : CBlock :=
  rebuildMerkleTree p { block with
    nNonce := block.nNonce+1
    vtx := setScriptSig (coinbaseScript p (tip.nHeight+1) (block.nNonce+1)) block.vtx }

/-- The loop that looks for a header above the limit, false if it runs out of nonces. -/
def headerLoop (tip : NodeTip) : ℕ → CBlock → Bool × CBlock
  | 0, block => (true, block)
  | fuel+1, block =>
    if p.headerHash block.toCBlockHeader < hashBlockHeaderLimit then
      let block := incrementExtraNonce p tip block
      if block.nNonce ≥ 0xffff0000 then (false, block) else headerLoop tip fuel block
    else (true, block)

/-- One workload, from a copy of the current block. -/
def makeWork (tip : NodeTip) (pubkey : Option (List UInt8)) (nonce : ℕ) (template : CBlock) :
    Bool × CBlock :=
  match pubkey with
  | none => (false, template)
  | some pubkey =>
    let scriptPubKey := pushData pubkey ++ [UInt8.ofNat opCheckSig]
    let block := setExtraNonce p tip nonce
      { template with vtx := setScriptPubKey scriptPubKey template.vtx }
    let block := if block.nNonce ≥ 0xffff0000 then { block with nNonce := 0 } else block
    headerLoop p tip (4294901760-1) block

/-- The workloads from the second on. -/
def additionalWork (io : WorkIO) (tip : NodeTip) (template : CBlock) : ℕ → ℕ → List CBlock →
    Bool × List CBlock
  | 0, _, blocks => (true, blocks)
  | n+1, iPayload, blocks =>
    match makeWork p tip (io.pubkey iPayload) (io.nonce iPayload) template with
    | (false, block) => (false, blocks ++ [block])
    | (true, block) => additionalWork io tip template n (iPayload+1) (blocks ++ [block])

/-- What `xptCallback_generateWork` leaves. -/
structure Generated where
  ok : Bool
  server : XptServer
  client : WorkClient
  info : Option BlockWorkInfo

/-- `none` is the null pointer of a server without a current block. The height is remembered
here, though the current block stays the one it was. -/
def generateWork (io : WorkIO) (tip : NodeTip) (server : XptServer) (client : WorkClient) :
    Option Generated :=
  match server.currentBlock with
  | none => none
  | some template =>
    let client := { client with currentKey := true }
    match makeWork p tip (io.pubkey 0) (io.nonce 0) template with
    | (false, block) => some ⟨false, server, { client with arrCurrentBlocks := [block] }, none⟩
    | (true, block) =>
      let server := { server with coinTypeBlockHeight := tip.nHeight+1 }
      let info : BlockWorkInfo :=
        ⟨server.coinTypeBlockHeight, 2, io.nTime, block.nBits, poolDifficult, block.hashPrevBlock⟩
      let (ok,blocks) := additionalWork p io tip template (client.payloadNum-1) 1 [block]
      some ⟨ok, server, { client with arrCurrentBlocks := blocks }, some info⟩

/-- `xptServer_sendBlockData`; a client that could not be served is disconnected by the caller. -/
def sendBlockData (io : WorkIO) (tip : NodeTip) (server : XptServer) (client : WorkClient) :
    Option (XptServer × WorkClient) :=
  if client.payloadNum < 1 ∨ client.payloadNum > 128 then
    some (server, { client with disconnected := true })
  else (generateWork p io tip server client).map fun r =>
    (r.server, if r.ok then r.client else { r.client with disconnected := true })

/-- `xptServer_sendNewBlockToAll`: the clients that are logged in get new work, in their order. -/
def sendNewBlockToAll (io : ℕ → WorkIO) (tip : NodeTip) : List ℕ → XptServer → (ℕ → WorkClient) →
    Option (XptServer × (ℕ → WorkClient))
  | [], server, clients => some (server, clients)
  | id :: ids, server, clients =>
    if (clients id).disconnected || !(clients id).loggedIn then
      sendNewBlockToAll io tip ids server clients
    else match sendBlockData p (io id) tip server (clients id) with
      | none => none
      | some (server,client) =>
        sendNewBlockToAll io tip ids server (Function.update clients id client)

/-- `xptServer_checkForNewBlocks`, with the block that `CreateNewBlock` returns. -/
def checkForNewBlocks (io : ℕ → WorkIO) (tip : NodeTip) (blockTemplate : Option CBlock)
    (monitored : List ℕ) (server : XptServer) (clients : ℕ → WorkClient) :
    Option (XptServer × (ℕ → WorkClient)) :=
  if tip.nHeight+1 > server.coinTypeBlockHeight then
    match blockTemplate with
    | none => some ({ server with currentBlock := none }, clients)
    | some block =>
      sendNewBlockToAll p io tip monitored
        { server with currentBlock := some block, coinTypeBlockHeight := tip.nHeight+1 } clients
  else some (server, clients)

end Work

end Candypool.Pool
