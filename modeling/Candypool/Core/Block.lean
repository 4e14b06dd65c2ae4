import Candypool.Core.Transaction

/-! Blocks, their merkle trees and the checks of `CheckBlock`. -/
namespace Candypool.Core
open Candypool.Prime

/-- The flags a script is verified with. -/
structure ScriptFlags where
  p2sh : Bool
  strictEnc : Bool
  noCache : Bool
  deriving DecidableEq, Repr

structure CBlockHeader where
  nVersion : ℤ
  hashPrevBlock : Uint256
  hashMerkleRoot : Uint256
  nTime : ℕ
  nBits : BitVec 32
  nNonce : ℕ
  bnPrimeChainMultiplier : CBigNum
  deriving DecidableEq, Repr

structure CBlock extends CBlockHeader where
  vtx : List CTransaction
  deriving DecidableEq, Repr

/-- What the block checks take from SHA-256 and from the script interpreter. -/
structure Externals where
  txHash : CTransaction → Uint256
  blockHash : CBlockHeader → Uint256
  nodeHash : Uint256 → Uint256 → Uint256
  verifyScript : CScript → CScript → CTransaction → ℕ → ScriptFlags → Bool

/-- The bytes of `getvch`: the magnitude and a sign bit. -/
def CBigNum.vchSize (a : CBigNum) : ℕ := if a = 0 then 0 else (a.natAbs.log2+1)/8+1

def CBlock.getSerializeSize (block : CBlock) : ℕ :=
  let vchSize := CBigNum.vchSize block.bnPrimeChainMultiplier
  4+32+32+4+4+4+(getSizeOfCompactSize vchSize+vchSize)+
    getSizeOfCompactSize block.vtx.length+(block.vtx.map CTransaction.getSerializeSize).sum

section Merkle
variable (nodeHash : Uint256 → Uint256 → Uint256)

/-- The next level of the tree, the last hash of an odd level being paired with itself. -/
def merkleLevel : List Uint256 → List Uint256
  | [] => []
  | [a] => [nodeHash a a]
  | a :: b :: level => nodeHash a b :: merkleLevel level

/-- `vMerkleTree` stores these levels one after the other. -/
def merkleLevels : ℕ → List Uint256 → List (List Uint256)
  | 0, level => [level]
  | fuel+1, level =>
    if level.length ≤ 1 then [level] else level :: merkleLevels fuel (merkleLevel nodeHash level)

/-- The root `BuildMerkleTree` returns. A level halves, so its length bounds the loop. -/
def buildMerkleTree (leaves : List Uint256) : Uint256 :=
  (merkleLevels nodeHash leaves.length leaves).flatten.getLastD 0

def merkleBranchLoop : List (List Uint256) → ℕ → List Uint256
  | [], _ => []
  | level :: levels, nIndex =>
    if level.length ≤ 1 then []
    else level.getD (min (nIndex ^^^ 1) (level.length-1)) 0 :: merkleBranchLoop levels (nIndex/2)

def getMerkleBranch (leaves : List Uint256) (nIndex : ℕ) : List Uint256 :=
  merkleBranchLoop (merkleLevels nodeHash leaves.length leaves) nIndex

/-- `CheckMerkleBranch`; an index of `none` is the code's -1. -/
def checkMerkleBranch (hash : Uint256) : List Uint256 → ℕ → Uint256
  | [], _ => hash
  | otherside :: branch, nIndex =>
    if nIndex % 2 = 1 then checkMerkleBranch (nodeHash otherside hash) branch (nIndex/2)
    else checkMerkleBranch (nodeHash hash otherside) branch (nIndex/2)

end Merkle

inductive CheckBlockError
  | sizeLimits
  | maxLocks
  | timeTooFar
  | firstNotCoinbase
  | moreThanOneCoinbase
  | transaction (e : TxError)
  | duplicateTransaction
  | sigOps
  | merkleRoot
  deriving DecidableEq, Repr

/-- The DoS score of an error; the maxlocks rule leaves the validation state alone. -/
def CheckBlockError.nDoS : CheckBlockError → Option ℕ
  | .maxLocks => none
  | .timeTooFar => some 0
  | .transaction e => some e.nDoS
  | _ => some 100

def checkTransactions : List CTransaction → Except TxError Unit
  | [] => .ok ()
  | tx :: vtx => match tx.checkTransaction with
    | .error e => .error e
    | .ok () => checkTransactions vtx

section CheckBlock
variable (ext : Externals)

def CBlock.getHash (block : CBlock) : Uint256 := ext.blockHash block.toCBlockHeader

def CBlock.txHashes (block : CBlock) : List Uint256 := block.vtx.map ext.txHash

/-- The transaction ids the maxlocks rule counts: the inputs of the first one are skipped. -/
def CBlock.lockedTxids (block : CBlock) : List Uint256 :=
  block.txHashes ext ++ block.vtx.tail.flatMap fun tx => tx.vin.map fun txin => txin.prevout.hash

def CBlock.checkBlock (block : CBlock) (nAdjustedTime : ℤ) (fCheckMerkleRoot : Bool) :
    Except CheckBlockError Unit :=
  if block.vtx = [] ∨ block.vtx.length > maxBlockSize ∨ block.getSerializeSize > maxBlockSize then
    .error .sizeLimits
  else if 1363867200 ≤ block.nTime ∧ block.nTime < 1368576000 ∧
      (block.lockedTxids ext).dedup.length > 4500 then
    .error .maxLocks
  else if (block.nTime : ℤ) > nAdjustedTime+2*60*60 then .error .timeTooFar
  else if !(block.vtx.head?.any CTransaction.isCoinBase) then .error .firstNotCoinbase
  else if block.vtx.tail.any CTransaction.isCoinBase then .error .moreThanOneCoinbase
  else match checkTransactions block.vtx with
    | .error e => .error (.transaction e)
    | .ok () =>
      if (block.txHashes ext).dedup.length ≠ block.vtx.length then .error .duplicateTransaction
      else if (block.vtx.map CTransaction.getLegacySigOpCount).sum > maxBlockSigOps then
        .error .sigOps
      else if fCheckMerkleRoot = true ∧
          block.hashMerkleRoot ≠ buildMerkleTree ext.nodeHash (block.txHashes ext) then
        .error .merkleRoot
      else .ok ()

/-- What a block that passes the check has. -/
structure CBlock.Checked (block : CBlock) : Prop where
  coinbase : ∃ tx vtx, block.vtx = tx :: vtx ∧ tx.isCoinBase = true ∧
    ∀ tx' ∈ vtx, tx'.isCoinBase = false
  checked : ∀ tx ∈ block.vtx, tx.Checked
  nodup : (block.txHashes ext).Nodup

theorem checkTransactions_ok {vtx : List CTransaction} (h : checkTransactions vtx = .ok ()) :
    ∀ tx ∈ vtx, tx.Checked := by
  induction vtx with
  | nil => simp
  | cons tx vtx ih =>
    simp only [checkTransactions] at h
    cases htx : tx.checkTransaction with
    | error e => simp [htx] at h
    | ok u =>
      rw [htx] at h
      intro tx' hmem
      rcases List.mem_cons.mp hmem with rfl | hmem
      · exact checkTransaction_ok htx
      · exact ih h tx' hmem

variable {ext}

theorem checkBlock_ok {block : CBlock} {nAdjustedTime : ℤ} {fCheckMerkleRoot : Bool}
    (h : block.checkBlock ext nAdjustedTime fCheckMerkleRoot = .ok ()) :
    block.Checked ext ∧ (fCheckMerkleRoot = true →
      block.hashMerkleRoot = buildMerkleTree ext.nodeHash (block.txHashes ext)) := by
  cases htxs : checkTransactions block.vtx with
  | error e =>
    simp only [CBlock.checkBlock, htxs] at h
    split_ifs at h
  | ok u =>
    simp only [CBlock.checkBlock, htxs] at h
    split_ifs at h with hsize hlocks htime hfirst hmore hdup hsig hroot
    refine ⟨⟨?_, checkTransactions_ok htxs, ?_⟩, ?_⟩
    · cases hvtx : block.vtx with
      | nil => exact absurd (Or.inl hvtx) hsize
      | cons tx vtx =>
        refine ⟨tx, vtx, rfl, ?_, ?_⟩
        · simpa [hvtx] using hfirst
        · simpa [hvtx] using hmore
    · rw [not_not] at hdup
      have hlen : (block.txHashes ext).dedup.length = (block.txHashes ext).length := by
        rw [hdup, CBlock.txHashes, List.length_map]
      exact List.dedup_eq_self.mp ((List.dedup_sublist _).eq_of_length hlen)
    · intro hflag
      by_contra hne
      exact hroot ⟨hflag, hne⟩

end CheckBlock

end Candypool.Core
