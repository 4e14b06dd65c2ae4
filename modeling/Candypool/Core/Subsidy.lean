import Candypool.Core.Transaction
import Candypool.Prime.Target

/-! The subsidy of a block, from its target. -/
namespace Candypool.Core
open Candypool.Prime

def nMintLimit : ℤ := 999*coin

/-- `TargetGetMint`: the returned flag and `nMint`, which is 0 after an error. -/
def targetGetMint (params : TargetParams) (nBits : BitVec 32) : Bool × ℤ :=
  if targetGetLength nBits < params.nTargetMinLength then (false, 0)
  else
    let bnMint := bnDiv (bnShiftLeft nMintLimit nFractionalBits) nBits.toNat
    let bnMint := bnDiv (bnShiftLeft bnMint nFractionalBits) nBits.toNat
    let bnMint := bnDiv bnMint cent*cent -- mint value rounded to cent
    let nMint : ℤ := ((getuint256 bnMint).toNat % 2^64 : ℕ)
    if nMint > nMintLimit then (false, 0) else (true, nMint)

def getBlockValue (params : TargetParams) (nBits : BitVec 32) (nFees : ℤ) : ℤ :=
  (targetGetMint params nBits).2+nFees

end Candypool.Core
