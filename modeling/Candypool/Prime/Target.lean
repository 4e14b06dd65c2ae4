import Candypool.Prime.BigNum
import Mathlib.Data.BitVec

/-! Proof-of-work targets and chain lengths: 32-bit fixed point, 8 length bits and
24 fractional bits. -/
namespace Candypool.Prime

def nFractionalBits : ℕ := 24

def targetFractionalMask : BitVec 32 := (1 <<< nFractionalBits) - 1

def targetLengthMask : BitVec 32 := ~~~targetFractionalMask

/-- The chain length globals, which the test network lowers when it loads. -/
structure TargetParams where
  nTargetInitialLength : BitVec 32
  nTargetMinLength : BitVec 32

def mainNetParams : TargetParams := ⟨7,6⟩

def testNetParams : TargetParams := ⟨5,2⟩

def targetGetLength (nBits : BitVec 32) : BitVec 32 :=
  (nBits &&& targetLengthMask) >>> nFractionalBits

def targetIncrementLength (nBits : BitVec 32) : BitVec 32 := nBits + (1 <<< nFractionalBits)

def targetFromInt (nLength : BitVec 32) : BitVec 32 := nLength <<< nFractionalBits

/-- The fractional part of a chain length is replaced by that of its first failing member. -/
def setFractionalLength (nLength nFractionalLength : BitVec 32) : BitVec 32 :=
  (nLength &&& targetLengthMask) ||| nFractionalLength

theorem and_targetLengthMask_toNat (nBits : BitVec 32) :
    (nBits &&& targetLengthMask).toNat = nBits.toNat/2^24*2^24 := by
  have hm : targetLengthMask = BitVec.allOnes 32 <<< 24 := by decide
  have hmask : nBits &&& targetLengthMask = nBits >>> 24 <<< 24 := by
    rw [hm]
    ext i hi
    simp only [BitVec.getElem_and, BitVec.getElem_shiftLeft, BitVec.getElem_allOnes]
    by_cases h24 : i < 24
    · simp [h24]
    · simp [h24, show 24+(i-24) = i by omega, BitVec.getLsbD_eq_getElem hi]
  rw [hmask]
  simp only [BitVec.toNat_ushiftRight, BitVec.toNat_shiftLeft, Nat.shiftRight_eq_div_pow,
    Nat.shiftLeft_eq]
  have := nBits.isLt
  omega

theorem targetGetLength_toNat (nBits : BitVec 32) :
    (targetGetLength nBits).toNat = nBits.toNat/2^24 := by
  rw [targetGetLength, BitVec.toNat_ushiftRight, and_targetLengthMask_toNat,
    Nat.shiftRight_eq_div_pow]
  exact Nat.mul_div_cancel _ (by decide)

theorem targetIncrementLength_toNat (nBits : BitVec 32) :
    (targetIncrementLength nBits).toNat = (nBits.toNat+2^24) % 2^32 := by
  have h1 : (1 <<< nFractionalBits : BitVec 32).toNat = 2^24 := by decide
  rw [targetIncrementLength, BitVec.toNat_add, h1]

theorem targetFromInt_toNat (nLength : BitVec 32) :
    (targetFromInt nLength).toNat = nLength.toNat*2^24 % 2^32 := by
  rw [targetFromInt, BitVec.toNat_shiftLeft, Nat.shiftLeft_eq, nFractionalBits]

theorem setFractionalLength_toNat (nLength f : BitVec 32) (hf : f.toNat < 2^24) :
    (setFractionalLength nLength f).toNat = nLength.toNat/2^24*2^24+f.toNat := by
  rw [setFractionalLength, BitVec.toNat_or, and_targetLengthMask_toNat, mul_comm,
    ← Nat.two_pow_add_eq_or_of_lt hf]

end Candypool.Prime
