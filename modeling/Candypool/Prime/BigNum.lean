import Candypool.Lib.PowMod
import Mathlib.Data.Int.ModEq
import Mathlib.Tactic.Ring
import Mathlib.Tactic.Linarith
import Mathlib.Tactic.Positivity

/-! `CBigNum` of bignum.h, with the OpenSSL operations as exact integer arithmetic. -/
namespace Candypool.Prime
open Candypool.Lib

abbrev CBigNum := ℤ

abbrev Uint256 := BitVec 256

/-- `BN_div`: the quotient is truncated towards zero. -/
def bnDiv (a b : CBigNum) : CBigNum := a.tdiv b

/-- `BN_mod`: the remainder has the sign of the dividend. -/
def bnMod (a b : CBigNum) : CBigNum := a.tmod b

def bnShiftLeft (a : CBigNum) (shift : ℕ) : CBigNum := a*2^shift

/-- `CBigNum::operator>>=` returns 0 when `2^shift` exceeds the number. -/
def bnShiftRight (a : CBigNum) (shift : ℕ) : CBigNum :=
  if 2^shift > a then 0 else a.tdiv (2^shift)

/-- `BN_mod_exp` for a base and an exponent that are not negative and a positive modulus. -/
def bnModExp (a e m : CBigNum) : CBigNum := (powMod a.toNat e.toNat m.toNat : ℕ)

/-- `BN_get_word` gives the absolute value, all ones when it exceeds a 64-bit word;
`getuint` keeps the low 32 bits. -/
def getuint (a : CBigNum) : BitVec 32 :=
  if a.natAbs < 2^64 then BitVec.ofNat 32 a.natAbs else BitVec.allOnes 32

/-- `getuint256` keeps the low 32 bytes of the absolute value. -/
def getuint256 (a : CBigNum) : Uint256 := BitVec.ofNat 256 a.natAbs

theorem bnModExp_two (e n : ℕ) (hn : 0 < n) : bnModExp 2 e n = ((2^e % n : ℕ) : ℤ) := by
  have h2 : (2 : ℤ).toNat = 2 := rfl
  rw [bnModExp, h2, Int.toNat_natCast, Int.toNat_natCast, powMod_eq 2 e n hn]

end Candypool.Prime
