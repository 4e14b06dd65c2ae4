import Candypool.Core.Serialize

/-! Variable-length integers: seven bits a byte, the highest first, with the high bit set on all but
the last byte. One is subtracted from all but the last digit, which makes the code one-to-one. -/
namespace Candypool.Core

/-- The bytes `tmp` of `WriteVarInt`, the last digit first. -/
def varIntLoop : ℕ → ℕ → Bool → List UInt8
  | 0, _, _ => []
  | fuel+1, n, fMore =>
    UInt8.ofNat (if fMore then n % 128+128 else n % 128) ::
      if n ≤ 0x7f then [] else varIntLoop fuel (n/128-1) true

/-- `WriteVarInt` at an unsigned type of `size` bytes; `tmp` has room for every value. -/
def writeVarInt (size n : ℕ) : List UInt8 := (varIntLoop ((size*8+6)/7) n false).reverse

/-- The loop of `GetSizeOfVarInt`. -/
def varIntSizeLoop : ℕ → ℕ → ℕ
  | 0, _ => 0
  | fuel+1, n => if n ≤ 0x7f then 1 else varIntSizeLoop fuel (n/128-1)+1

def getSizeOfVarInt (size n : ℕ) : ℕ := varIntSizeLoop ((size*8+6)/7) n

/-- The loop of `ReadVarInt`, with the number so far. -/
def readVarIntLoop (size : ℕ) : ℕ → Unserializer ℕ
  | _, [] => none
  | n, chData :: rest =>
    let n := (n*128+chData.toNat % 128) % 256^size
    if chData.toNat ≥ 128 then readVarIntLoop size ((n+1) % 256^size) rest else some (n, rest)

def readVarInt (size : ℕ) : Unserializer ℕ := readVarIntLoop size 0

/-- `WriteVarInt` at `int`: a negative number is not above `0x7F`. -/
def writeVarIntInt (n : ℤ) : List UInt8 :=
  if n < 0 then [UInt8.ofNat (n % 128).toNat] else writeVarInt 4 n.toNat

def getSizeOfVarIntInt (n : ℤ) : ℕ := if n < 0 then 1 else getSizeOfVarInt 4 n.toNat

/-- `ReadVarInt` at `int`. -/
def readVarIntInt : Unserializer ℤ := fun bytes =>
  (readVarInt 4 bytes).map fun (n,rest) => ((n : ℤ).bmod (2^32), rest)

section RoundTrip

theorem varIntLoop_length (fuel n : ℕ) (fMore : Bool) :
    (varIntLoop fuel n fMore).length = varIntSizeLoop fuel n := by
  induction fuel generalizing n fMore with
  | zero => rfl
  | succ fuel ih =>
    rw [varIntLoop, varIntSizeLoop, List.length_cons]
    split_ifs
    · rfl
    · rw [ih]

theorem writeVarInt_length (size n : ℕ) : (writeVarInt size n).length = getSizeOfVarInt size n := by
  rw [writeVarInt, List.length_reverse, varIntLoop_length, getSizeOfVarInt]

/-- A byte with the high bit set goes on with the number, one more than its digits say. -/
theorem readVarIntLoop_more (size : ℕ) {n m : ℕ} (hm : m < 128) (hfit : n*128+m+1 < 256^size)
    (rest : List UInt8) : readVarIntLoop size n (UInt8.ofNat (m+128) :: rest) =
      readVarIntLoop size (n*128+m+1) rest := by
  have hbyte : (UInt8.ofNat (m+128)).toNat = m+128 := by
    rw [UInt8.toNat_ofNat']
    omega
  rw [readVarIntLoop, hbyte, Nat.add_mod_right, Nat.mod_eq_of_lt hm, if_pos (by omega),
    Nat.mod_eq_of_lt (Nat.lt_of_succ_lt hfit), Nat.mod_eq_of_lt hfit]

theorem readVarIntLoop_last (size : ℕ) {n m : ℕ} (hm : m < 128) (hfit : n*128+m < 256^size)
    (rest : List UInt8) : readVarIntLoop size n (UInt8.ofNat m :: rest) = some (n*128+m, rest) := by
  have hbyte : (UInt8.ofNat m).toNat = m := by
    rw [UInt8.toNat_ofNat']
    omega
  rw [readVarIntLoop, hbyte, Nat.mod_eq_of_lt hm, if_neg (by omega), Nat.mod_eq_of_lt hfit]

/-- The digits before the last one leave the reader one past their number. -/
theorem readVarIntLoop_digits (size : ℕ) {fuel n : ℕ} (hfuel : n < 128^(fuel+1))
    (hfit : n+1 < 256^size) (rest : List UInt8) :
    readVarIntLoop size 0 ((varIntLoop (fuel+1) n true).reverse ++ rest) =
      readVarIntLoop size (n+1) rest := by
  have hdigit : n % 128 < 128 := Nat.mod_lt _ (by decide)
  induction fuel generalizing n rest with
  | zero =>
    rw [zero_add, pow_one] at hfuel
    have hmore := readVarIntLoop_more size (n := 0) hdigit (by omega) rest
    rw [show 0*128+n % 128+1 = n+1 by omega] at hmore
    rw [varIntLoop, if_pos rfl, if_pos (by omega)]
    exact hmore
  | succ fuel ih =>
    rw [varIntLoop, if_pos rfl]
    split_ifs with hsmall
    · have hmore := readVarIntLoop_more size (n := 0) hdigit (by omega) rest
      rw [show 0*128+n % 128+1 = n+1 by omega] at hmore
      exact hmore
    · have hmore := readVarIntLoop_more size (n := n/128) hdigit (by omega) rest
      rw [show n/128*128+n % 128+1 = n+1 by omega] at hmore
      rw [pow_succ] at hfuel
      rw [List.reverse_cons, List.append_assoc, ih (by omega) (by omega) _ (by omega),
        show n/128-1+1 = n/128 by omega]
      exact hmore

/-- A number that fits its type comes back. -/
theorem readVarInt_write {size n : ℕ} (hsize : 0 < size) (hfit : n < 256^size)
    (rest : List UInt8) : readVarInt size (writeVarInt size n ++ rest) = some (n, rest) := by
  obtain ⟨fuel,hfuel⟩ : ∃ fuel, (size*8+6)/7 = fuel+1+1 := ⟨(size*8+6)/7-2, by omega⟩
  have hdigit : n % 128 < 128 := Nat.mod_lt _ (by decide)
  have hroom : n < 128^(fuel+1)*128 := by
    calc n < 256^size := hfit
      _ = 2^(8*size) := by rw [pow_mul]; norm_num
      _ ≤ 2^(7*(fuel+1+1)) := Nat.pow_le_pow_right (by decide) (by omega)
      _ = 128^(fuel+1)*128 := by rw [← pow_succ, pow_mul]; norm_num
  rw [readVarInt, writeVarInt, hfuel, varIntLoop, if_neg Bool.false_ne_true]
  split_ifs with hsmall
  · have hlast := readVarIntLoop_last size (n := 0) hdigit (by omega) rest
    rw [show 0*128+n % 128 = n by omega] at hlast
    exact hlast
  · have hlast := readVarIntLoop_last size (n := n/128) hdigit (by omega) rest
    rw [show n/128*128+n % 128 = n by omega] at hlast
    rw [List.reverse_cons, List.append_assoc,
      readVarIntLoop_digits size (by omega) (by omega), show n/128-1+1 = n/128 by omega]
    exact hlast

theorem writeVarIntInt_length (n : ℤ) : (writeVarIntInt n).length = getSizeOfVarIntInt n := by
  rw [writeVarIntInt, getSizeOfVarIntInt]
  split_ifs
  · rfl
  · exact writeVarInt_length 4 _

theorem readVarIntInt_write {n : ℤ} (hn : 0 ≤ n) (hfit : n < 2^31) (rest : List UInt8) :
    readVarIntInt (writeVarIntInt n ++ rest) = some (n, rest) := by
  obtain ⟨m,rfl⟩ := Int.eq_ofNat_of_zero_le hn
  have hm : m < 256^4 := by
    have : (m : ℤ) < 2^31 := hfit
    omega
  rw [writeVarIntInt, if_neg (not_lt.mpr hn), readVarIntInt, Int.toNat_natCast,
    readVarInt_write (by decide) hm, Option.map_some]
  dsimp only
  rw [Int.bmod_eq_of_le (by omega) (by omega)]

end RoundTrip

end Candypool.Core
