import Candypool.Core.UintHex
import Candypool.Script.SignMagnitude

/-! The conversions of bignum.h as they go through OpenSSL's MPI format: four bytes with the length, and
the number with the highest byte first, whose top bit is the sign. -/
namespace Candypool.Script.Mpi
open Candypool.Prime Candypool.Core Candypool.Lib Candypool.Script

section Format

/-- `pch[0] = (nSize >> 24) & 0xff; …` -/
def sizeBytes (nSize : ℕ) : List UInt8 :=
  [UInt8.ofNat ((nSize >>> 24) &&& 0xff),UInt8.ofNat ((nSize >>> 16) &&& 0xff),
    UInt8.ofNat ((nSize >>> 8) &&& 0xff),UInt8.ofNat (nSize &&& 0xff)]

/-- The number in the bytes after the length. -/
def number (body : List UInt8) : CBigNum := Core.setvch body.reverse

/-- The bytes OpenSSL writes for a number: no leading zeros, and a byte for the sign where it needs one. -/
def body (z : CBigNum) : List UInt8 := (bnGetvch z).reverse

/-- `BN_mpi2bn` and `BN_bn2mpi`, as documented, on numbers of up to `limit` bytes. -/
structure Format (limit : ℕ) (mpi2bn : List UInt8 → ℤ → Option CBigNum)
    (bn2mpi : CBigNum → List UInt8) : Prop where
  limit_ge : 33 ≤ limit
  limit_lt : limit+4 < 2^31
  read : ∀ b : List UInt8, b.length ≤ limit →
    mpi2bn (sizeBytes b.length ++ b) (b.length+4 : ℕ) = some (number b)
  write : ∀ z, (body z).length ≤ limit → bn2mpi z = sizeBytes (body z).length ++ body z

end Format

section Setters
variable (mpi2bn : List UInt8 → ℤ → Option CBigNum)

/-- `*p++ = c;` in a buffer of `cap` bytes, of which four are left for the length. -/
def put (cap : ℕ) (p : List UInt8) (c : UInt8) : Option (List UInt8) :=
  if 4+p.length < cap then some (p ++ [c]) else none

/-- The turn of a byte `c`, with the bytes written so far and `fLeadingZeroes`. -/
def putDigit (cap : ℕ) (fNegative : Bool) (s : List UInt8 × Bool) (c : UInt8) :
    Option (List UInt8 × Bool) :=
  if s.2 then
    if c = 0 then some s
    else if c &&& 0x80 ≠ 0 then do
      let p ← put cap s.1 (if fNegative then 0x80 else 0)
      let p ← put cap p c
      return (p,false)
    else do
      let p ← put cap s.1 (if fNegative then c ||| 0x80 else c)
      return (p,false)
  else do
    let p ← put cap s.1 c
    return (p,false)

/-- `for (int i = 0; i < 8; i++)`, with the turns that are left. -/
def loop64 (fNegative : Bool) : ℕ → BitVec 64 → List UInt8 × Bool → Option (List UInt8 × Bool)
  | 0, _, s => some s
  | i+1, n, s => do
    let s ← putDigit 14 fNegative s (UInt8.ofNat ((n >>> 56) &&& 0xff#64).toNat)
    loop64 fNegative i (n <<< 8) s

/-- `while (psrc != pbegin)`, with the bytes between the pointers. -/
def loop256 (n : BaseUint 8) : ℕ → List UInt8 × Bool → Option (List UInt8 × Bool)
  | 0, s => some s
  | psrc+1, s => do
    let s ← putDigit 38 false s (UInt8.ofNat (n.byteAt psrc))
    loop256 n psrc s

/-- What the setters do with their buffer in the end. -/
def finish (p : List UInt8) : Option CBigNum := mpi2bn (sizeBytes p.length ++ p) (p.length+4 : ℕ)

def setint64 (sn : BitVec 64) : Option CBigNum := do
  let fNegative := decide (sn.toInt < 0)
  -- the negative number is incremented before it is made positive, and the result afterwards
  let n := if fNegative then -(sn+1)+1 else sn
  let (p,_) ← loop64 fNegative 8 n ([],true)
  finish mpi2bn p

def setuint64 (n : BitVec 64) : Option CBigNum := do
  let (p,_) ← loop64 false 8 n ([],true)
  finish mpi2bn p

def setuint256 (n : BaseUint 8) : Option CBigNum := do
  let (p,_) ← loop256 n 32 ([],true)
  finish mpi2bn p

/-- The length is cut to an `unsigned int` for the format, and to an `int` for the call. -/
def setvch (this : CBigNum) (vch : List UInt8) : CBigNum :=
  let vch2 := sizeBytes (vch.length%2^32) ++ vch.reverse
  (mpi2bn vch2 ((vch2.length : ℤ).bmod (2^32))).getD this

end Setters

section Getters
variable (bn2mpi : CBigNum → List UInt8)

/-- The loop of `getuint256`. -/
def copyLoop (vch : List UInt8) (i j : ℕ) (n : BaseUint 8) : Option (BaseUint 8) :=
  if i < 32 ∧ j ≥ 4 then do
    let c ← vch[j]?
    let n ← n.setByte? i c.toNat
    copyLoop vch (i+1) (j-1) n
  else some n
termination_by 32-i

def getuint256 (z : CBigNum) : Option (BaseUint 8) :=
  let vch := bn2mpi z
  if vch.length < 4 then some (BaseUint.ofUint64 0)
  else
    let vch := if vch.length > 4 then vch.modify 4 (· &&& 0x7f) else vch
    copyLoop vch 0 (vch.length-1) (BaseUint.ofUint64 0)

def getvch (z : CBigNum) : List UInt8 :=
  let vch := bn2mpi z
  if vch.length ≤ 4 then [] else (vch.drop 4).reverse

end Getters

section Image

/-- The number in big-endian bytes. -/
def magnitude (p : List UInt8) : ℕ := littleEndian p.reverse

theorem magnitude_concat (p : List UInt8) (c : UInt8) :
    magnitude (p ++ [c]) = 256*magnitude p+c.toNat := by
  rw [magnitude, List.reverse_append, List.reverse_singleton, List.singleton_append, littleEndian,
    magnitude, add_comm]

theorem magnitude_singleton (c : UInt8) : magnitude [c] = c.toNat := by
  simp [magnitude, littleEndian]

/-- After `k` bytes of a number, of which the value is `x`: nothing is written while it is zero, and then
the image of `x` with its sign. -/
structure Image (fNegative : Bool) (k x : ℕ) (p : List UInt8) (fLeadingZeroes : Bool) : Prop where
  leading : fLeadingZeroes = true → p = [] ∧ x = 0
  ne_nil : fLeadingZeroes = false → p ≠ []
  length_le : p.length ≤ k+1
  lt : p ≠ [] → x < 128*256^(p.length-1)
  value : p ≠ [] → magnitude p = x+if fNegative then 128*256^(p.length-1) else 0

theorem signBit_iff : ∀ c : UInt8, c &&& 0x80 ≠ 0 ↔ 128 ≤ c.toNat := by
  apply forall_byte
  decide +kernel

theorem Image.start (fNegative : Bool) : Image fNegative 0 0 [] true :=
  ⟨fun _ => ⟨rfl,rfl⟩,fun h => absurd h (by decide),Nat.zero_le _,fun h => absurd rfl h,
    fun h => absurd rfl h⟩

/-- The first byte that is not zero, with the sign in it or in a byte of its own. -/
theorem Image.first {fNegative : Bool} {k x : ℕ} {p : List UInt8} (hp : p ≠ []) (hlen : p.length ≤ k+1)
    (hlt : x < 128*256^(p.length-1))
    (hvalue : magnitude p = x+if fNegative then 128*256^(p.length-1) else 0) :
    Image fNegative k x p false :=
  ⟨fun h => absurd h (by decide),fun _ => hp,hlen,fun _ => hlt,fun _ => hvalue⟩

theorem Image.next {fNegative fLeadingZeroes : Bool} {k x cap : ℕ} {p : List UInt8}
    (h : Image fNegative k x p fLeadingZeroes) (hcap : k+6 ≤ cap) (c : UInt8) :
    ∃ p' fLeadingZeroes', putDigit cap fNegative (p,fLeadingZeroes) c = some (p',fLeadingZeroes') ∧
      Image fNegative (k+1) (256*x+c.toNat) p' fLeadingZeroes' := by
  have hc := c.toNat_lt
  have hlen := h.length_le
  have hput : ∀ d, put cap p d = some (p ++ [d]) := fun d => if_pos (by omega)
  cases fLeadingZeroes with
  | false =>
    have hne := h.ne_nil rfl
    have hlt := h.lt hne
    have hvalue := h.value hne
    have hpos := List.length_pos_of_ne_nil hne
    have hpow : 256^p.length = 256*256^(p.length-1) := by
      rw [← pow_succ', Nat.sub_add_cancel hpos]
    have hlength : (p ++ [c]).length = p.length+1 := by
      rw [List.length_append, List.length_singleton]
    -- once something is written every byte follows as it is
    refine ⟨p ++ [c],false,?_,Image.first (by simp) (by omega) ?_ ?_⟩
    · simp only [putDigit, hput, Option.bind_eq_bind, Option.bind_some]
      rfl
    · rw [hlength, Nat.add_sub_cancel, hpow]
      omega
    · rw [magnitude_concat, hvalue, hlength, Nat.add_sub_cancel, hpow]
      split_ifs <;> omega
  | true =>
    obtain ⟨rfl,rfl⟩ := h.leading rfl
    have hput' : ∀ d, put cap [d] c = some [d,c] := fun d => if_pos (show 4+1 < cap by omega)
    -- a leading zero is left out
    by_cases hzero : c = 0
    · refine ⟨[],true,?_,fun _ => ⟨rfl,by rw [hzero]; rfl⟩,fun h => absurd h (by decide),Nat.zero_le _,
        fun h => absurd rfl h,fun h => absurd rfl h⟩
      rw [putDigit, if_pos rfl, if_pos hzero]
    by_cases htop : c &&& 0x80 ≠ 0
    · -- the byte fills the sign bit
      refine ⟨[if fNegative then 0x80 else 0,c],false,?_,Image.first (List.cons_ne_nil _ _) ?_ ?_ ?_⟩
      · simp only [putDigit, hput, if_true, if_neg hzero, if_pos htop, Option.bind_eq_bind,
          Option.bind_some, List.nil_append, hput']
        rfl
      · change 2 ≤ k+1+1
        omega
      · change _ < 128*256^1
        omega
      · rw [← List.singleton_append, magnitude_concat, magnitude_singleton]
        cases fNegative
        · rfl
        · change 256*128+c.toNat = 256*0+c.toNat+128*256^1
          omega
    -- the sign bit is free, and takes the sign
    · have hsmall : c.toNat < 128 := not_le.mp fun h => htop ((signBit_iff c).mpr h)
      refine ⟨[if fNegative then c ||| 0x80 else c],false,?_,Image.first (List.cons_ne_nil _ _) ?_ ?_ ?_⟩
      · simp only [putDigit, hput, if_true, if_neg hzero, if_neg htop, Option.bind_eq_bind,
          Option.bind_some, List.nil_append]
        rfl
      · exact Nat.le_add_left 1 _
      · change _ < 128*256^0
        omega
      · rw [magnitude_singleton]
        cases fNegative
        · change c.toNat = 256*0+c.toNat+0
          omega
        · change (c ||| 0x80).toNat = 256*0+c.toNat+128*256^0
          rw [toNat_or_signBit hsmall]
          omega

/-- The image of a value is that value with its sign. -/
theorem Image.number_eq {fNegative fLeadingZeroes : Bool} {k x : ℕ} {p : List UInt8}
    (h : Image fNegative k x p fLeadingZeroes) :
    @Eq ℤ (number p) (if fNegative then -(x : ℤ) else x) := by
  by_cases hne : p = []
  · have hx : x = 0 := by
      cases fLeadingZeroes with
      | true => exact (h.leading rfl).2
      | false => exact absurd hne (h.ne_nil rfl)
    rw [hne, hx]
    cases fNegative <;> rfl
  · have hlt := h.lt hne
    have hvalue := h.value hne
    have hset : @Eq ℤ (number p) _ := setvch_eq (v := p.reverse) (mt List.reverse_eq_nil_iff.mp hne)
    rw [List.length_reverse] at hset
    rw [magnitude] at hvalue
    rw [hset]
    cases fNegative with
    | false =>
      have hclear : littleEndian p.reverse = x := hvalue
      rw [hclear, if_neg (not_le.mpr hlt)]
      rfl
    | true =>
      have hsign : littleEndian p.reverse = x+128*256^(p.length-1) := hvalue
      rw [hsign, if_pos (Nat.le_add_left _ _), Nat.add_sub_cancel]
      rfl

end Image

section Loops

/-- The register is shifted by a byte in each turn, so that its upper bytes are the ones to come. -/
theorem loop64_spec {fNegative : Bool} {k x i : ℕ} (hi : k+i = 8) {n : BitVec 64} {p : List UInt8}
    {fLeadingZeroes : Bool} (h : Image fNegative k x p fLeadingZeroes) :
    ∃ p' fLeadingZeroes', loop64 fNegative i n (p,fLeadingZeroes) = some (p',fLeadingZeroes') ∧
      Image fNegative 8 (x*256^i+n.toNat/2^(64-8*i)) p' fLeadingZeroes' := by
  induction i generalizing k x n p fLeadingZeroes with
  | zero =>
    refine ⟨p,fLeadingZeroes,rfl,?_⟩
    -- all eight bytes are out, and the register is empty of them
    have hk : k = 8 := hi
    have hn := n.isLt
    rw [Nat.div_eq_of_lt hn, pow_zero, mul_one, add_zero, ← hk]
    exact h
  | succ i ih =>
    have hn := n.isLt
    -- the byte that goes out is the highest one
    have hbyte : (UInt8.ofNat ((n >>> 56) &&& 0xff#64).toNat).toNat = n.toNat/2^56 := by
      have hshift : ((n >>> 56) &&& 0xff#64).toNat = n.toNat/2^56%2^8 := by
        rw [BitVec.toNat_and, BitVec.toNat_ushiftRight, Nat.shiftRight_eq_div_pow]
        exact land_mask 8 rfl
      rw [hshift, UInt8.toNat_ofNat', Nat.mod_mod, Nat.mod_eq_of_lt (by omega)]
    obtain ⟨p1,f1,hput,himage⟩ := h.next (show k+6 ≤ 14 by omega)
      (UInt8.ofNat ((n >>> 56) &&& 0xff#64).toNat)
    obtain ⟨p2,f2,hloop,hlast⟩ := ih (n := n <<< 8) (by omega) himage
    refine ⟨p2,f2,?_,?_⟩
    · rw [loop64, hput]
      exact hloop
    · have hnext : (n <<< 8).toNat = n.toNat*256%2^64 := by
        rw [BitVec.toNat_shiftLeft, Nat.shiftLeft_eq]
      have hsum : x*256^(i+1)+n.toNat/2^(64-8*(i+1)) =
          (256*x+n.toNat/2^56)*256^i+n.toNat*256%2^64/2^(64-8*i) := by
        have hi7 : i ≤ 7 := by omega
        interval_cases i <;> omega
      rw [hbyte, hnext] at hlast
      rwa [hsum]

theorem loop256_spec (n : BaseUint 8) {k x psrc : ℕ} (hpsrc : k+psrc = 32) {p : List UInt8}
    {fLeadingZeroes : Bool} (h : Image false k x p fLeadingZeroes) :
    ∃ p' fLeadingZeroes', loop256 n psrc (p,fLeadingZeroes) = some (p',fLeadingZeroes') ∧
      Image false 32 (x*256^psrc+n.value%256^psrc) p' fLeadingZeroes' := by
  induction psrc generalizing k x p fLeadingZeroes with
  | zero =>
    refine ⟨p,fLeadingZeroes,rfl,?_⟩
    have hk : k = 32 := hpsrc
    rw [pow_zero, mul_one, Nat.mod_one, add_zero, ← hk]
    exact h
  | succ psrc ih =>
    have hbyte : (UInt8.ofNat (n.byteAt psrc)).toNat = n.value/256^psrc%256 := by
      rw [← n.byteAt_eq (show psrc < 8*4 by omega), UInt8.toNat_ofNat']
      exact Nat.mod_eq_of_lt (Nat.mod_lt _ (by decide))
    obtain ⟨p1,f1,hput,himage⟩ := h.next (show k+6 ≤ 38 by omega) (UInt8.ofNat (n.byteAt psrc))
    obtain ⟨p2,f2,hloop,hlast⟩ := ih (by omega) himage
    refine ⟨p2,f2,?_,?_⟩
    · rw [loop256, hput]
      exact hloop
    · have hsum : x*256^(psrc+1)+n.value%256^(psrc+1) =
          (256*x+n.value/256^psrc%256)*256^psrc+n.value%256^psrc := by
        rw [Nat.mod_pow_succ]
        ring
      rw [hbyte] at hlast
      rwa [hsum]

end Loops

section Copy

theorem littleEndian_take_succ {v : List UInt8} {i : ℕ} (hi : i < v.length) :
    littleEndian (v.take (i+1)) = littleEndian (v.take i)+256^i*v[i].toNat := by
  rw [List.take_succ_eq_append_getElem hi, littleEndian_append, List.length_take, min_eq_left hi.le]
  simp [littleEndian]

theorem littleEndian_take (v : List UInt8) (k : ℕ) : littleEndian (v.take k) = littleEndian v%256^k := by
  have hsplit := littleEndian_append (v.take k) (v.drop k)
  rw [List.take_append_drop] at hsplit
  rcases Nat.lt_or_ge v.length k with hlt | hle
  · have hsmall := (littleEndian_lt v).trans_le (Nat.pow_le_pow_right (show 0 < 256 by decide) hlt.le)
    rw [List.take_of_length_le hlt.le, Nat.mod_eq_of_lt hsmall]
  · have hsmall := littleEndian_lt (v.take k)
    rw [List.length_take, min_eq_left hle] at hsplit hsmall
    rw [hsplit, Nat.add_mul_mod_self_left, Nat.mod_eq_of_lt hsmall]

/-- The bytes of `v`, which stand in `vch` in reverse order, go to the lowest bytes of the value. -/
theorem copyLoop_spec {v vch : List UInt8} (hvch : ∀ i < v.length, vch[3+v.length-i]? = v[i]?) {i : ℕ}
    (hi : i ≤ v.length) (hi32 : i ≤ 32) {n : BaseUint 8} (hn : n.value = littleEndian (v.take i)) :
    ∃ n', copyLoop vch i (3+v.length-i) n = some n' ∧ n'.value = littleEndian (v.take 32) := by
  induction hleft : 32-i generalizing i n with
  | zero =>
    -- the value is full
    have hend : i = 32 := by omega
    refine ⟨n,?_,?_⟩
    · rw [copyLoop, if_neg (by omega)]
    · rw [hn, hend]
  | succ left ih =>
    rw [copyLoop]
    -- the vector ends before the value does, or a byte of it is copied
    by_cases hlast : i = v.length
    · refine ⟨n,if_neg (by omega),?_⟩
      rw [hn, List.take_of_length_le hlast.ge, List.take_of_length_le (by omega)]
    · have hlt : i < v.length := by omega
      have hsmall : n.value < 256^i := by
        have hbound := littleEndian_lt (v.take i)
        rwa [List.length_take, min_eq_left hlt.le, ← hn] at hbound
      obtain ⟨n1,hset,hvalue⟩ := n.setByte?_fresh (show i < 8*4 by omega) hsmall v[i].toNat_lt
      rw [if_pos (by omega), hvch i hlt, List.getElem?_eq_getElem hlt, Option.bind_eq_bind,
        Option.bind_some, hset, Option.bind_eq_bind, Option.bind_some,
        show 3+v.length-i-1 = 3+v.length-(i+1) by omega]
      refine ih (by omega) (by omega) ?_ (by omega)
      rw [hvalue, hn, littleEndian_take_succ hlt]

/-- Without the sign bit there is the magnitude. -/
theorem magnitude_clear {b : UInt8} {rest : List UInt8} :
    littleEndian ((b &&& 0x7f) :: rest).reverse = (number (b :: rest)).natAbs := by
  have hb := b.toNat_lt
  have hmask : (b &&& 0x7f).toNat = b.toNat%128 := by
    rw [UInt8.toNat_and]
    exact land_mask 7 rfl
  have hlow := littleEndian_lt rest.reverse
  have hset := Script.setvch_eq (show (b :: rest).reverse ≠ [] by simp)
  rw [List.length_reverse, List.length_cons, Nat.add_sub_cancel, List.reverse_cons, littleEndian_append,
    List.length_reverse, show littleEndian [b] = b.toNat by simp [littleEndian]] at hset
  rw [number, List.reverse_cons, List.reverse_cons, hset, littleEndian_append, List.length_reverse,
    show littleEndian [b &&& 0x7f] = b.toNat%128 by simp [littleEndian, hmask]]
  rw [List.length_reverse] at hlow
  -- clearing the sign bit changes only a negative number
  rcases Nat.lt_or_ge b.toNat 128 with hsmall | htop
  · have hle := Nat.mul_le_mul_left (256^rest.length) hsmall
    rw [Nat.mul_succ] at hle
    rw [Nat.mod_eq_of_lt hsmall, if_neg (by omega)]
    rfl
  · have hsplit : 256^rest.length*b.toNat =
        256^rest.length*128+256^rest.length*(b.toNat%128) := by
      rw [← mul_add]
      congr 1
      omega
    rw [hsplit, if_pos (by omega), Int.natAbs_neg, Int.natAbs_natCast]
    omega

end Copy

section Values
variable {limit : ℕ} {mpi2bn : List UInt8 → ℤ → Option CBigNum} {bn2mpi : CBigNum → List UInt8}
  (F : Format limit mpi2bn bn2mpi)
include F

theorem finish_eq {fNegative fLeadingZeroes : Bool} {k x : ℕ} (hk : k ≤ 32) {p : List UInt8}
    (h : Image fNegative k x p fLeadingZeroes) :
    finish mpi2bn p = some (if fNegative then -(x : ℤ) else x) := by
  have hlen := h.length_le
  have hlimit := F.limit_ge
  rw [finish, F.read p (by omega), h.number_eq]

theorem setuint64_eq (n : BitVec 64) : setuint64 mpi2bn n = some (n.toNat : ℤ) := by
  obtain ⟨p,f,hloop,himage⟩ := loop64_spec (n := n) (show 0+8 = 8 by rfl) (Image.start false)
  rw [setuint64, hloop]
  refine (finish_eq F (by decide) himage).trans ?_
  simp

/-- The smallest number included: its magnitude is `2^63`. -/
theorem setint64_eq (sn : BitVec 64) : setint64 mpi2bn sn = some sn.toInt := by
  have hsn := sn.isLt
  have htoInt := BitVec.toInt_eq_toNat_cond sn
  rw [setint64]
  by_cases hneg : sn.toInt < 0
  -- as an unsigned number this is the magnitude, that of the smallest number included
  · have hmagnitude : ((-(sn+1)+1).toNat : ℤ) = -sn.toInt := by
      split_ifs at htoInt with hsmall
      · omega
      · rw [htoInt, show (-(sn+1)+1).toNat = 2^64-sn.toNat by bv_omega]
        omega
    obtain ⟨p,f,hloop,himage⟩ := loop64_spec (n := -(sn+1)+1) (show 0+8 = 8 by rfl) (Image.start true)
    simp only [decide_eq_true hneg, if_true, hloop, Option.bind_eq_bind, Option.bind_some]
    refine (finish_eq F (by decide) himage).trans ?_
    rw [if_pos rfl, zero_mul, zero_add, show 64-8*8 = 0 from rfl, pow_zero, Nat.div_one, hmagnitude,
      neg_neg]
  · have hmagnitude : (sn.toNat : ℤ) = sn.toInt := by
      split_ifs at htoInt <;> omega
    obtain ⟨p,f,hloop,himage⟩ := loop64_spec (n := sn) (show 0+8 = 8 by rfl) (Image.start false)
    simp only [decide_eq_false hneg, Bool.false_eq_true, if_false, hloop, Option.bind_eq_bind,
      Option.bind_some]
    refine (finish_eq F (by decide) himage).trans ?_
    rw [if_neg Bool.false_ne_true, zero_mul, zero_add, show 64-8*8 = 0 from rfl, pow_zero, Nat.div_one,
      hmagnitude]

theorem setuint256_eq (n : BaseUint 8) : setuint256 mpi2bn n = some (n.value : ℤ) := by
  obtain ⟨p,f,hloop,himage⟩ := loop256_spec n (show 0+32 = 32 by rfl) (Image.start false)
  rw [setuint256, hloop]
  refine (finish_eq F le_rfl himage).trans ?_
  have hlt : n.value < 256^32 := n.value_lt.trans_eq (by norm_num)
  rw [zero_mul, zero_add, Nat.mod_eq_of_lt hlt]
  rfl

/-- `getuint256` keeps the low 32 bytes of the magnitude. -/
theorem getuint256_eq {z : CBigNum} (hz : (bnGetvch z).length ≤ limit) :
    ∃ n, getuint256 bn2mpi z = some n ∧ n.value = z.natAbs%2^256 := by
  have hwrite := F.write z (by rwa [body, List.length_reverse])
  have hnumber : number (body z) = z := by
    rw [number, body, List.reverse_reverse, setvch_bnGetvch]
  have hzero : (BaseUint.ofUint64 0 : BaseUint 8).value = 0 := BaseUint.value_ofUint64 (by decide) 0
  rw [getuint256, hwrite]
  cases hbody : body z with
  | nil =>
    refine ⟨BaseUint.ofUint64 0,?_,?_⟩
    · change copyLoop (sizeBytes 0) 0 3 _ = _
      rw [copyLoop, if_neg (by decide)]
    · rw [hbody] at hnumber
      rw [hzero, ← hnumber]
      rfl
  | cons b rest =>
    generalize hv : ((b &&& 0x7f) :: rest).reverse = v
    have hlength : v.length = rest.length+1 := by rw [← hv, List.length_reverse, List.length_cons]
    -- the bytes with the sign bit cleared, and the place of each in the buffer
    have hmodify : (sizeBytes (b :: rest).length ++ b :: rest).modify 4 (· &&& 0x7f) =
        sizeBytes (b :: rest).length ++ v.reverse := by
      rw [← hv, List.reverse_reverse]
      rfl
    have hvch : ∀ i < v.length, (sizeBytes (b :: rest).length ++ v.reverse)[3+v.length-i]? = v[i]? := by
      intro i hi
      rw [List.getElem?_append_right (by change 4 ≤ _; omega), List.getElem?_reverse (by
        change 3+v.length-i-4 < _
        omega)]
      congr 1
      change v.length-1-(3+v.length-i-4) = i
      omega
    obtain ⟨n,hrun,hvalue⟩ := copyLoop_spec hvch (Nat.zero_le _) (Nat.zero_le _)
      (show (BaseUint.ofUint64 0 : BaseUint 8).value = littleEndian (v.take 0) from hzero)
    refine ⟨n,?_,?_⟩
    · have hsize : (sizeBytes (b :: rest).length ++ b :: rest).length = v.length+4 := by
        rw [List.length_append, List.length_cons, hlength, add_comm]
        rfl
      have hsize' : (sizeBytes (b :: rest).length ++ v.reverse).length-1 = 3+v.length-0 := by
        rw [List.length_append, List.length_reverse]
        change 4+v.length-1 = _
        omega
      rw [hsize, if_neg (by omega), if_pos (by omega), hmodify]
      change copyLoop _ 0 ((sizeBytes (b :: rest).length ++ v.reverse).length-1) _ = _
      rw [hsize']
      exact hrun
    · rw [hvalue, littleEndian_take, ← hv, magnitude_clear, ← hbody, hnumber,
        show 256^32 = 2^256 by norm_num]

theorem setvch_eq (this : CBigNum) {v : List UInt8} (hv : v.length ≤ limit) :
    setvch mpi2bn this v = Core.setvch v := by
  have hlimit := F.limit_lt
  have hread := F.read v.reverse (by rwa [List.length_reverse])
  rw [List.length_reverse] at hread
  have hsize : v.length%2^32 = v.length := Nat.mod_eq_of_lt (by omega)
  have hlength : (sizeBytes v.length ++ v.reverse).length = v.length+4 := by
    rw [List.length_append, List.length_reverse, add_comm]
    rfl
  -- the length fits both an `unsigned int` and an `int`
  have hint : ((v.length+4 : ℕ) : ℤ).bmod (2^32) = (v.length+4 : ℕ) :=
    Int.bmod_eq_of_le (by omega) (by omega)
  simp only [setvch, hsize, hlength, hint, hread, Option.getD_some, number, List.reverse_reverse]

theorem getvch_eq {z : CBigNum} (hz : (bnGetvch z).length ≤ limit) : getvch bn2mpi z = bnGetvch z := by
  have hwrite := F.write z (by rwa [body, List.length_reverse])
  have hlength : (sizeBytes (body z).length ++ body z).length = 4+(bnGetvch z).length := by
    rw [List.length_append, body, List.length_reverse]
    rfl
  have hdrop : (sizeBytes (body z).length ++ body z).drop 4 = body z := rfl
  rw [getvch, hwrite, hlength, hdrop, body, List.reverse_reverse]
  split_ifs with hshort
  -- four bytes alone are a length of zero
  · exact (List.length_eq_zero_iff.mp (by omega)).symm
  · rfl

/-- The conversions denote the right integers, and the shortest form is what comes back. -/
theorem bignum_conversions :
    (∀ sn : BitVec 64, setint64 mpi2bn sn = some sn.toInt) ∧
    (∀ n : BitVec 64, setuint64 mpi2bn n = some (n.toNat : ℤ)) ∧
    (∀ n : BaseUint 8, setuint256 mpi2bn n = some (n.value : ℤ) ∧
      (setuint256 mpi2bn n).bind (getuint256 bn2mpi) = some n) ∧
    (∀ this z : CBigNum, (bnGetvch z).length ≤ limit →
      setvch mpi2bn this (getvch bn2mpi z) = z ∧
      Core.setvch (getvch bn2mpi z) = z ∧ Shortest (getvch bn2mpi z)) ∧
    ∀ (this : CBigNum) (v : List UInt8), v.length ≤ limit →
      setvch mpi2bn this v = Core.setvch v ∧
      (getvch bn2mpi (setvch mpi2bn this v) = v ↔ Shortest v ∧ ¬NegativeZero v) := by
  refine ⟨setint64_eq F,setuint64_eq F,fun n => ⟨setuint256_eq F n,?_⟩,fun this z hz => ?_,
    fun this v hv => ⟨setvch_eq F this hv,?_⟩⟩
  · have hlt := n.value_lt
    have hlimit := F.limit_ge
    have hlen : (bnGetvch (n.value : ℤ)).length ≤ 32+1 := by
      apply bnGetvch_length_le
      rw [Int.natAbs_natCast, pow_add]
      exact hlt.trans_le (Nat.le_mul_of_pos_right _ (by decide))
    obtain ⟨n',hrun,hvalue⟩ := getuint256_eq F (hlen.trans hlimit)
    rw [Int.natAbs_natCast, Nat.mod_eq_of_lt hlt] at hvalue
    rw [setuint256_eq F n, Option.bind_some, hrun, BaseUint.value_injective hvalue]
  · rw [getvch_eq F hz, setvch_eq F this hz, setvch_bnGetvch]
    exact ⟨rfl,rfl,bnGetvch_shortest z⟩
  · have hshort : (bnGetvch (Core.setvch v)).length ≤ limit :=
      (bnGetvch_shortest _ v (setvch_bnGetvch _).symm).trans hv
    rw [setvch_eq F this hv, getvch_eq F hshort]
    exact bnGetvch_setvch_iff v

omit F

/-- `BN_mpi2bn`: the length in the bytes has to be that of the call. -/
def readMpi (d : List UInt8) (n : ℤ) : Option CBigNum :=
  if n < 4 then none
  else if (magnitude (d.take 4) : ℤ)+4 ≠ n then none
  else some (number ((d.drop 4).take (magnitude (d.take 4))))

/-- `BN_bn2mpi`. -/
def writeMpi (z : CBigNum) : List UInt8 := sizeBytes (body z).length ++ body z

theorem magnitude_sizeBytes {k : ℕ} (hk : k < 2^32) : magnitude (sizeBytes k) = k := by
  have hbyte (x : ℕ) : (UInt8.ofNat (x &&& 0xff)).toNat = x%2^8 := by
    rw [land_mask 8 rfl, UInt8.toNat_ofNat', Nat.mod_mod]
  simp only [magnitude, sizeBytes, List.reverse_cons, List.reverse_nil, List.nil_append,
    List.cons_append, littleEndian, hbyte, Nat.shiftRight_eq_div_pow]
  omega

theorem format_readMpi : Format (2^31-5) readMpi writeMpi := by
  refine ⟨by decide,by decide,fun b hb => ?_,fun z _ => rfl⟩
  have htake : (sizeBytes b.length ++ b).take 4 = sizeBytes b.length := rfl
  have hdrop : (sizeBytes b.length ++ b).drop 4 = b := rfl
  rw [readMpi, htake, hdrop, magnitude_sizeBytes (by omega), List.take_length, if_neg (by omega),
    if_neg (by push_cast; simp)]

/-- The smallest `int64`. -/
theorem bignum_conversions_min : setint64 readMpi (BitVec.intMin 64) = some (-2^63) :=
  ((bignum_conversions format_readMpi).1 (BitVec.intMin 64)).trans rfl

/-- A vector of 4 GiB has the length 0 in the format, in which it cannot be told from the empty one. -/
theorem setvch_cut {v : List UInt8} (hv : v.length = 2^32) : setvch readMpi 0 v = 0 := by
  have hlength : (sizeBytes 0 ++ v.reverse).length = 2^32+4 := by
    rw [List.length_append, List.length_reverse, hv]
    rfl
  -- the call gets a length of four bytes
  have hint : ((2^32+4 : ℕ) : ℤ).bmod (2^32) = 4 := by decide
  have htake : (sizeBytes 0 ++ v.reverse).take 4 = sizeBytes 0 := rfl
  have hzero : magnitude (sizeBytes 0) = 0 := magnitude_sizeBytes (by decide)
  have hread : readMpi (sizeBytes 0 ++ v.reverse) 4 = some 0 := by
    rw [readMpi, htake, hzero, if_neg (by decide), if_neg (by decide), List.take_zero]
    rfl
  simp only [setvch, hv, Nat.mod_self, hlength, hint, hread, Option.getD_some]

/-- A vector in the shortest form that does not come back. -/
theorem vector_of_4GiB_lost :
    Shortest (List.replicate (2^32) 1) ∧ ¬NegativeZero (List.replicate (2^32) 1) ∧
      getvch writeMpi (setvch readMpi 0 (List.replicate (2^32) 1)) ≠ List.replicate (2^32) 1 := by
  have hlen : (List.replicate (2^32) (1 : UInt8)).length = 2^32 := List.length_replicate
  have hlast : (List.replicate (2^32) (1 : UInt8)).getLastD 0 = 1 := by
    rw [List.getLastD_eq_getLast?, List.getLast?_replicate, if_neg (by decide), Option.getD_some]
  -- from here on only the length and the last byte count
  generalize List.replicate (2^32) (1 : UInt8) = v at hlen hlast ⊢
  refine ⟨shortest_of_last ?_ ?_,?_,?_⟩
  · rw [hlast]
    decide
  · rw [hlast]
    decide
  · rintro ⟨-,htop⟩
    rw [hlast] at htop
    exact absurd htop (by decide)
  · intro h
    rw [setvch_cut hlen] at h
    have hnil : getvch writeMpi 0 = [] := rfl
    rw [hnil] at h
    rw [← h] at hlen
    exact absurd hlen (by decide)

end Values

end Candypool.Script.Mpi
