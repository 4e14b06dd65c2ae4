import Candypool.Core.BaseUint
import Candypool.Lib.AsciiText
import Candypool.Lib.Numeral

/-! Integers of fixed width as hexadecimal text. The words are written and read as bytes of a little-endian
memory, and a C string is read byte by byte; what lies outside either cannot be read or written. -/
namespace Candypool.Core
open Candypool.Lib

namespace BaseUint
variable {WIDTH : ℕ}

section Bytes

/-- A word with byte `r` replaced. -/
def replaceByte (x : BitVec 32) (r v : ℕ) : BitVec 32 :=
  BitVec.ofNat 32 (x.toNat-x.toNat/256^r%256*256^r+v%256*256^r)

theorem toNat_replaceByte (x : BitVec 32) {r : ℕ} (hr : r < 4) (v : ℕ) :
    (replaceByte x r v).toNat+256^r*(x.toNat/256^r%256) = x.toNat+256^r*(v%256) := by
  have hx := x.isLt
  rw [replaceByte, BitVec.toNat_ofNat]
  generalize x.toNat = x at hx ⊢
  interval_cases r <;> omega

variable (a : BaseUint WIDTH)

/-- `((unsigned char*)pn)[i]` -/
def byteAt (i : ℕ) : ℕ := (a.pn.getD (i/4) 0#32).toNat/256^(i%4)%256

/-- `((unsigned char*)pn)[i] = v;` -/
def setByte? (i v : ℕ) : Option (BaseUint WIDTH) :=
  if i < WIDTH*4 then
    some ⟨a.pn.setIfInBounds (i/4) (replaceByte (a.pn.getD (i/4) 0#32) (i%4) v),
      (Array.size_setIfInBounds ..).trans a.size_pn⟩
  else none

theorem pow_byte (i : ℕ) : 256^i = 2^(32*(i/4))*256^(i%4) := by
  rw [show 256 = 2^8 from rfl, ← pow_mul, ← pow_mul, ← pow_add]
  congr 1
  omega

theorem two_pow_words (WIDTH : ℕ) : 2^(32*WIDTH) = 256^(WIDTH*4) := by
  rw [show 256 = 2^8 from rfl, ← pow_mul]
  congr 1
  omega

/-- A byte is a digit to the base 256. -/
theorem byteAt_eq {i : ℕ} (hi : i < WIDTH*4) : a.byteAt i = a.value/256^i%256 := by
  have hword : a.value/2^(32*(i/4))%2^32 = (a.pn.getD (i/4) 0#32).toNat := limbs_div_mod (by omega)
  have hr := Nat.mod_lt i (show 0 < 4 by decide)
  rw [byteAt, ← hword, pow_byte i, ← Nat.div_div_eq_div_mul]
  generalize a.value/2^(32*(i/4)) = x
  interval_cases i%4 <;> omega

theorem setByte?_spec {i : ℕ} (hi : i < WIDTH*4) (v : ℕ) :
    ∃ a', a.setByte? i v = some a' ∧ a'.value+256^i*a.byteAt i = a.value+256^i*(v%256) := by
  refine ⟨_,if_pos hi,?_⟩
  have hset := limbs_set (x := replaceByte (a.pn.getD (i/4) 0#32) (i%4) v)
    (show i/4 < WIDTH by omega) (show i/4 < a.pn.size by rw [a.size_pn]; omega)
  have hbyte := toNat_replaceByte (a.pn.getD (i/4) 0#32) (Nat.mod_lt i (show 0 < 4 by decide)) v
  -- the change of the byte in its word, at the weight of the word
  have hscaled := congrArg (2^(32*(i/4))*·) hbyte
  simp only [mul_add] at hscaled
  rw [pow_byte i, mul_assoc, mul_assoc, byteAt]
  change limbs (a.pn.setIfInBounds _ _) WIDTH+_ = limbs a.pn WIDTH+_
  omega

/-- A byte written over a zero byte adds its value. -/
theorem setByte?_fresh {i v : ℕ} (hi : i < WIDTH*4) (hvalue : a.value < 256^i) (hv : v < 256) :
    ∃ a', a.setByte? i v = some a' ∧ a'.value = a.value+256^i*v := by
  obtain ⟨a',hset,hsum⟩ := a.setByte?_spec hi v
  -- a number below `256^i` has only zeros from byte `i` on
  have hzero : a.byteAt i = 0 := by
    rw [a.byteAt_eq hi, Nat.div_eq_of_lt hvalue]
  rw [hzero, mul_zero, add_zero, Nat.mod_eq_of_lt hv] at hsum
  exact ⟨a',hset,hsum⟩

end Bytes

section Text

/-- `"%02x"`, one digit at a time. -/
def hexChar (d : ℕ) : UInt8 := UInt8.ofNat (if d < 10 then 48+d else 87+d)

def getHex (a : BaseUint WIDTH) : List UInt8 :=
  (List.range (WIDTH*4)).flatMap fun i =>
    [hexChar (a.byteAt (WIDTH*4-i-1)/16),hexChar (a.byteAt (WIDTH*4-i-1)%16)]

/-- The entries of the table of 256 that are not zero stand in its first part. -/
def phexdigit : List ℕ :=
  [0,0,0,0,0,0,0,0,0,0,0,0,0,0,0,0, 0,0,0,0,0,0,0,0,0,0,0,0,0,0,0,0,
   0,0,0,0,0,0,0,0,0,0,0,0,0,0,0,0, 0,1,2,3,4,5,6,7,8,9,0,0,0,0,0,0,
   0,0xa,0xb,0xc,0xd,0xe,0xf,0,0,0,0,0,0,0,0,0, 0,0,0,0,0,0,0,0,0,0,0,0,0,0,0,0,
   0,0xa,0xb,0xc,0xd,0xe,0xf,0,0,0,0,0,0,0,0,0]

def hexdigit (c : UInt8) : ℕ := phexdigit.getD c.toNat 0

/-- `while (test(*psz)) psz++;` -/
def skipWhile (m : List UInt8) (test : UInt8 → Bool) (psz : ℕ) : Option ℕ :=
  match h : m[psz]? with
  | none => none
  | some c => if test c then skipWhile m test (psz+1) else some psz
termination_by m.length-psz
decreasing_by
  have hlt := (List.getElem?_eq_some_iff.mp h).1
  omega

/-- `if (psz[0] == '0' && tolower(psz[1]) == 'x') psz += 2;` -/
def skip0x (m : List UInt8) (psz : ℕ) : Option ℕ := do
  let c ← m[psz]?
  if c = 48 then do
    let x ← m[psz+1]?
    return if tolower x = 120 then psz+2 else psz
  else return psz

/-- The last loop of `SetHex`, with `p1` as the number of bytes that are written. -/
def setHexLoop (m : List UInt8) (pbegin : ℕ) (psz : ℤ) (p1 : ℕ) (a : BaseUint WIDTH) :
    Option (BaseUint WIDTH) :=
  if psz ≥ pbegin ∧ p1 < WIDTH*4 then do
    let c ← m[psz.toNat]?
    let a ← a.setByte? p1 (hexdigit c)
    if psz-1 ≥ pbegin then do
      let c ← m[(psz-1).toNat]?
      let a ← a.setByte? p1 (a.byteAt p1 ||| hexdigit c <<< 4)
      setHexLoop m pbegin (psz-2) (p1+1) a
    else setHexLoop m pbegin (psz-1) p1 a
  else some a
termination_by (psz+1-pbegin).toNat

def setHex (WIDTH : ℕ) (m : List UInt8) : Option (BaseUint WIDTH) := do
  -- skip leading spaces
  let psz ← skipWhile m isspace 0
  -- skip 0x
  let pbegin ← skip0x m psz
  -- hex string to uint
  let psz ← skipWhile m (fun c => hexdigit c ≠ 0 ∨ c = 48) pbegin
  setHexLoop m pbegin ((psz : ℤ)-1) 0 ⟨fillWords WIDTH fun _ => 0#32,(fillWords_zero WIDTH).1⟩

end Text

section Reading

def isxdigit (c : UInt8) : Bool := isdigit c ∨ (97 ≤ c ∧ c ≤ 102) ∨ (65 ≤ c ∧ c ≤ 70)

/-- The value of a hexadecimal digit, in either case. -/
def hexValue (c : UInt8) : ℕ :=
  if isdigit c then c.toNat-48 else if 97 ≤ c then c.toNat-87 else c.toNat-55

/-- What follows `0x`, if that is how the text begins. -/
def after0x (t : List UInt8) : List UInt8 :=
  if t.head? = some 48 ∧ t.tail.head?.map tolower = some 120 then t.drop 2 else t

/-- The leading hexadecimal digits, after white space and `0x`. -/
def leadingHex (s : List UInt8) : List UInt8 := (after0x (s.dropWhile isspace)).takeWhile isxdigit

theorem hexdigit_test : ∀ c, decide (hexdigit c ≠ 0 ∨ c = 48) = isxdigit c := by
  apply forall_byte
  decide +kernel

theorem hexdigit_eq : ∀ c, isxdigit c = true → hexdigit c = hexValue c := by
  apply forall_byte
  decide +kernel

theorem hexdigit_lt : ∀ c, hexdigit c < 16 := by
  apply forall_byte
  decide +kernel

/-- A hexadecimal digit is neither white space nor the letter of `0x`. -/
theorem isxdigit_text : ∀ c, isxdigit c = true → isspace c = false ∧ tolower c ≠ 120 := by
  apply forall_byte
  decide +kernel

/-- The pointer moves over what passes the test; the terminator does not. -/
theorem skipWhile_spec {test : UInt8 → Bool} (htest : test 0 = false) (pre t : List UInt8) :
    skipWhile (pre ++ (t ++ [0])) test pre.length = some (pre.length+(t.takeWhile test).length) := by
  induction t generalizing pre with
  | nil =>
    -- only the terminator is left, which does not pass the test
    have hget : (pre ++ ([] ++ [0]))[pre.length]? = some 0 := by simp
    rw [skipWhile]
    split
    · next hnone => rw [hget] at hnone; cases hnone
    · next c hsome =>
      rw [hget] at hsome
      rw [← Option.some_inj.mp hsome, htest]
      rfl
  | cons c t ih =>
    have hget : (pre ++ (c :: t ++ [0]))[pre.length]? = some c := by simp
    rw [skipWhile]
    split
    · next hnone => rw [hget] at hnone; cases hnone
    · next d hsome =>
      rw [hget] at hsome
      obtain rfl := Option.some_inj.mp hsome
      split_ifs with hc
      · have hnext := ih (pre ++ [c])
        rw [List.append_assoc, List.length_append, List.length_singleton] at hnext
        rw [List.takeWhile_cons_of_pos hc, List.length_cons]
        rw [show pre ++ (c :: t ++ [0]) = pre ++ ([c] ++ (t ++ [0])) by rfl, hnext]
        congr 1
        omega
      · rw [List.takeWhile_cons_of_neg hc]
        rfl

theorem skip0x_spec (pre t : List UInt8) :
    ∃ pre', skip0x (pre ++ (t ++ [0])) pre.length = some pre'.length ∧
      pre ++ t = pre' ++ after0x t := by
  cases t with
  | nil =>
    have hget : (pre ++ ([] ++ [0]))[pre.length]? = some 0 := by simp
    refine ⟨pre,?_,rfl⟩
    rw [skip0x, hget]
    rfl
  | cons c t =>
    have hget : (pre ++ (c :: t ++ [0]))[pre.length]? = some c := by simp
    rw [skip0x, hget, Option.bind_eq_bind, Option.bind_some]
    by_cases hc : c = 48
    · subst hc
      rw [if_pos rfl]
      cases t with
      | nil =>
        -- the text is a single zero: what follows it is the terminator
        have hget' : (pre ++ ([48] ++ [0]))[pre.length+1]? = some 0 := by
          rw [List.getElem?_append_right (by omega), Nat.add_sub_cancel_left]
          rfl
        refine ⟨pre,?_,rfl⟩
        rw [hget']
        rfl
      | cons x t =>
        have hget' : (pre ++ (48 :: x :: t ++ [0]))[pre.length+1]? = some x := by
          rw [List.getElem?_append_right (by omega), Nat.add_sub_cancel_left]
          rfl
        rw [hget', Option.bind_some]
        by_cases hx : tolower x = 120
        · refine ⟨pre ++ [48,x],?_,?_⟩
          · rw [if_pos hx, List.length_append]
            rfl
          · rw [after0x, if_pos ⟨rfl,congrArg some hx⟩, List.append_assoc]
            rfl
        · refine ⟨pre,?_,?_⟩
          · rw [if_neg hx]
            rfl
          · rw [after0x, if_neg fun h => hx (Option.some_inj.mp h.2)]
    · refine ⟨pre,?_,?_⟩
      · rw [if_neg hc]
        rfl
      · rw [after0x, if_neg fun h => hc (Option.some_inj.mp h.1)]

/-- The number in the digits of a text. -/
def digitsValue (s : List UInt8) : ℕ := numeralValue 16 (s.map hexdigit)

theorem digitsValue_append (s t : List UInt8) :
    digitsValue (s ++ t) = digitsValue s*16^t.length+digitsValue t := by
  rw [digitsValue, List.map_append, numeralValue_append, List.length_map, digitsValue, digitsValue]

theorem digitsValue_singleton (c : UInt8) : digitsValue [c] = hexdigit c := by
  simp [digitsValue, numeralValue]

theorem digitsValue_lt (s : List UInt8) : digitsValue s < 16^s.length := by
  rw [← List.length_map hexdigit]
  apply numeralValue_lt (by decide)
  intro d hd
  obtain ⟨c,-,rfl⟩ := List.mem_map.mp hd
  exact hexdigit_lt c

/-- Two digits written to a byte that is still zero. -/
theorem setByte?_pair {a : BaseUint WIDTH} {p1 : ℕ} (hp1 : p1 < WIDTH*4) (hsmall : a.value < 256^p1)
    (c d : UInt8) : ∃ a1 a2, a.setByte? p1 (hexdigit c) = some a1 ∧
      a1.value = a.value+256^p1*hexdigit c ∧
      a1.setByte? p1 (a1.byteAt p1 ||| hexdigit d <<< 4) = some a2 ∧
      a2.value = a.value+256^p1*(hexdigit d*16+hexdigit c) := by
  have hc := hexdigit_lt c
  have hd := hexdigit_lt d
  obtain ⟨a1,hset1,hvalue1⟩ := a.setByte?_fresh hp1 hsmall (show hexdigit c < 256 by omega)
  obtain ⟨a2,hset2,hvalue2⟩ := a1.setByte?_spec hp1 (a1.byteAt p1 ||| hexdigit d <<< 4)
  have hbyte : a1.byteAt p1 = hexdigit c := by
    rw [a1.byteAt_eq hp1, hvalue1, Nat.add_mul_div_left _ _ (Nat.pow_pos (by decide)),
      Nat.div_eq_of_lt hsmall]
    omega
  -- the two halves of the byte do not meet
  have hor : (a1.byteAt p1 ||| hexdigit d <<< 4)%256 = hexdigit d*16+hexdigit c := by
    rw [hbyte, Nat.or_comm, Nat.shiftLeft_eq, mul_two_pow_lor hc]
    omega
  rw [hor, hbyte, hvalue1] at hvalue2
  exact ⟨a1,a2,hset1,hvalue1,hset2,by omega⟩

/-- The loop goes back over the digits `lo` that come before those it has read, two for each byte, and
stops where they or the bytes end. -/
theorem setHexLoop_spec {m : List UInt8} {pbegin n : ℕ} {lo hi : List UInt8} (hn : lo.length = n)
    (hmem : ∀ i < lo.length, m[pbegin+i]? = lo[i]?) {p1 : ℕ} (hp1 : hi.length = 2*p1)
    {a : BaseUint WIDTH} (ha : a.value = digitsValue hi) :
    ∃ a', setHexLoop m pbegin ((pbegin+n : ℕ)-1) p1 a = some a' ∧
      a'.value = digitsValue (lo ++ hi)%2^(32*WIDTH) := by
  have hpow := two_pow_words WIDTH
  -- The induction is on the number of digits left; a turn takes two of them, the last one maybe one.
  induction n using Nat.strong_induction_on generalizing lo hi p1 a with
  | h n ih =>
    have hbytes : 16^hi.length = 256^p1 := by
      rw [hp1, pow_mul, show 16^2 = 256 from rfl]
    have hsmall : a.value < 256^p1 := by
      rw [ha, ← hbytes]
      exact digitsValue_lt hi
    have hself : a.value%2^(32*WIDTH) = a.value := Nat.mod_eq_of_lt a.value_lt
    rw [setHexLoop]
    by_cases hstop : n = 0 ∨ WIDTH*4 ≤ p1
    · rw [if_neg (by omega)]
      refine ⟨a,rfl,?_⟩
      rw [digitsValue_append, ← ha, hbytes]
      rcases hstop with hzero | hfull
      · rw [List.length_eq_zero_iff.mp (hn.trans hzero), digitsValue]
        simpa [numeralValue] using hself.symm
      · -- the digits that are left stand above all bytes
        obtain ⟨k,rfl⟩ := Nat.exists_eq_add_of_le hfull
        rw [pow_add, ← hpow, mul_left_comm, Nat.mul_add_mod]
        exact hself.symm
    · rw [if_pos (by omega)]
      obtain ⟨lo,c,rfl⟩ : ∃ lo' c, lo = lo' ++ [c] := by
        rcases List.eq_nil_or_concat lo with rfl | ⟨lo',c,rfl⟩
        · exact absurd hn.symm (by rw [List.length_nil]; omega)
        · exact ⟨lo',c,by simp⟩
      rw [List.length_append, List.length_singleton] at hn
      -- the pointer stands on the last digit that was not read
      have hc : m[(((pbegin+n : ℕ) : ℤ)-1).toNat]? = some c := by
        rw [show (((pbegin+n : ℕ) : ℤ)-1).toNat = pbegin+lo.length by omega,
          hmem lo.length (by simp)]
        simp
      rw [hc, Option.bind_eq_bind, Option.bind_some]
      rcases List.eq_nil_or_concat lo with rfl | ⟨lo,d,rfl⟩
      · -- a single digit is left: the second half of its byte stays zero
        obtain ⟨a1,hset,hvalue⟩ := a.setByte?_fresh (show p1 < WIDTH*4 by omega) hsmall
          ((hexdigit_lt c).trans (by decide))
        have hend : n = 1 := hn.symm
        rw [hset, Option.bind_eq_bind, Option.bind_some, if_neg (by omega), setHexLoop, if_neg (by omega)]
        refine ⟨a1,rfl,?_⟩
        have hsum : digitsValue ([c] ++ hi) = a1.value := by
          rw [digitsValue_append, digitsValue_singleton, ← ha, hbytes, hvalue]
          ring
        rw [List.nil_append, hsum]
        exact (Nat.mod_eq_of_lt a1.value_lt).symm
      · obtain ⟨a1,a2,hset1,-,hset2,hvalue⟩ := setByte?_pair (show p1 < WIDTH*4 by omega) hsmall c d
        rw [List.concat_eq_append, List.length_append, List.length_singleton] at hn
        have hd : m[(((pbegin+n : ℕ) : ℤ)-1-1).toNat]? = some d := by
          rw [show (((pbegin+n : ℕ) : ℤ)-1-1).toNat = pbegin+lo.length by omega,
            hmem lo.length (by simp)]
          simp
        rw [hset1, Option.bind_eq_bind, Option.bind_some, if_pos (by omega), hd, Option.bind_some, hset2,
          Option.bind_some]
        -- the pair stands in front of the digits read before
        have hpair : a2.value = digitsValue ([d,c] ++ hi) := by
          rw [digitsValue_append, ← ha, hbytes, hvalue, ← List.singleton_append, digitsValue_append,
            digitsValue_singleton, digitsValue_singleton, List.length_singleton]
          ring
        have hmem' : ∀ i < lo.length, m[pbegin+i]? = lo[i]? := by
          intro i hi
          rw [hmem i (by simp; omega), List.concat_eq_append, List.append_assoc,
            List.getElem?_append_left hi]
        have hlen : ([d,c] ++ hi).length = 2*(p1+1) := by
          rw [List.length_append, hp1]
          exact add_comm _ _
        obtain ⟨a',hrun,hvalue'⟩ := ih (n-2) (by omega) (by omega) hmem' hlen hpair
        refine ⟨a',?_,?_⟩
        · rw [← hrun]
          congr 1
          omega
        · rw [hvalue', List.concat_eq_append, List.append_assoc, List.append_assoc]
          rfl

theorem value_zero (WIDTH : ℕ) :
    (⟨fillWords WIDTH fun _ => 0#32,(fillWords_zero WIDTH).1⟩ : BaseUint WIDTH).value = 0 := by
  apply limbs_zeros (Nat.zero_le _)
  intro i _ hi
  exact (fillWords_spec fun _ => 0#32).2 i hi

/-- `SetHex` reads the leading digits, and nothing outside the string or the value. -/
theorem setHex_spec (WIDTH : ℕ) (s : List UInt8) :
    ∃ a : BaseUint WIDTH, setHex WIDTH (s ++ [0]) = some a ∧
      a.value = numeralValue 16 ((leadingHex s).map hexValue)%2^(32*WIDTH) := by
  have hspaces := skipWhile_spec (show isspace 0 = false by decide) [] s
  have hsplit : s = s.takeWhile isspace ++ s.dropWhile isspace := List.takeWhile_append_dropWhile.symm
  obtain ⟨pre,hskip,hpre⟩ := skip0x_spec (s.takeWhile isspace) (s.dropWhile isspace)
  rw [← hsplit] at hpre
  -- the test that finds the end holds of the hexadecimal digits alone
  have htest : (fun c => decide (hexdigit c ≠ 0 ∨ c = 48)) = isxdigit := funext hexdigit_test
  rw [leadingHex]
  generalize after0x (s.dropWhile isspace) = t at hpre ⊢
  have hend := skipWhile_spec (show isxdigit 0 = false by decide) pre t
  -- the digits stand in memory from `pbegin` on
  have hmem : ∀ i < (t.takeWhile isxdigit).length,
      (pre ++ (t ++ [0]))[pre.length+i]? = (t.takeWhile isxdigit)[i]? := by
    intro i hi
    rw [List.getElem?_append_right (by omega), Nat.add_sub_cancel_left]
    conv_lhs => rw [← List.takeWhile_append_dropWhile (p := isxdigit) (l := t)]
    rw [List.append_assoc, List.getElem?_append_left hi]
  have hnone : ([] : List UInt8).length = 2*0 := rfl
  obtain ⟨a,hrun,hvalue⟩ := setHexLoop_spec rfl hmem hnone (value_zero WIDTH)
  refine ⟨a,?_,?_⟩
  · have hskip' : skip0x (s ++ [0]) (s.takeWhile isspace).length = some pre.length := by
      rw [← hskip, ← List.append_assoc, ← hsplit]
    have hspaces' : skipWhile (s ++ [0]) isspace 0 = some (s.takeWhile isspace).length := by
      rw [← Nat.zero_add (s.takeWhile isspace).length]
      exact hspaces
    have hend' : skipWhile (s ++ [0]) isxdigit pre.length =
        some (pre.length+(t.takeWhile isxdigit).length) := by
      rw [hpre, List.append_assoc]
      exact hend
    have hrun' : setHexLoop (s ++ [0]) pre.length
        ((pre.length+(t.takeWhile isxdigit).length : ℕ)-1) 0
          ⟨fillWords WIDTH fun _ => 0#32,(fillWords_zero WIDTH).1⟩ = some a := by
      rw [hpre, List.append_assoc]
      exact hrun
    rw [setHex, hspaces', Option.bind_eq_bind, Option.bind_some, hskip', Option.bind_some, htest, hend',
      Option.bind_some]
    exact hrun'
  · rw [hvalue, List.append_nil, digitsValue]
    congr 2
    apply List.map_congr_left
    intro c hc
    exact hexdigit_eq c (List.mem_takeWhile_imp hc)

end Reading

section RoundTrip
variable (a : BaseUint WIDTH)

theorem hexChar_spec : ∀ d < 16, hexdigit (hexChar d) = d ∧ isxdigit (hexChar d) = true := by
  decide +kernel

/-- The digits of the upper bytes. -/
theorem digitsValue_upper {k : ℕ} (hk : k ≤ WIDTH*4) :
    digitsValue ((List.range k).flatMap fun i =>
      [hexChar (a.byteAt (WIDTH*4-i-1)/16),hexChar (a.byteAt (WIDTH*4-i-1)%16)]) =
        a.value/256^(WIDTH*4-k) := by
  have hpow := two_pow_words WIDTH
  induction k with
  | zero =>
    have hlt := a.value_lt
    rw [hpow] at hlt
    exact (Nat.div_eq_of_lt hlt).symm
  | succ k ih =>
    have hbyte := a.byteAt_eq (show WIDTH*4-k-1 < WIDTH*4 by omega)
    have hlt : a.byteAt (WIDTH*4-k-1) < 256 := Nat.mod_lt _ (by decide)
    have hnext : 256^(WIDTH*4-k) = 256^(WIDTH*4-(k+1))*256 := by
      rw [← pow_succ]
      congr 1
      omega
    rw [List.range_succ, List.flatMap_append, List.flatMap_singleton, digitsValue_append,
      ih (by omega), ← List.singleton_append, digitsValue_append, digitsValue_singleton,
      digitsValue_singleton, (hexChar_spec _ (by omega)).1, (hexChar_spec _ (by omega)).1, hbyte, hnext,
      ← Nat.div_div_eq_div_mul, Nat.sub_sub]
    change _*16^2+(_*16^1+_) = _
    omega

/-- Text of hexadecimal digits alone. -/
theorem leadingHex_eq {s : List UInt8} (hs : ∀ c ∈ s, isxdigit c = true) : leadingHex s = s := by
  have hchar : ∀ c ∈ s, isspace c = false ∧ tolower c ≠ 120 := fun c hc => isxdigit_text c (hs c hc)
  -- text that begins with a digit has no white space to skip, and no `x` in it
  have hspaces : s.dropWhile isspace = s := by
    cases s with
    | nil => rfl
    | cons c s =>
      apply List.dropWhile_cons_of_neg
      rw [(hchar c List.mem_cons_self).1]
      decide
  have h0x : after0x s = s := by
    rw [after0x, if_neg]
    rintro ⟨-,hx⟩
    obtain ⟨x,hmem,hlower⟩ := Option.map_eq_some_iff.mp hx
    exact (hchar x (List.mem_of_mem_tail (List.mem_of_head? hmem))).2 hlower
  rw [leadingHex, hspaces, h0x]
  exact List.takeWhile_eq_self_iff.mpr hs

theorem getHex_isxdigit : ∀ c ∈ a.getHex, isxdigit c = true := by
  intro c hc
  obtain ⟨i,-,hc⟩ := List.mem_flatMap.mp hc
  have hlt : a.byteAt (WIDTH*4-i-1) < 256 := Nat.mod_lt _ (by decide)
  rcases List.mem_cons.mp hc with rfl | hc
  · exact (hexChar_spec _ (by omega)).2
  · rw [List.mem_singleton.mp hc]
    exact (hexChar_spec _ (by omega)).2

theorem setHex_getHex : setHex WIDTH (a.getHex ++ [0]) = some a := by
  obtain ⟨a',hrun,hvalue⟩ := setHex_spec WIDTH a.getHex
  have hdigits := digitsValue_upper a le_rfl
  rw [Nat.sub_self, pow_zero, Nat.div_one] at hdigits
  have hvalues : a.getHex.map hexValue = a.getHex.map hexdigit := by
    apply List.map_congr_left
    intro c hc
    exact (hexdigit_eq c (getHex_isxdigit a c hc)).symm
  rw [leadingHex_eq (getHex_isxdigit a), hvalues] at hvalue
  have hsame : a'.value = a.value := by
    calc a'.value = digitsValue a.getHex%2^(32*WIDTH) := hvalue
      _ = a.value%2^(32*WIDTH) := congrArg (·%2^(32*WIDTH)) hdigits
      _ = a.value := Nat.mod_eq_of_lt a.value_lt
  rw [hrun, value_injective hsame]

end RoundTrip

/-- The integers of fixed width are the integers modulo a power of two, and their text is that of the
number. -/
theorem baseUint_modulo (hw : 2 ≤ WIDTH) :
    (∀ a b : BaseUint WIDTH,
      ((a.addAssign b).value : ℤ) = (a.value+b.value)%2^(32*WIDTH) ∧
      ((a.subAssign b).value : ℤ) = (a.value-b.value)%2^(32*WIDTH) ∧
      a.lt b = decide (a.value < b.value) ∧ a.le b = decide (a.value ≤ b.value) ∧
      a.gt b = decide (a.value > b.value) ∧ a.ge b = decide (a.value ≥ b.value) ∧
      a.eq b = decide (a.value = b.value) ∧ a.ne b = decide (a.value ≠ b.value)) ∧
    (∀ (a : BaseUint WIDTH) (b64 : BitVec 64),
      ((a.addAssignUint64 b64).value : ℤ) = (a.value+b64.toNat)%2^(32*WIDTH) ∧
      ((a.subAssignUint64 b64).value : ℤ) = (a.value-b64.toNat)%2^(32*WIDTH) ∧
      a.eqUint64 b64 = decide (a.value = b64.toNat) ∧ a.neUint64 b64 = decide (a.value ≠ b64.toNat)) ∧
    (∀ a : BaseUint WIDTH,
      (a.neg.value : ℤ) = -a.value%2^(32*WIDTH) ∧
      (a.increment.value : ℤ) = (a.value+1)%2^(32*WIDTH) ∧
      (a.decrement.value : ℤ) = (a.value-1)%2^(32*WIDTH) ∧
      a.postIncrement = (a,a.increment) ∧ a.postDecrement = (a,a.decrement)) ∧
    (∀ (a : BaseUint WIDTH) (shift : ℕ),
      (a.shiftLeftAssign shift).value = a.value*2^shift%2^(32*WIDTH) ∧
      (a.shiftRightAssign shift).value = a.value/2^shift ∧
      (32*WIDTH ≤ shift → (a.shiftLeftAssign shift).value = 0 ∧ (a.shiftRightAssign shift).value = 0)) ∧
    (∀ a : BaseUint WIDTH, setHex WIDTH (a.getHex ++ [0]) = some a) ∧
    ∀ s : List UInt8, ∃ a, setHex WIDTH (s ++ [0]) = some a ∧
      a.value = numeralValue 16 ((leadingHex s).map hexValue)%2^(32*WIDTH) := by
  have hpos : 0 < WIDTH := by omega
  refine ⟨fun a b => ⟨?_,?_,lt_eq a b,le_eq a b,lt_eq b a,le_eq b a,eq_eq a b,?_⟩,
    fun a b64 => ⟨?_,?_,eqUint64_eq a hw b64,?_⟩,fun a => ⟨?_,?_,?_,rfl,rfl⟩,
    fun a shift => ⟨?_,?_,fun hbits => ⟨?_,?_⟩⟩,setHex_getHex,setHex_spec WIDTH⟩
  · exact intValue_addAssign a b
  · exact value_addAssign_neg a b hpos
  · rw [ne, eq_eq]
    exact (decide_not ..).symm
  · rw [addAssignUint64, intValue_addAssign, value_ofUint64 hw]
  · rw [subAssignUint64, value_addAssign_neg _ _ hpos, value_ofUint64 hw]
  · rw [neUint64, eqUint64_eq a hw]
    exact (decide_not ..).symm
  · exact intValue_neg a hpos
  · rw [value_increment a hpos]
    push_cast
    rfl
  · exact intValue_decrement a hpos
  · exact limbs_shiftLeftWords a.pn shift
  · exact limbs_shiftRightWords a.pn shift
  · -- all bits go out at the top
    have hdvd : 2^(32*WIDTH) ∣ a.value*2^shift := (pow_dvd_pow 2 hbits).mul_left _
    exact (limbs_shiftLeftWords a.pn shift).trans (Nat.mod_eq_zero_of_dvd hdvd)
  · have hlt := a.value_lt.trans_le (Nat.pow_le_pow_right (show 0 < 2 by decide) hbits)
    exact (limbs_shiftRightWords a.pn shift).trans (Nat.div_eq_of_lt hlt)

theorem baseUint_modulo_uint256 :
    ∃ a : BaseUint 8, setHex 8 ([48,120,70,102,103] ++ [0]) = some a ∧ a.value = 255 := by
  obtain ⟨-,-,-,-,-,hread⟩ := baseUint_modulo (show 2 ≤ 8 by decide)
  obtain ⟨a,hrun,hvalue⟩ := hread [48,120,70,102,103]
  refine ⟨a,hrun,hvalue.trans ?_⟩
  decide +kernel

end BaseUint

end Candypool.Core
