import Candypool.Core.Serialize
import Candypool.Lib.AsciiText
import Candypool.Lib.Numeral
import Candypool.Script.ScriptNum

/-! Text in base 58, for addresses. -/
namespace Candypool.Wallet
open Candypool.Core Candypool.Script Candypool.Prime Candypool.Lib

def pszBase58 : List UInt8 :=
  "123456789ABCDEFGHJKLMNPQRSTUVWXYZabcdefghijkmnopqrstuvwxyz".toList.map fun c => UInt8.ofNat c.toNat

section Base58

/-- The digits of the number, the lowest one first; nothing when the fuel runs out or a digit is not in
the alphabet. -/
def encodeDigits : ℕ → CBigNum → List UInt8 → Option (List UInt8)
  | 0, _, _ => none
  | fuel+1, bn, str =>
    if bn > 0 then do
      let dv := bnDiv bn 58
      let rem := bnMod bn 58
      let c ← pszBase58[rem.natAbs]?
      encodeDigits fuel dv (str ++ [c])
    else some str

/-- `EncodeBase58`. -/
def encodeBase58 (vch : List UInt8) : Option (List UInt8) := do
  let bn := setvch (vch.reverse ++ [0])
  let str ← encodeDigits (bn.natAbs.log2+2) bn []
  let zero ← pszBase58[0]?
  -- leading zeroes encoded as base58 zeros
  let str := str ++ (vch.takeWhile (· = 0)).map fun _ => zero
  return str.reverse

/-- The place of a character in the alphabet. -/
def strchr (c : UInt8) : Option ℕ := pszBase58.findIdx? (· = c)

/-- The number of a text, up to white space at its end. -/
def decodeDigits : List UInt8 → CBigNum → Option CBigNum
  | [], bn => some bn
  | c :: p, bn =>
    match strchr c with
    | none => if (c :: p).dropWhile isspace = [] then some bn else none
    | some i => decodeDigits p (bn*58+i)

/-- Trim off sign byte if present. -/
def trimSign (vchTmp : List UInt8) : List UInt8 :=
  if vchTmp.length ≥ 2 ∧ vchTmp.getLastD 0 = 0 ∧ vchTmp.dropLast.getLastD 0 ≥ 0x80 then vchTmp.dropLast
  else vchTmp

/-- `DecodeBase58`: whether it succeeds, and `vchRet` afterwards. -/
def decodeBase58 (psz : List UInt8) : Bool × List UInt8 :=
  let psz := psz.dropWhile isspace
  match decodeDigits psz 0 with
  | none => (false,[])
  | some bn =>
    let vchTmp := trimSign (bnGetvch bn)
    let nLeadingZeros := (psz.takeWhile (· = pszBase58.headD 0)).length
    (true,List.replicate nLeadingZeros 0 ++ vchTmp.reverse)

end Base58

section Check
variable (hash : List UInt8 → Uint256)

/-- The first bytes of the hash, as they are in memory. -/
def checksum (vch : List UInt8) : List UInt8 := (serializeUint256 (hash vch)).take 4

def encodeBase58Check (vchIn : List UInt8) : Option (List UInt8) :=
  encodeBase58 (vchIn ++ checksum hash vchIn)

def decodeBase58Check (psz : List UInt8) : Bool × List UInt8 :=
  let (fDecoded,vchRet) := decodeBase58 psz
  if !fDecoded then (false,vchRet)
  else if vchRet.length < 4 then (false,[])
  else
    let vch := vchRet.take (vchRet.length-4)
    if checksum hash vch ≠ vchRet.drop (vchRet.length-4) then (false,[]) else (true,vch)

structure CBase58Data where
  nVersion : UInt8
  vchData : List UInt8
  deriving DecidableEq

namespace CBase58Data

/-- `SetString` looks only at what `DecodeBase58Check` leaves. -/
def setString (psz : List UInt8) : Bool × CBase58Data :=
  match (decodeBase58Check hash psz).2 with
  | [] => (false,⟨0,[]⟩)
  | nVersion :: vchData => (true,⟨nVersion,vchData⟩)

def toString (b58 : CBase58Data) : Option (List UInt8) :=
  encodeBase58Check hash (b58.nVersion :: b58.vchData)

end CBase58Data

end Check

section Alphabet

/-- A numeral to the base 58 as text. -/
def base58Text (digits : List ℕ) : List UInt8 := digits.map fun d => pszBase58.getD d 0

def bytesOf (digits : List ℕ) : List UInt8 := digits.map UInt8.ofNat

theorem alphabet_place : ∀ d < 58, pszBase58[d]? = some (pszBase58.getD d 0) ∧
    strchr (pszBase58.getD d 0) = some d ∧ (pszBase58.getD d 0 = pszBase58.headD 0 ↔ d = 0) := by
  decide +kernel

theorem alphabet_chars : ∀ c ∈ pszBase58, (∃ d < 58, pszBase58.getD d 0 = c) ∧ isspace c = false ∧
    c ≠ 0 := by
  decide +kernel

theorem base58Text_alphabet {digits : List ℕ} (h : ∀ d ∈ digits, d < 58) :
    ∀ c ∈ base58Text digits, c ∈ pszBase58 := by
  intro c hc
  obtain ⟨d,hd,rfl⟩ := List.mem_map.mp hc
  exact List.mem_of_getElem? (alphabet_place d (h d hd)).1

theorem exists_base58Text {s : List UInt8} (hs : ∀ c ∈ s, c ∈ pszBase58) :
    ∃ digits, (∀ d ∈ digits, d < 58) ∧ base58Text digits = s := by
  induction s with
  | nil => exact ⟨[], by simp, rfl⟩
  | cons c s ih =>
    obtain ⟨digits,hdigits,rfl⟩ := ih fun d hd => hs d (List.mem_cons_of_mem c hd)
    obtain ⟨⟨d,hd,rfl⟩,-⟩ := alphabet_chars c (hs c List.mem_cons_self)
    exact ⟨d :: digits, List.forall_mem_cons.mpr ⟨hd, hdigits⟩, rfl⟩

theorem toNat_bytesOf {digits : List ℕ} (h : ∀ d ∈ digits, d < 256) :
    (bytesOf digits).map UInt8.toNat = digits := by
  rw [bytesOf, List.map_map]
  conv_rhs => rw [← List.map_id digits]
  apply List.map_congr_left
  intro d hd
  exact Nat.mod_eq_of_lt (h d hd)

theorem bytesOf_toNat (vch : List UInt8) : bytesOf (vch.map UInt8.toNat) = vch := by
  rw [bytesOf, List.map_map]
  conv_rhs => rw [← List.map_id vch]
  apply List.map_congr_left
  intro b _
  exact UInt8.ofNat_toNat

end Alphabet

section Encode

theorem littleEndian_eq_ofDigits (vch : List UInt8) :
    littleEndian vch = Nat.ofDigits 256 (vch.map UInt8.toNat) := by
  induction vch with
  | nil => rfl
  | cons b vch ih => rw [littleEndian, ih, List.map_cons, Nat.ofDigits_cons]

theorem setvch_positive (vch : List UInt8) :
    setvch (vch.reverse ++ [0]) = (numeralValue 256 (vch.map UInt8.toNat) : ℕ) := by
  rw [setvch, if_neg (by simp), littleEndian_append_zero, littleEndian_eq_ofDigits, numeralValue,
    List.map_reverse]

theorem encodeDigits_eq {fuel n : ℕ} (h : n < 2^fuel) (str : List UInt8) :
    encodeDigits (fuel+1) n str = some (str ++ base58Text (Nat.digits 58 n)) := by
  induction fuel generalizing n str with
  | zero =>
    obtain rfl : n = 0 := by omega
    rw [encodeDigits, if_neg (by decide), Nat.digits_zero]
    exact congrArg some (List.append_nil str).symm
  | succ fuel ih =>
    rw [encodeDigits]
    split_ifs with hpos
    · have hn : 0 < n := Int.natCast_pos.mp hpos
      have hdigit := (alphabet_place (n % 58) (Nat.mod_lt n (by decide))).1
      have hrem : (bnMod n 58).natAbs = n % 58 := by
        rw [bnMod, Int.tmod_eq_emod_of_nonneg (Int.natCast_nonneg n)]
        omega
      have hdv : bnDiv n 58 = (n/58 : ℕ) := by
        rw [bnDiv, Int.tdiv_eq_ediv_of_nonneg (Int.natCast_nonneg n)]
        rfl
      simp only [hrem, hdigit, Option.bind_eq_bind, Option.bind_some]
      rw [hdv, ih (by rw [pow_succ] at h; omega), Nat.digits_def' (by decide) hn, List.append_assoc]
      rfl
    · obtain rfl : n = 0 := Nat.eq_zero_of_not_pos fun hn => hpos (Int.natCast_pos.mpr hn)
      rw [Nat.digits_zero]
      exact congrArg some (List.append_nil str).symm

theorem leadingZeros_toNat (vch : List UInt8) :
    leadingZeros (vch.map UInt8.toNat) = (vch.takeWhile (· = 0)).length := by
  have hzero : (fun b : UInt8 => decide (b.toNat = 0)) = fun b => decide (b = 0) := by
    funext b
    exact decide_eq_decide.mpr ⟨fun h => UInt8.toNat_inj.mp h, congrArg UInt8.toNat⟩
  rw [leadingZeros, List.takeWhile_map, List.length_map, Function.comp_def, hzero]

/-- The leading zeros stay, and the value goes to the other base. -/
theorem encodeBase58_eq (vch : List UInt8) :
    encodeBase58 vch = some (base58Text (numeral 58 (leadingZeros (vch.map UInt8.toNat))
      (numeralValue 256 (vch.map UInt8.toNat)))) := by
  have hzero : pszBase58[0]? = some (pszBase58.getD 0 0) := (alphabet_place 0 (by decide)).1
  rw [encodeBase58, setvch_positive, leadingZeros_toNat]
  generalize numeralValue 256 (vch.map UInt8.toNat) = n
  have hfuel : n < 2^(n.log2+1) := Nat.lt_log2_self
  simp only [Int.natAbs_natCast, encodeDigits_eq hfuel, hzero, Option.bind_eq_bind, Option.bind_some,
    List.nil_append, List.map_const', List.reverse_append, List.reverse_replicate]
  rw [numeral, base58Text, base58Text, List.map_append, List.map_replicate, List.map_reverse]
  rfl

end Encode

section Decode

theorem decodeDigits_text {digits : List ℕ} (h : ∀ d ∈ digits, d < 58) (value : ℕ) (rest : List UInt8) :
    decodeDigits (base58Text digits ++ rest) value =
      decodeDigits rest (value*58^digits.length+numeralValue 58 digits : ℕ) := by
  induction digits generalizing value with
  | nil => simp [base58Text, numeralValue]
  | cons d digits ih =>
    have hd := (alphabet_place d (h d List.mem_cons_self)).2.1
    have hnext : (value : ℤ)*58+d = (value*58+d : ℕ) := by push_cast; rfl
    rw [base58Text, List.map_cons, List.cons_append, decodeDigits, hd]
    refine (congrArg (decodeDigits _) hnext).trans ?_
    refine (ih (fun e he => h e (List.mem_cons_of_mem d he)) _).trans ?_
    rw [numeralValue, numeralValue, List.reverse_cons, Nat.ofDigits_append, List.length_reverse,
      Nat.ofDigits_singleton, List.length_cons, pow_succ]
    congr 2
    ring

theorem lowBytes_eq_digits {fuel n : ℕ} (h : n < 2^fuel) :
    lowBytes fuel n = bytesOf (Nat.digits 256 n) := by
  induction fuel generalizing n with
  | zero =>
    obtain rfl : n = 0 := by omega
    rfl
  | succ fuel ih =>
    rw [lowBytes]
    split_ifs with hzero
    · rw [hzero]
      rfl
    · rw [ih (by rw [pow_succ] at h; omega), Nat.digits_def' (b := 256) (n := n) (by decide)
        (Nat.pos_of_ne_zero hzero)]
      rfl

/-- Without its sign byte a number has no zero at the end. -/
theorem trimSign_getvch (n : ℕ) : trimSign (bnGetvch n) = bytesOf (Nat.digits 256 n) := by
  rw [bnGetvch_natCast, getvch, lowBytes_eq_digits Nat.lt_log2_self]
  split_ifs with htop
  · rw [trimSign, List.dropLast_concat, if_pos]
    refine ⟨?_, by simp, htop⟩
    rw [List.length_append, List.length_singleton]
    have hne : bytesOf (Nat.digits 256 n) ≠ [] := by
      intro hnil
      rw [hnil] at htop
      exact absurd htop (by decide)
    have hpos := List.length_pos_of_ne_nil hne
    omega
  · rw [trimSign, if_neg]
    rintro ⟨hlen,hlast,-⟩
    have hne : Nat.digits 256 n ≠ [] := by
      intro hnil
      rw [hnil] at hlen
      exact absurd hlen (by decide)
    have hn : n ≠ 0 := fun hzero => hne (by rw [hzero, Nat.digits_zero])
    have hlt := Nat.digits_lt_base (b := 256) (by decide) (List.getLast_mem hne)
    rw [List.getLastD_eq_getLast?, bytesOf, List.getLast?_map, List.getLast?_eq_some_getLast hne,
      Option.map_some, Option.getD_some] at hlast
    have hmod := congrArg UInt8.toNat hlast
    rw [UInt8.toNat_ofNat', Nat.mod_eq_of_lt hlt] at hmod
    exact Nat.getLast_digit_ne_zero 256 hn hmod

theorem dropWhile_space_text {digits : List ℕ} (h : ∀ d ∈ digits, d < 58) :
    (base58Text digits).dropWhile isspace = base58Text digits := by
  cases digits with
  | nil => rfl
  | cons d digits =>
    have hc : isspace (pszBase58.getD d 0) = false :=
      (alphabet_chars _ (base58Text_alphabet h _ List.mem_cons_self)).2.1
    rw [base58Text, List.map_cons, List.dropWhile_cons, hc]
    rfl

theorem leadingZeros_text {digits : List ℕ} (h : ∀ d ∈ digits, d < 58) :
    ((base58Text digits).takeWhile (· = pszBase58.headD 0)).length = leadingZeros digits := by
  rw [base58Text, leadingZeros]
  induction digits with
  | nil => rfl
  | cons d digits ih =>
    have hsame : decide (pszBase58.getD d 0 = pszBase58.headD 0) = decide (d = 0) :=
      decide_eq_decide.mpr (alphabet_place d (h d List.mem_cons_self)).2.2
    rw [List.map_cons, List.takeWhile_cons, List.takeWhile_cons, hsame]
    split
    · rw [List.length_cons, List.length_cons, ih fun e he => h e (List.mem_cons_of_mem d he)]
    · rfl

/-- The other way round. -/
theorem decodeBase58_eq {digits : List ℕ} (h : ∀ d ∈ digits, d < 58) :
    decodeBase58 (base58Text digits) =
      (true,bytesOf (numeral 256 (leadingZeros digits) (numeralValue 58 digits))) := by
  have hvalue : decodeDigits (base58Text digits) 0 = some (numeralValue 58 digits : ℕ) := by
    have hdigits := decodeDigits_text h 0 []
    rw [List.append_nil, zero_mul, zero_add] at hdigits
    exact hdigits
  have htrim := trimSign_getvch (numeralValue 58 digits)
  rw [decodeBase58, dropWhile_space_text h]
  simp only [hvalue, leadingZeros_text h]
  refine (congrArg (fun vch => (true,List.replicate (leadingZeros digits) 0 ++ vch.reverse)) htrim).trans ?_
  rw [numeral, bytesOf, bytesOf, List.map_append, List.map_replicate, List.map_reverse]
  rfl

theorem encode_decode {s : List UInt8} (hs : ∀ c ∈ s, c ∈ pszBase58) :
    ∃ vch, decodeBase58 s = (true,vch) ∧ encodeBase58 vch = some s := by
  obtain ⟨digits,hdigits,rfl⟩ := exists_base58Text hs
  refine ⟨_, decodeBase58_eq hdigits, ?_⟩
  have hbytes : ∀ d ∈ numeral 256 (leadingZeros digits) (numeralValue 58 digits), d < 256 :=
    fun d hd => mem_numeral_lt (by decide) hd
  have hnat := toNat_bytesOf hbytes
  rw [encodeBase58_eq, hnat, leadingZeros_numeral, numeralValue_numeral, numeral_value (by decide) hdigits]

theorem decode_encode (vch : List UInt8) :
    ∃ s, encodeBase58 vch = some s ∧ (∀ c ∈ s, c ∈ pszBase58) ∧ decodeBase58 s = (true,vch) := by
  have hdigits : ∀ d ∈ numeral 58 (leadingZeros (vch.map UInt8.toNat))
      (numeralValue 256 (vch.map UInt8.toNat)), d < 58 := fun d hd => mem_numeral_lt (by decide) hd
  refine ⟨_, encodeBase58_eq vch, base58Text_alphabet hdigits, ?_⟩
  have hbytes : ∀ d ∈ vch.map UInt8.toNat, d < 256 := by
    intro d hd
    obtain ⟨b,-,rfl⟩ := List.mem_map.mp hd
    exact b.toNat_lt
  rw [decodeBase58_eq hdigits, leadingZeros_numeral, numeralValue_numeral, numeral_value (by decide) hbytes,
    bytesOf_toNat]

end Decode

section Space

theorem strchr_space {c : UInt8} (hc : isspace c = true) : strchr c = none := by
  rw [strchr, List.findIdx?_eq_none_iff]
  intro d hd
  apply decide_eq_false
  rintro rfl
  rw [(alphabet_chars d hd).2.1] at hc
  cases hc

theorem dropWhile_space {after : List UInt8} (hafter : ∀ c ∈ after, isspace c = true) :
    after.dropWhile isspace = [] := List.dropWhile_eq_nil_iff.mpr hafter

theorem decodeDigits_space {after : List UInt8} (hafter : ∀ c ∈ after, isspace c = true)
    (p : List UInt8) (bn : CBigNum) : decodeDigits (p ++ after) bn = decodeDigits p bn := by
  induction p generalizing bn with
  | nil =>
    cases after with
    | nil => rfl
    | cons c after =>
      rw [List.nil_append, decodeDigits.eq_2, strchr_space (hafter c List.mem_cons_self)]
      exact if_pos (dropWhile_space hafter)
  | cons c p ih =>
    rw [List.cons_append, decodeDigits, decodeDigits]
    cases strchr c with
    | none =>
      have hsame : (c :: (p ++ after)).dropWhile isspace = [] ↔ (c :: p).dropWhile isspace = [] := by
        rw [← List.cons_append, List.dropWhile_eq_nil_iff, List.dropWhile_eq_nil_iff]
        exact ⟨fun h d hd => h d (List.mem_append_left _ hd),
          fun h d hd => (List.mem_append.mp hd).elim (h d) (hafter d)⟩
      simp only [hsame]
    | some i => exact ih _

/-- White space around a text changes nothing. -/
theorem decodeBase58_space {before after : List UInt8} (hbefore : ∀ c ∈ before, isspace c = true)
    (hafter : ∀ c ∈ after, isspace c = true) (s : List UInt8) :
    decodeBase58 (before ++ (s ++ after)) = decodeBase58 s := by
  rw [decodeBase58, decodeBase58, List.dropWhile_append_of_pos hbefore, List.dropWhile_append]
  by_cases hempty : (s.dropWhile isspace).isEmpty = true
  · rw [if_pos hempty, List.isEmpty_iff.mp hempty, dropWhile_space hafter]
  · rw [if_neg hempty]
    -- no space is a `1`, so the space behind adds none to the leading ones
    have hones : (s.dropWhile isspace ++ after).takeWhile (· = pszBase58.headD 0) =
        (s.dropWhile isspace).takeWhile (· = pszBase58.headD 0) := by
      have hnone : after.takeWhile (· = pszBase58.headD 0) = [] := by
        cases after with
        | nil => rfl
        | cons c after =>
          have hc : c ≠ pszBase58.headD 0 := by
            rintro rfl
            exact absurd (hafter _ List.mem_cons_self) (by decide)
          rw [List.takeWhile_cons, decide_eq_false hc]
          rfl
      rw [List.takeWhile_append, hnone, List.append_nil]
      split
      · rename_i hlen
        exact ((List.takeWhile_prefix _).eq_of_length hlen).symm
      · rfl
    simp only [decodeDigits_space hafter, hones]

end Space

section RoundTrip
variable (hash : List UInt8 → Uint256)

theorem checksum_length (vch : List UInt8) : (checksum hash vch).length = 4 := by
  rw [checksum, List.length_take]
  exact min_eq_left ((by decide : 4 ≤ 32).trans_eq (numberBytes_length 32 _).symm)

theorem decode_encode_check (vch : List UInt8) :
    ∃ s, encodeBase58Check hash vch = some s ∧ (∀ c ∈ s, c ∈ pszBase58) ∧
      decodeBase58Check hash s = (true,vch) := by
  obtain ⟨s,hencode,halphabet,hdecode⟩ := decode_encode (vch ++ checksum hash vch)
  have hlen : (vch ++ checksum hash vch).length = vch.length+4 := by
    rw [List.length_append, checksum_length]
  refine ⟨s, hencode, halphabet, ?_⟩
  rw [decodeBase58Check, hdecode]
  simp only [hlen, Nat.add_sub_cancel, List.take_left, List.drop_left]
  rw [if_neg (by decide), if_neg (by omega), if_neg (not_not.mpr rfl)]

theorem setString_toString (b58 : CBase58Data) :
    ∃ s, b58.toString hash = some s ∧ (∀ c ∈ s, c ∈ pszBase58) ∧
      CBase58Data.setString hash s = (true,b58) := by
  obtain ⟨s,hencode,halphabet,hdecode⟩ := decode_encode_check hash (b58.nVersion :: b58.vchData)
  refine ⟨s, hencode, halphabet, ?_⟩
  rw [CBase58Data.setString, hdecode]

end RoundTrip

theorem cStr_alphabet {s : List UInt8} (hs : ∀ c ∈ s, c ∈ pszBase58) : cStr s = s :=
  cStr_eq fun c hc => (alphabet_chars c (hs c hc)).2.2

/-- Byte vectors survive base 58 and texts survive decoding, also with a checksum, and so do addresses
with their version. -/
theorem base58_round_trips (hash : List UInt8 → Uint256) :
    (∀ vch, ∃ s, encodeBase58 vch = some s ∧ decodeBase58 (cStr s) = (true,vch)) ∧
    (∀ s : List UInt8, (∀ c ∈ s, c ∈ pszBase58) →
      ∃ vch, decodeBase58 (cStr s) = (true,vch) ∧ encodeBase58 vch = some s) ∧
    (∀ before after psz : List UInt8, (∀ c ∈ before, isspace c = true) →
      (∀ c ∈ after, isspace c = true) → decodeBase58 (before ++ (psz ++ after)) = decodeBase58 psz) ∧
    (∀ vch, ∃ s, encodeBase58Check hash vch = some s ∧ decodeBase58Check hash (cStr s) = (true,vch)) ∧
    ∀ b58 : CBase58Data, ∃ s, b58.toString hash = some s ∧
      CBase58Data.setString hash (cStr s) = (true,b58) := by
  refine ⟨fun vch => ?_, fun s hs => ?_, fun _ _ psz hbefore hafter => ?_, fun vch => ?_, fun b58 => ?_⟩
  · obtain ⟨s,hencode,hs,hdecode⟩ := decode_encode vch
    exact ⟨s, hencode, by rw [cStr_alphabet hs, hdecode]⟩
  · obtain ⟨vch,hdecode,hencode⟩ := encode_decode hs
    exact ⟨vch, by rw [cStr_alphabet hs, hdecode], hencode⟩
  · exact decodeBase58_space hbefore hafter psz
  · obtain ⟨s,hencode,hs,hdecode⟩ := decode_encode_check hash vch
    exact ⟨s, hencode, by rw [cStr_alphabet hs, hdecode]⟩
  · obtain ⟨s,hencode,hs,hdecode⟩ := setString_toString hash b58
    exact ⟨s, hencode, by rw [cStr_alphabet hs, hdecode]⟩

/-- "2g", and two leading zeros. -/
example : encodeBase58 [0x61] = some [50,103] ∧ encodeBase58 [0,0,1] = some [49,49,50] := by
  decide +kernel

end Candypool.Wallet
