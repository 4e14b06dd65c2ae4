import Candypool.Script.Interpreter
import Mathlib.Data.Nat.Bitwise

/-! `IsCanonicalSignature` with each of its reads, and the signatures it accepts. An integer is
canonical when it is not negative and no shorter encoding in two's complement has its value. -/
namespace Candypool.Script
open Candypool.Core

section Integers

/-- The big-endian number that the bytes are in two's complement. -/
def signedValue (vch : Valtype) : ℤ :=
  if vch.headD 0 ≥ 0x80 then (littleEndian vch.reverse : ℤ)-256^vch.length
  else littleEndian vch.reverse

/-- No encoding of the same integer is shorter. -/
def MinimallyEncoded (vch : Valtype) : Prop :=
  ∀ w : Valtype, w ≠ [] → signedValue w = signedValue vch → vch.length ≤ w.length

structure CanonicalInteger (vch : Valtype) : Prop where
  nonempty : vch ≠ []
  nonneg : 0 ≤ signedValue vch
  minimal : MinimallyEncoded vch

theorem bigEndian_cons (b : UInt8) (vch : Valtype) : littleEndian (b :: vch).reverse =
    littleEndian vch.reverse+256^vch.length*b.toNat := by
  rw [List.reverse_cons, littleEndian_append, List.length_reverse]
  simp [littleEndian]

theorem bigEndian_lt (vch : Valtype) : littleEndian vch.reverse < 256^vch.length := by
  have h := littleEndian_lt vch.reverse
  rwa [List.length_reverse] at h

theorem signedValue_of_top {vch : Valtype} (h : vch.headD 0 < 0x80) :
    signedValue vch = littleEndian vch.reverse := by
  rw [signedValue, if_neg (UInt8.not_le.mpr h)]

/-- The top bit is the sign. -/
theorem signedValue_nonneg_iff (b : UInt8) (vch : Valtype) :
    0 ≤ signedValue (b :: vch) ↔ b < 0x80 := by
  constructor
  · intro hnonneg
    by_contra htop
    have hge : (b :: vch).headD 0 ≥ 0x80 := UInt8.not_lt.mp htop
    have hlt := bigEndian_lt (b :: vch)
    rw [signedValue, if_pos hge] at hnonneg
    have hcast : ((littleEndian (b :: vch).reverse : ℕ) : ℤ) < 256^(b :: vch).length := by
      exact_mod_cast hlt
    omega
  · intro htop
    rw [signedValue_of_top (by simpa using htop)]
    exact Int.natCast_nonneg _

/-- A non-negative integer leaves the top bit of its bytes clear. -/
theorem signedValue_lt {vch : Valtype} (hne : vch ≠ []) (h : 0 ≤ signedValue vch) :
    signedValue vch < 128*256^(vch.length-1) := by
  cases vch with
  | nil => exact absurd rfl hne
  | cons b vch =>
    have htop : b < 0x80 := (signedValue_nonneg_iff b vch).mp h
    have hb : b.toNat < 128 := htop
    have hlt := bigEndian_lt vch
    rw [signedValue_of_top (by simpa using htop), bigEndian_cons, List.length_cons,
      Nat.add_sub_cancel]
    have hbound : littleEndian vch.reverse+256^vch.length*b.toNat < 128*256^vch.length := by
      calc littleEndian vch.reverse+256^vch.length*b.toNat
          < 256^vch.length+256^vch.length*b.toNat := by omega
        _ = 256^vch.length*(b.toNat+1) := by ring
        _ ≤ 256^vch.length*128 := Nat.mul_le_mul_left _ hb
        _ = 128*256^vch.length := Nat.mul_comm _ _
    exact_mod_cast hbound

/-- A zero byte may stand first only before a byte whose top bit is set, or alone. -/
theorem canonicalInteger_iff (b : UInt8) (vch : Valtype) : CanonicalInteger (b :: vch) ↔
    b < 0x80 ∧ ¬(vch ≠ [] ∧ b = 0 ∧ vch.headD 0 < 0x80) := by
  constructor
  · intro h
    refine ⟨(signedValue_nonneg_iff b vch).mp h.nonneg, ?_⟩
    -- a leading zero before a clear top bit can be left out, so the shorter one is the same number
    rintro ⟨hne,rfl,htop⟩
    have hsame : signedValue vch = signedValue (0 :: vch) := by
      rw [signedValue_of_top htop, signedValue_of_top (by simp), bigEndian_cons]
      simp
    have hlen := h.minimal vch hne hsame
    simp at hlen
  · rintro ⟨htop,hpad⟩
    have hnonneg := (signedValue_nonneg_iff b vch).mpr htop
    refine ⟨List.cons_ne_nil _ _, hnonneg, fun w hw heq => ?_⟩
    -- a shorter encoding would be below the power that the first bytes reach
    by_contra hshort
    have hlen : w.length ≤ vch.length := by
      rw [List.length_cons] at hshort
      omega
    have hpos := List.length_pos_of_ne_nil hw
    have hupper : signedValue (b :: vch) < 128*256^(vch.length-1) := by
      have hmono : 256^(w.length-1) ≤ 256^(vch.length-1) :=
        Nat.pow_le_pow_right (by decide) (by omega)
      calc signedValue (b :: vch) = signedValue w := heq.symm
        _ < 128*256^(w.length-1) := signedValue_lt hw (heq ▸ hnonneg)
        _ ≤ 128*256^(vch.length-1) := by exact_mod_cast Nat.mul_le_mul_left 128 hmono
    rw [signedValue_of_top (by simpa using htop), bigEndian_cons] at hupper
    have hnat : littleEndian vch.reverse+256^vch.length*b.toNat < 128*256^(vch.length-1) := by
      exact_mod_cast hupper
    cases vch with
    | nil => exact absurd (hpos.trans_le hlen) (Nat.lt_irrefl 0)
    | cons c vch =>
      rw [List.length_cons, Nat.add_sub_cancel, pow_succ] at hnat
      by_cases hb : b = 0
      · -- the second byte has the top bit, so no shorter encoding is left
        have hc : 0x80 ≤ c := by
          by_contra hc
          exact hpad ⟨List.cons_ne_nil _ _, hb, UInt8.not_le.mp hc⟩
        have hc' : 128 ≤ c.toNat := hc
        rw [bigEndian_cons] at hnat
        have := Nat.mul_le_mul_left (256^vch.length) hc'
        omega
      · have hb' : 1 ≤ b.toNat := Nat.one_le_iff_ne_zero.mpr fun h => hb (UInt8.toNat_inj.mp h)
        have := Nat.mul_le_mul_left (256^vch.length*256) hb'
        omega

end Integers

/-- `30 len 02 |R| R 02 |S| S hashtype`. -/
structure SignatureGrammar (vchSig R S : Valtype) (len nLenR nLenS hashType : UInt8) : Prop where
  bytes : vchSig = [0x30, len, 0x02, nLenR] ++ (R ++ ([0x02, nLenS] ++ (S ++ [hashType])))
  lenR : nLenR.toNat = R.length
  lenS : nLenS.toNat = S.length
  len_eq : len.toNat = R.length+S.length+4
  size : 9 ≤ vchSig.length ∧ vchSig.length ≤ 73
  canonicalR : CanonicalInteger R
  canonicalS : CanonicalInteger S
  hashType : 1 ≤ hashType &&& 0x7f ∧ hashType &&& 0x7f ≤ 3

section Reads

/-- `vch[i]`, which has no value outside the vector. -/
def readByte (vch : Valtype) (i : ℕ) : Option ℕ := vch[i]?.map UInt8.toNat

/-- The checks of the number at `start`, the byte two before it first. -/
def readNumber (vchSig : Valtype) (start nLen : ℕ) : Option Bool := do
  let tag ← readByte vchSig (start-2)
  if tag ≠ 0x02 then some false
  else if nLen = 0 then some false
  else do
    let first ← readByte vchSig start
    if first &&& 0x80 ≠ 0 then some false
    else if nLen > 1 ∧ first = 0x00 then do
      let second ← readByte vchSig (start+1)
      some (second &&& 0x80 != 0)
    else some true

/-- `IsCanonicalSignature`; it has no value when a read is outside the vector. -/
def readSignature (vchSig : Valtype) : Option Bool :=
  let size := vchSig.length
  if size < 9 then some false
  else if size > 73 then some false
  else do
    let back ← readByte vchSig (size-1)
    let nHashType := back &&& 0x7f
    if nHashType < 1 ∨ nHashType > 3 then some false
    else do
      let type ← readByte vchSig 0
      if type ≠ 0x30 then some false
      else do
        let len ← readByte vchSig 1
        if len ≠ size-3 then some false
        else do
          let nLenR ← readByte vchSig 3
          if 5+nLenR ≥ size then some false
          else do
            let nLenS ← readByte vchSig (5+nLenR)
            if nLenR+nLenS+7 ≠ size then some false
            else do
              let okR ← readNumber vchSig 4 nLenR
              if !okR then some false else readNumber vchSig (6+nLenR) nLenS

theorem readByte_eq {vch : Valtype} {i : ℕ} (h : i < vch.length) :
    readByte vch i = some (byteAt vch i) := by
  rw [readByte, byteAt, List.getD_eq_getElem?_getD, List.getElem?_eq_getElem h, Option.map_some,
    Option.getD_some]

theorem readNumber_eq {vchSig : Valtype} {start nLen : ℕ} (h2 : 2 ≤ start)
    (h : start+nLen < vchSig.length) :
    readNumber vchSig start nLen = some (isCanonicalNumber vchSig start nLen) := by
  rw [readNumber, isCanonicalNumber, readByte_eq (by omega), Option.bind_eq_bind, Option.bind_some]
  -- each test guards the reads after it: the cases are its failures, in order
  by_cases htag : byteAt vchSig (start-2) = 0x02
  · rw [if_neg (not_not.mpr htag), htag]
    by_cases hzero : nLen = 0
    · simp [hzero]
    · rw [if_neg hzero, readByte_eq (by omega), Option.bind_some]
      by_cases hneg : byteAt vchSig start &&& 0x80 = 0
      · rw [if_neg (not_not.mpr hneg)]
        by_cases hpad : nLen > 1 ∧ byteAt vchSig start = 0x00
        · rw [if_pos hpad, readByte_eq (by omega), Option.bind_some]
          simp [hpad.1, hpad.2, hzero, bne]
        · rw [if_neg hpad]
          by_cases hlong : nLen > 1
          · have hfirst : ¬byteAt vchSig start = 0x00 := fun hfirst => hpad ⟨hlong, hfirst⟩
            simp [hneg, hzero, hfirst]
          · simp [hneg, hzero, hlong]
      · simp [hneg]
  · simp [htag]

/-- No read is outside the vector, and the answer is the one the interpreter works with. -/
theorem readSignature_eq (vchSig : Valtype) :
    readSignature vchSig = some (isCanonicalSignature vchSig) := by
  rw [readSignature, isCanonicalSignature]
  dsimp only
  by_cases hshort : vchSig.length < 9
  · rw [if_pos hshort, if_pos hshort]
  rw [if_neg hshort, if_neg hshort]
  by_cases hlong : vchSig.length > 73
  · rw [if_pos hlong, if_pos hlong]
  rw [if_neg hlong, if_neg hlong, readByte_eq (by omega), readByte_eq (by omega),
    readByte_eq (by omega), readByte_eq (by omega)]
  simp only [Option.bind_eq_bind, Option.bind_some]
  -- the two functions now ask the same questions up to the length of S
  generalize byteAt vchSig 3 = nLenR
  by_cases hR : 5+nLenR ≥ vchSig.length
  · simp only [if_pos hR, apply_ite some]
  rw [if_neg hR, if_neg hR, readByte_eq (by omega), Option.bind_some]
  by_cases hS : nLenR+byteAt vchSig (5+nLenR)+7 ≠ vchSig.length
  · simp only [if_pos hS, apply_ite some]
  rw [if_neg hS, if_neg hS, readNumber_eq (by omega) (by omega), readNumber_eq (by omega) (by omega),
    Option.bind_some]
  cases isCanonicalNumber vchSig 4 nLenR with
  | false => simp only [Bool.not_false, if_true, Bool.false_and, apply_ite some]
  | true =>
    simp only [Bool.not_true, Bool.false_eq_true, if_false, Bool.true_and, apply_ite some]

end Reads

section Grammar

theorem byteAt_append (xs ys : Valtype) (i : ℕ) : byteAt (xs ++ ys) (xs.length+i) = byteAt ys i := by
  rw [byteAt, byteAt, List.getD_eq_getElem?_getD, List.getD_eq_getElem?_getD,
    List.getElem?_append_right (Nat.le_add_right _ _), Nat.add_sub_cancel_left]

theorem byteAt_append_left {xs : Valtype} (ys : Valtype) {i : ℕ} (h : i < xs.length) :
    byteAt (xs ++ ys) i = byteAt xs i := by
  simp only [byteAt, List.getD_eq_getElem?_getD, List.getElem?_append_left h]

theorem and_topBit (b : UInt8) : b.toNat &&& 0x80 = 0 ↔ b < 0x80 := by
  have hlt := b.toNat_lt
  have hbit := Nat.and_two_pow b.toNat 7
  rw [Nat.testBit_eq_decide_div_mod_eq] at hbit
  change b.toNat &&& 2^7 = 0 ↔ b.toNat < 128
  rw [hbit]
  by_cases htop : b.toNat < 128
  · have hclear : b.toNat/2^7 % 2 = 0 := by omega
    simp only [hclear, htop]
    decide
  · have hset : b.toNat/2^7 % 2 = 1 := by omega
    simp only [hset, htop]
    decide

/-- The checks of a number that stands between other bytes. -/
theorem isCanonicalNumber_iff (before : Valtype) (h2 : 2 ≤ before.length) (vch after : Valtype) :
    isCanonicalNumber (before ++ (vch ++ after)) before.length vch.length = true ↔
      byteAt before (before.length-2) = 0x02 ∧ CanonicalInteger vch := by
  rw [isCanonicalNumber, byteAt_append_left _ (by omega)]
  cases vch with
  | nil => exact iff_of_false (by simp) fun h => h.2.nonempty rfl
  | cons b vch =>
    have hfirst : byteAt (before ++ (b :: vch ++ after)) before.length = b.toNat := by
      have := byteAt_append before (b :: vch ++ after) 0
      exact this
    have hsecond : vch ≠ [] →
        byteAt (before ++ (b :: vch ++ after)) (before.length+1) = (vch.headD 0).toNat := by
      intro hne
      rw [byteAt_append]
      cases vch with
      | nil => exact absurd rfl hne
      | cons c vch => simp [byteAt]
    -- the padding test reads the second byte only when there is one
    have hpad : (decide ((b :: vch).length > 1) && b.toNat == 0 &&
        byteAt (before ++ (b :: vch ++ after)) (before.length+1) &&& 0x80 == 0) = true ↔
          vch ≠ [] ∧ b = 0 ∧ vch.headD 0 < 0x80 := by
      simp only [Bool.and_eq_true, decide_eq_true_eq, beq_iff_eq, List.length_cons]
      rw [← List.length_pos_iff, and_assoc]
      constructor
      · rintro ⟨hlen,hzero,hclear⟩
        have hpos : 0 < vch.length := by omega
        rw [hsecond (List.length_pos_iff.mp hpos), and_topBit] at hclear
        exact ⟨hpos, UInt8.toNat_inj.mp hzero, hclear⟩
      · rintro ⟨hpos,rfl,hclear⟩
        rw [hsecond (List.length_pos_iff.mp hpos), and_topBit]
        exact ⟨by omega, rfl, hclear⟩
    rw [hfirst, canonicalInteger_iff]
    simp only [Bool.and_eq_true, Bool.not_eq_true', beq_iff_eq, and_topBit, and_assoc,
      ← Bool.not_eq_true, ← hpad]
    simp

variable {R S : Valtype} {len nLenR nLenS hashType type tagR tagS : UInt8}

/-- The checks of a vector that is cut at its two lengths. -/
theorem isCanonicalSignature_cut (hR : nLenR.toNat = R.length) (hS : nLenS.toNat = S.length) :
    isCanonicalSignature ([type, len, tagR, nLenR] ++ (R ++ ([tagS, nLenS] ++ (S ++ [hashType])))) =
      true ↔ (9 ≤ R.length+S.length+7 ∧ R.length+S.length+7 ≤ 73) ∧
        (1 ≤ hashType &&& 0x7f ∧ hashType &&& 0x7f ≤ 3) ∧ type = 0x30 ∧
          len.toNat = R.length+S.length+4 ∧ (tagR = 0x02 ∧ CanonicalInteger R) ∧
            (tagS = 0x02 ∧ CanonicalInteger S) := by
  generalize hv : [type, len, tagR, nLenR] ++ (R ++ ([tagS, nLenS] ++ (S ++ [hashType]))) = vchSig
  have hsize : vchSig.length = R.length+S.length+7 := by
    rw [← hv]
    simp only [List.length_append, List.length_cons, List.length_nil]
    omega
  have hbyte (b b' : UInt8) : b.toNat = b'.toNat ↔ b = b' := UInt8.toNat_inj
  -- the bytes that the checks look at
  have htype : byteAt vchSig 0 = type.toNat := by rw [← hv]; rfl
  have hlen : byteAt vchSig 1 = len.toNat := by rw [← hv]; rfl
  have hlenR : byteAt vchSig 3 = R.length := by rw [← hv, ← hR]; rfl
  have hlenS : byteAt vchSig (5+R.length) = S.length := by
    have h := byteAt_append ([type, len, tagR, nLenR] ++ (R ++ [tagS])) (nLenS :: (S ++ [hashType])) 0
    simp only [List.append_assoc, List.length_append, List.length_cons, List.length_nil] at h
    rw [← hv, ← hS, show 5+R.length = 0+1+1+1+1+(R.length+(0+1))+0 by omega]
    exact h
  have hback : byteAt vchSig (vchSig.length-1) = hashType.toNat := by
    have h := byteAt_append ([type, len, tagR, nLenR] ++ (R ++ ([tagS, nLenS] ++ S))) [hashType] 0
    simp only [List.append_assoc, List.length_append, List.length_cons, List.length_nil] at h
    rw [hsize, ← hv, show R.length+S.length+7-1 = 0+1+1+1+1+(R.length+(0+1+1+S.length))+0 by omega]
    exact h
  have hnumR : isCanonicalNumber vchSig 4 R.length = true ↔ tagR = 0x02 ∧ CanonicalInteger R := by
    rw [← hv, ← hbyte tagR 0x02]
    exact isCanonicalNumber_iff [type, len, tagR, nLenR] (by simp) R _
  have hnumS : isCanonicalNumber vchSig (6+R.length) S.length = true ↔
      tagS = 0x02 ∧ CanonicalInteger S := by
    have h := isCanonicalNumber_iff ([type, len, tagR, nLenR] ++ (R ++ [tagS, nLenS]))
      (by simp) S [hashType]
    have htag := byteAt_append ([type, len, tagR, nLenR] ++ R) [tagS, nLenS] 0
    simp only [List.append_assoc, List.length_append, List.length_cons, List.length_nil] at h htag
    rw [show 0+1+1+1+1+(R.length+(0+1+1))-2 = 0+1+1+1+1+R.length+0 by omega, htag,
      show 0+1+1+1+1+(R.length+(0+1+1)) = 6+R.length by omega] at h
    rw [← hv, ← hbyte tagS 0x02]
    exact h
  have hhash : ¬(hashType.toNat &&& 0x7f < 1 ∨ hashType.toNat &&& 0x7f > 3) ↔
      1 ≤ hashType &&& 0x7f ∧ hashType &&& 0x7f ≤ 3 := by
    rw [UInt8.le_iff_toNat_le, UInt8.le_iff_toNat_le, UInt8.toNat_and, not_or, not_lt, not_lt]
    rfl
  rw [isCanonicalSignature]
  simp only [hback, hlenR, hlenS, htype, hlen]
  rw [hsize, ← hhash, ← hbyte type 0x30, ← hnumR, ← hnumS]
  constructor
  · intro h
    split_ifs at h with h9 h73 hash h30 hl h5
    rw [Bool.and_eq_true] at h
    exact ⟨by omega, hash, not_not.mp h30, by omega, h.1, h.2⟩
  · rintro ⟨⟨h9,h73⟩,hash,h30,hl,hr,hs⟩
    have htype' : ¬type.toNat ≠ 0x30 := not_not.mpr h30
    rw [if_neg (by omega), if_neg (by omega), if_neg hash, if_neg htype',
      if_neg (by omega), if_neg (by omega), if_neg (by omega), hr, hs]
    rfl

/-- A vector whose lengths add up is cut at them. -/
theorem cut_of_lengths {vchSig : Valtype}
    (hsize : byteAt vchSig 3+byteAt vchSig (5+byteAt vchSig 3)+7 = vchSig.length) :
    ∃ (R S : Valtype) (type len tagR nLenR tagS nLenS hashType : UInt8),
      vchSig = [type, len, tagR, nLenR] ++ (R ++ ([tagS, nLenS] ++ (S ++ [hashType]))) ∧
        nLenR.toNat = R.length ∧ nLenS.toNat = S.length := by
  -- the sum of the two lengths leaves room for the first four bytes
  rcases vchSig with _ | ⟨type, _ | ⟨len, _ | ⟨tagR, _ | ⟨nLenR, rest⟩⟩⟩⟩
  · simp at hsize
  · simp at hsize
  · simp at hsize
  · simp at hsize
  have hlenR : byteAt (type :: len :: tagR :: nLenR :: rest) 3 = nLenR.toNat := rfl
  rw [hlenR] at hsize
  -- and for R, the next two bytes, S and the byte of the hash type
  have hlong : nLenR.toNat ≤ rest.length := by
    simp only [List.length_cons] at hsize
    omega
  obtain ⟨R,tail,rfl,hR⟩ : ∃ R tail, rest = R ++ tail ∧ nLenR.toNat = R.length :=
    ⟨rest.take nLenR.toNat, rest.drop nLenR.toNat, (List.take_append_drop _ _).symm, by
      rw [List.length_take, min_eq_left hlong]⟩
  rcases tail with _ | ⟨tagS, _ | ⟨nLenS, tail⟩⟩
  · simp only [List.length_cons, List.length_append, List.length_nil] at hsize
    omega
  · simp only [List.length_cons, List.length_append, List.length_nil] at hsize
    omega
  have hlenS : byteAt (type :: len :: tagR :: nLenR :: (R ++ tagS :: nLenS :: tail)) (5+R.length) =
      nLenS.toNat := by
    have h := byteAt_append (type :: len :: tagR :: nLenR :: R) (tagS :: nLenS :: tail) 1
    rw [show (type :: len :: tagR :: nLenR :: R).length+1 = 5+R.length by
      simp only [List.length_cons]; omega] at h
    exact h
  rw [hR, hlenS] at hsize
  have htail : tail.length = nLenS.toNat+1 := by
    simp only [List.length_cons, List.length_append] at hsize
    omega
  have hne : tail ≠ [] := List.ne_nil_of_length_eq_add_one htail
  refine ⟨R, tail.dropLast, type, len, tagR, nLenR, tagS, nLenS, tail.getLast hne, ?_, hR, ?_⟩
  · rw [List.dropLast_append_getLast]
    rfl
  · rw [List.length_dropLast, htail, Nat.add_sub_cancel]

end Grammar

/-- `IsCanonicalSignature` reads no byte outside the vector, and accepts the vectors of the grammar. -/
theorem isCanonicalSignature_iff (vchSig : Valtype) :
    readSignature vchSig = some (isCanonicalSignature vchSig) ∧
      (isCanonicalSignature vchSig = true ↔ ∃ (R S : Valtype) (len nLenR nLenS hashType : UInt8),
        SignatureGrammar vchSig R S len nLenR nLenS hashType) := by
  refine ⟨readSignature_eq vchSig, ?_, ?_⟩
  · intro h
    -- an accepted signature has passed the length check, so it can be cut by its lengths
    have hsize : byteAt vchSig 3+byteAt vchSig (5+byteAt vchSig 3)+7 = vchSig.length := by
      rw [isCanonicalSignature] at h
      by_contra hne
      simp only [if_pos hne, ite_self, Bool.false_eq_true] at h
    obtain ⟨R,S,type,len,tagR,nLenR,tagS,nLenS,hashType,rfl,hR,hS⟩ := cut_of_lengths hsize
    obtain ⟨hbounds,hhash,rfl,hlen,⟨rfl,hcanR⟩,rfl,hcanS⟩ := (isCanonicalSignature_cut hR hS).mp h
    refine ⟨R, S, len, nLenR, nLenS, hashType, rfl, hR, hS, hlen, ?_, hcanR, hcanS, hhash⟩
    simp only [List.length_append, List.length_cons, List.length_nil]
    omega
  · rintro ⟨R,S,len,nLenR,nLenS,hashType,h⟩
    have hbounds := h.size
    rw [h.bytes] at hbounds ⊢
    simp only [List.length_append, List.length_cons, List.length_nil] at hbounds
    exact (isCanonicalSignature_cut h.lenR h.lenS).mpr ⟨by omega, h.hashType, rfl, h.len_eq,
      ⟨rfl, h.canonicalR⟩, rfl, h.canonicalS⟩

end Candypool.Script
