import Candypool.Core.Base64

/-! Base 32, and the round trip of both codes. -/
namespace Candypool.Core
open Candypool.Lib

section Base32

def pbase32 : List UInt8 :=
  "abcdefghijklmnopqrstuvwxyz234567".toList.map fun c => UInt8.ofNat c.toNat

/-- One turn of `EncodeBase32`. -/
def encode32Turn (s : Coder) (c : UInt8) : Coder :=
  let enc := c.toNat
  match s.mode with
  | 0 => -- we have no bits
    ⟨1,(enc &&& 7) <<< 2,s.ret ++ [pbase32.getD (enc >>> 3) 0]⟩
  | 1 => -- we have three bits
    ⟨2,(enc &&& 1) <<< 4,
      s.ret ++ [pbase32.getD (s.left ||| enc >>> 6) 0,pbase32.getD ((enc >>> 1) &&& 31) 0]⟩
  | 2 => -- we have one bit
    ⟨3,(enc &&& 15) <<< 1,s.ret ++ [pbase32.getD (s.left ||| enc >>> 4) 0]⟩
  | 3 => -- we have four bits
    ⟨4,(enc &&& 3) <<< 3,
      s.ret ++ [pbase32.getD (s.left ||| enc >>> 7) 0,pbase32.getD ((enc >>> 2) &&& 31) 0]⟩
  | 4 => -- we have two bits
    ⟨0,s.left,s.ret ++ [pbase32.getD (s.left ||| enc >>> 5) 0,pbase32.getD (enc &&& 31) 0]⟩
  | _ => s

def nPadding : List ℕ := [0,6,4,3,1]

def encodeBase32 (v : List UInt8) : List UInt8 :=
  let s := v.foldl encode32Turn Coder.start
  if s.mode ≠ 0 then s.ret ++ [pbase32.getD s.left 0] ++ List.replicate (nPadding.getD s.mode 0) 61
  else s.ret

def decode32Table : List ℤ :=
  [-1, -1, -1, -1, -1, -1, -1, -1, -1, -1, -1, -1, -1, -1, -1, -1, -1, -1, -1, -1,
   -1, -1, -1, -1, -1, -1, -1, -1, -1, -1, -1, -1, -1, -1, -1, -1, -1, -1, -1, -1,
   -1, -1, -1, -1, -1, -1, -1, -1, -1, -1, 26, 27, 28, 29, 30, 31, -1, -1, -1, -1,
   -1, -1, -1, -1, -1, 0, 1, 2, 3, 4, 5, 6, 7, 8, 9, 10, 11, 12, 13, 14,
   15, 16, 17, 18, 19, 20, 21, 22, 23, 24, 25, -1, -1, -1, -1, -1, -1, 0, 1, 2,
   3, 4, 5, 6, 7, 8, 9, 10, 11, 12, 13, 14, 15, 16, 17, 18, 19, 20, 21, 22,
   23, 24, 25, -1, -1, -1, -1, -1, -1, -1, -1, -1, -1, -1, -1, -1, -1, -1, -1, -1,
   -1, -1, -1, -1, -1, -1, -1, -1, -1, -1, -1, -1, -1, -1, -1, -1, -1, -1, -1, -1,
   -1, -1, -1, -1, -1, -1, -1, -1, -1, -1, -1, -1, -1, -1, -1, -1, -1, -1, -1, -1,
   -1, -1, -1, -1, -1, -1, -1, -1, -1, -1, -1, -1, -1, -1, -1, -1, -1, -1, -1, -1,
   -1, -1, -1, -1, -1, -1, -1, -1, -1, -1, -1, -1, -1, -1, -1, -1, -1, -1, -1, -1,
   -1, -1, -1, -1, -1, -1, -1, -1, -1, -1, -1, -1, -1, -1, -1, -1, -1, -1, -1, -1,
   -1, -1, -1, -1, -1, -1, -1, -1, -1, -1, -1, -1, -1, -1, -1, -1]

def decode32Value (c : UInt8) : ℤ := decode32Table.getD c.toNat (-1)

/-- One turn of `DecodeBase32`. -/
def decode32Turn (s : Coder) (dec : ℕ) : Coder :=
  match s.mode with
  | 0 => -- we have no bits and get 5
    ⟨1,dec,s.ret⟩
  | 1 => -- we have 5 bits and keep 2
    ⟨2,dec &&& 3,s.ret ++ [UInt8.ofNat (s.left <<< 3 ||| dec >>> 2)]⟩
  | 2 => -- we have 2 bits and keep 7
    ⟨3,s.left <<< 5 ||| dec,s.ret⟩
  | 3 => -- we have 7 bits and keep 4
    ⟨4,dec &&& 15,s.ret ++ [UInt8.ofNat (s.left <<< 1 ||| dec >>> 4)]⟩
  | 4 => -- we have 4 bits, and keep 1
    ⟨5,dec &&& 1,s.ret ++ [UInt8.ofNat (s.left <<< 4 ||| dec >>> 1)]⟩
  | 5 => -- we have 1 bit, and keep 6
    ⟨6,s.left <<< 5 ||| dec,s.ret⟩
  | 6 => -- we have 6 bits, and keep 3
    ⟨7,dec &&& 7,s.ret ++ [UInt8.ofNat (s.left <<< 2 ||| dec >>> 3)]⟩
  | 7 => -- we have 3 bits, and keep 0
    ⟨0,s.left,s.ret ++ [UInt8.ofNat (s.left <<< 5 ||| dec)]⟩
  | _ => s

/-- The check at the end, with the pointer after the last digit. -/
def decode32Invalid (s : Coder) (p : List UInt8) : Option Bool :=
  match s.mode with
  | 0 => some false
  | 1 | 3 | 6 => some true
  | 2 => if s.left ≠ 0 then some true else badPadding decode32Value 6 p
  | 4 => if s.left ≠ 0 then some true else badPadding decode32Value 4 p
  | 5 => if s.left ≠ 0 then some true else badPadding decode32Value 3 p
  | 7 => if s.left ≠ 0 then some true else badPadding decode32Value 1 p
  | _ => some false

def decodeBase32 (pfInvalid : Bool) (p : List UInt8) : Option (List UInt8 × Option Bool) :=
  baseDecode decode32Value decode32Turn decode32Invalid pfInvalid p

end Base32

section Correct

theorem decode32Value_digit : ∀ d < 2^5, decode32Value (pbase32.getD d 0) = d := by
  decide +kernel

theorem digit_decode32Value : ∀ c, decode32Value c ≠ -1 →
    (decode32Value c).toNat < 2^5 ∧ pbase32.getD (decode32Value c).toNat 0 = tolower c := by
  apply forall_byte
  decide +kernel

def base32Text : BaseText where
  bits := 5
  digit d := pbase32.getD d 0
  table := decode32Value
  fold := tolower
  pads k := [0,3,6,1,4].getD k 0
  bits_pos := by decide
  bits_le := by decide
  table_digit := decode32Value_digit
  digit_table := digit_decode32Value
  table_nul := by decide +kernel
  table_pad := by decide +kernel
  fold_pad := by decide
  pads_zero := rfl

theorem encode32Turn_encoding {v : List UInt8} {s : Coder} (h : base32Text.Encoding [0,3,1,4,2] v s)
    (c : UInt8) : base32Text.Encoding [0,3,1,4,2] (v ++ [c]) (encode32Turn s c) := by
  obtain ⟨es,r,acc,hrest,-,hleft,hgroups,hret⟩ := h
  have hacc := hgroups.rest_lt
  have hc := c.toNat_lt
  rcases s with ⟨mode,left,ret⟩
  match mode with
  | 0 =>
    -- no bits were left
    obtain rfl : 0 = r := Option.some_inj.mp hrest
    refine BaseText.encoding_one hgroups hret rfl rfl (by decide) ?_ fun _ => ?_
    · rw [Nat.shiftRight_eq_div_pow]
      omega
    · exact land_mask_shiftLeft rfl (by decide)
  | 1 =>
    -- the byte has a whole digit in its middle
    obtain rfl : 3 = r := Option.some_inj.mp hrest
    obtain rfl : left = acc*2^2 := hleft (Nat.succ_ne_zero _)
    refine BaseText.encoding_two hgroups hret rfl rfl (by decide) ?_ ?_ fun _ => ?_
    · exact mul_lor_shiftRight hc rfl
    · exact shiftRight_land_mask (n := 5) (k := 1) rfl (by decide)
    · exact land_mask_shiftLeft rfl (by decide)
  | 2 =>
    obtain rfl : 1 = r := Option.some_inj.mp hrest
    obtain rfl : left = acc*2^4 := hleft (Nat.succ_ne_zero _)
    refine BaseText.encoding_one hgroups hret rfl rfl (by decide) ?_ fun _ => ?_
    · exact mul_lor_shiftRight hc rfl
    · exact land_mask_shiftLeft rfl (by decide)
  | 3 =>
    obtain rfl : 4 = r := Option.some_inj.mp hrest
    obtain rfl : left = acc*2^1 := hleft (Nat.succ_ne_zero _)
    refine BaseText.encoding_two hgroups hret rfl rfl (by decide) ?_ ?_ fun _ => ?_
    · exact mul_lor_shiftRight hc rfl
    · exact shiftRight_land_mask (n := 5) (k := 2) rfl (by decide)
    · exact land_mask_shiftLeft rfl (by decide)
  | 4 =>
    -- the byte ends with a digit of its own
    obtain rfl : 2 = r := Option.some_inj.mp hrest
    obtain rfl : left = acc*2^3 := hleft (Nat.succ_ne_zero _)
    refine BaseText.encoding_two hgroups hret rfl rfl (by decide) ?_ ?_ fun h => absurd rfl h
    · exact mul_lor_shiftRight hc rfl
    · exact shiftRight_land_mask (n := 5) (k := 0) rfl (by decide)
  | mode+5 => exact absurd hrest (by simp)

theorem encodeBase32_encodes (v : List UInt8) : base32Text.Encodes v (encodeBase32 v) := by
  have hloop : base32Text.Encoding [0,3,1,4,2] v (v.foldl encode32Turn Coder.start) := by
    induction v using List.reverseRecOn with
    | nil => exact BaseText.encoding_start rfl
    | append_singleton v c ih =>
      rw [List.foldl_append]
      exact encode32Turn_encoding ih c
  rw [encodeBase32]
  generalize v.foldl encode32Turn Coder.start = s at hloop ⊢
  rcases s with ⟨mode,left,ret⟩
  match mode with
  | 0 => exact hloop.full rfl
  -- the padding table, and the padding of the bits that the last digit is filled up with
  | 1 => exact hloop.padded (Nat.succ_ne_zero _) rfl (by decide)
  | 2 => exact hloop.padded (Nat.succ_ne_zero _) rfl (by decide)
  | 3 => exact hloop.padded (Nat.succ_ne_zero _) rfl (by decide)
  | 4 => exact hloop.padded (Nat.succ_ne_zero _) rfl (by decide)
  | mode+5 =>
    obtain ⟨es,r,acc,hrest,-⟩ := hloop
    exact absurd hrest (by simp)

theorem decode32_decoder :
    base32Text.Decoder [0,5,2,7,4,1,6,3] decode32Turn decode32Invalid where
  rests_zero m := by
    match m with
    | 0 | 1 | 2 | 3 | 4 | 5 | 6 | 7 => decide
    | m+8 => simp
  rests_lt := by decide
  turn es s e he h := by
    obtain ⟨r,acc,hrest,hleft,hgroups⟩ := h
    have hacc := hgroups.rest_lt
    rcases s with ⟨mode,left,ret⟩
    match mode with
    | 0 =>
      obtain rfl : 0 = r := Option.some_inj.mp hrest
      refine BaseText.decoding_keep he hgroups rfl ?_
      change e = acc*2^5+e
      omega
    | 1 =>
      obtain rfl : 5 = r := Option.some_inj.mp hrest
      obtain rfl : left = acc := hleft (Nat.succ_ne_zero _)
      refine BaseText.decoding_one he hgroups rfl rfl ?_ fun _ => ?_
      · rw [Nat.shiftLeft_eq]
        exact mul_lor_shiftRight he rfl
      · exact land_mask_add rfl (by decide)
    | 2 =>
      -- two bits and a digit make no byte
      obtain rfl : 2 = r := Option.some_inj.mp hrest
      obtain rfl : left = acc := hleft (Nat.succ_ne_zero _)
      refine BaseText.decoding_keep he hgroups rfl ?_
      rw [Nat.shiftLeft_eq]
      exact mul_two_pow_lor he
    | 3 =>
      obtain rfl : 7 = r := Option.some_inj.mp hrest
      obtain rfl : left = acc := hleft (Nat.succ_ne_zero _)
      refine BaseText.decoding_one he hgroups rfl rfl ?_ fun _ => ?_
      · rw [Nat.shiftLeft_eq]
        exact mul_lor_shiftRight he rfl
      · exact land_mask_add rfl (by decide)
    | 4 =>
      obtain rfl : 4 = r := Option.some_inj.mp hrest
      obtain rfl : left = acc := hleft (Nat.succ_ne_zero _)
      refine BaseText.decoding_one he hgroups rfl rfl ?_ fun _ => ?_
      · rw [Nat.shiftLeft_eq]
        exact mul_lor_shiftRight he rfl
      · exact land_mask_add rfl (by decide)
    | 5 =>
      obtain rfl : 1 = r := Option.some_inj.mp hrest
      obtain rfl : left = acc := hleft (Nat.succ_ne_zero _)
      refine BaseText.decoding_keep he hgroups rfl ?_
      rw [Nat.shiftLeft_eq]
      exact mul_two_pow_lor he
    | 6 =>
      obtain rfl : 6 = r := Option.some_inj.mp hrest
      obtain rfl : left = acc := hleft (Nat.succ_ne_zero _)
      refine BaseText.decoding_one he hgroups rfl rfl ?_ fun _ => ?_
      · rw [Nat.shiftLeft_eq]
        exact mul_lor_shiftRight he rfl
      · exact land_mask_add rfl (by decide)
    | 7 =>
      -- all bits of the digit go out
      obtain rfl : 3 = r := Option.some_inj.mp hrest
      obtain rfl : left = acc := hleft (Nat.succ_ne_zero _)
      refine BaseText.decoding_one he hgroups rfl rfl ?_ fun h => absurd rfl h
      rw [Nat.shiftLeft_eq]
      exact mul_lor_shiftRight (n := 0) he rfl
    | mode+8 => exact absurd hrest (by simp)
  invalid s r c p hrest hc := by
    rcases s with ⟨mode,left,ret⟩
    match mode with
    | 0 =>
      obtain rfl : 0 = r := Option.some_inj.mp hrest
      have htable : decode32Value c = -1 := hc rfl
      rw [if_pos ⟨by decide,fun h => absurd rfl h⟩]
      change some false = some (decide (decode32Value c ≠ -1))
      rw [htable]
      rfl
    | 1 =>
      obtain rfl : 5 = r := Option.some_inj.mp hrest
      rw [if_neg fun h => absurd h.1 (by decide)]
      rfl
    | 2 =>
      obtain rfl : 2 = r := Option.some_inj.mp hrest
      exact BaseText.if_left (by decide) (Nat.succ_ne_zero _)
    | 3 =>
      obtain rfl : 7 = r := Option.some_inj.mp hrest
      rw [if_neg fun h => absurd h.1 (by decide)]
      rfl
    | 4 =>
      obtain rfl : 4 = r := Option.some_inj.mp hrest
      exact BaseText.if_left (by decide) (Nat.succ_ne_zero _)
    | 5 =>
      obtain rfl : 1 = r := Option.some_inj.mp hrest
      exact BaseText.if_left (by decide) (Nat.succ_ne_zero _)
    | 6 =>
      obtain rfl : 6 = r := Option.some_inj.mp hrest
      rw [if_neg fun h => absurd h.1 (by decide)]
      rfl
    | 7 =>
      obtain rfl : 3 = r := Option.some_inj.mp hrest
      exact BaseText.if_left (by decide) (Nat.succ_ne_zero _)
    | mode+8 => exact absurd hrest (by simp)

theorem length_encodeBase32 (v : List UInt8) : (encodeBase32 v).length = 8*((v.length+4)/5) := by
  obtain ⟨es,k,hk,hgroups,heq⟩ := encodeBase32_encodes v
  have hlen : 5*es.length = 8*(v.map UInt8.toNat).length+k := hgroups.length
  rw [List.length_map] at hlen
  have hpads : (base32Text.pads k,k) ∈ [(0,0),(3,1),(6,2),(1,3),(4,4)] := by
    have hk5 : k < 5 := hk
    interval_cases k <;> decide
  -- digits and padding make up groups of eight characters
  rw [heq, List.length_append, List.length_map, List.length_replicate]
  simp only [List.mem_cons, Prod.mk.injEq, List.not_mem_nil, or_false] at hpads
  omega

/-- Both codes round-trip, and their decoders read a string with its terminator and nothing after it. -/
theorem base64_base32_round_trip :
    (∀ v, decodeBase64 true (encodeBase64 v ++ [0]) = some (v,some false) ∧
      (encodeBase64 v).length = 4*((v.length+2)/3)) ∧
    (∀ v, decodeBase32 true (encodeBase32 v ++ [0]) = some (v,some false) ∧
      (encodeBase32 v).length = 8*((v.length+4)/5)) ∧
    (∀ (s : List UInt8) (pfInvalid : Bool),
      ∃ v f, decodeBase64 pfInvalid (s ++ [0]) = some (v,f) ∧
        (f = some false → encodeBase64 v <+: s)) ∧
    ∀ (s : List UInt8) (pfInvalid : Bool),
      ∃ v f, decodeBase32 pfInvalid (s ++ [0]) = some (v,f) ∧
        (f = some false → encodeBase32 v <+: s.map tolower) := by
  refine ⟨fun v => ⟨?_,length_encodeBase64 v⟩,fun v => ⟨?_,length_encodeBase32 v⟩,?_,?_⟩
  · exact decode64_decoder.decode_text (encodeBase64_encodes v)
  · exact decode32_decoder.decode_text (encodeBase32_encodes v)
  · intro s pfInvalid
    obtain ⟨v,f,hrun,hvalid⟩ := decode64_decoder.decode pfInvalid s
    refine ⟨v,f,hrun,fun hf => ?_⟩
    -- the text that the string begins with is the one the encoder writes
    obtain ⟨text,htext,hbegins⟩ := hvalid hf
    rw [htext.unique (encodeBase64_encodes v)] at hbegins
    exact hbegins.trans (by rw [show s.map base64Text.fold = s from List.map_id s])
  · intro s pfInvalid
    obtain ⟨v,f,hrun,hvalid⟩ := decode32_decoder.decode pfInvalid s
    refine ⟨v,f,hrun,fun hf => ?_⟩
    obtain ⟨text,htext,hbegins⟩ := hvalid hf
    rw [htext.unique (encodeBase32_encodes v)] at hbegins
    exact hbegins

end Correct

end Candypool.Core
