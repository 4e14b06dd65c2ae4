import Candypool.Core.BaseText
import Candypool.Lib.AsciiText

/-! Base 64. -/
namespace Candypool.Core
open Candypool.Lib

section Base64

def pbase64 : List UInt8 :=
  "ABCDEFGHIJKLMNOPQRSTUVWXYZabcdefghijklmnopqrstuvwxyz0123456789+/".toList.map fun c =>
    UInt8.ofNat c.toNat

/-- One turn of `EncodeBase64`. -/
def encode64Turn (s : Coder) (c : UInt8) : Coder :=
  let enc := c.toNat
  match s.mode with
  | 0 => -- we have no bits
    ⟨1,(enc &&& 3) <<< 4,s.ret ++ [pbase64.getD (enc >>> 2) 0]⟩
  | 1 => -- we have two bits
    ⟨2,(enc &&& 15) <<< 2,s.ret ++ [pbase64.getD (s.left ||| enc >>> 4) 0]⟩
  | 2 => -- we have four bits
    ⟨0,s.left,s.ret ++ [pbase64.getD (s.left ||| enc >>> 6) 0,pbase64.getD (enc &&& 63) 0]⟩
  | _ => s

def encodeBase64 (v : List UInt8) : List UInt8 :=
  let s := v.foldl encode64Turn Coder.start
  if s.mode ≠ 0 then
    let strRet := s.ret ++ [pbase64.getD s.left 0] ++ [61]
    if s.mode = 1 then strRet ++ [61] else strRet
  else s.ret

def decode64Table : List ℤ :=
  [-1, -1, -1, -1, -1, -1, -1, -1, -1, -1, -1, -1, -1, -1, -1, -1, -1, -1, -1, -1,
   -1, -1, -1, -1, -1, -1, -1, -1, -1, -1, -1, -1, -1, -1, -1, -1, -1, -1, -1, -1,
   -1, -1, -1, 62, -1, -1, -1, 63, 52, 53, 54, 55, 56, 57, 58, 59, 60, 61, -1, -1,
   -1, -1, -1, -1, -1, 0, 1, 2, 3, 4, 5, 6, 7, 8, 9, 10, 11, 12, 13, 14,
   15, 16, 17, 18, 19, 20, 21, 22, 23, 24, 25, -1, -1, -1, -1, -1, -1, 26, 27, 28,
   29, 30, 31, 32, 33, 34, 35, 36, 37, 38, 39, 40, 41, 42, 43, 44, 45, 46, 47, 48,
   49, 50, 51, -1, -1, -1, -1, -1, -1, -1, -1, -1, -1, -1, -1, -1, -1, -1, -1, -1,
   -1, -1, -1, -1, -1, -1, -1, -1, -1, -1, -1, -1, -1, -1, -1, -1, -1, -1, -1, -1,
   -1, -1, -1, -1, -1, -1, -1, -1, -1, -1, -1, -1, -1, -1, -1, -1, -1, -1, -1, -1,
   -1, -1, -1, -1, -1, -1, -1, -1, -1, -1, -1, -1, -1, -1, -1, -1, -1, -1, -1, -1,
   -1, -1, -1, -1, -1, -1, -1, -1, -1, -1, -1, -1, -1, -1, -1, -1, -1, -1, -1, -1,
   -1, -1, -1, -1, -1, -1, -1, -1, -1, -1, -1, -1, -1, -1, -1, -1, -1, -1, -1, -1,
   -1, -1, -1, -1, -1, -1, -1, -1, -1, -1, -1, -1, -1, -1, -1, -1]

def decode64Value (c : UInt8) : ℤ := decode64Table.getD c.toNat (-1)

/-- One turn of `DecodeBase64`. -/
def decode64Turn (s : Coder) (dec : ℕ) : Coder :=
  match s.mode with
  | 0 => -- we have no bits and get 6
    ⟨1,dec,s.ret⟩
  | 1 => -- we have 6 bits and keep 4
    ⟨2,dec &&& 15,s.ret ++ [UInt8.ofNat (s.left <<< 2 ||| dec >>> 4)]⟩
  | 2 => -- we have 4 bits and get 6, we keep 2
    ⟨3,dec &&& 3,s.ret ++ [UInt8.ofNat (s.left <<< 4 ||| dec >>> 2)]⟩
  | 3 => -- we have 2 bits and get 6
    ⟨0,s.left,s.ret ++ [UInt8.ofNat (s.left <<< 6 ||| dec)]⟩
  | _ => s

/-- The check at the end, with the pointer after the last digit. -/
def decode64Invalid (s : Coder) (p : List UInt8) : Option Bool :=
  match s.mode with
  | 0 => some false
  | 1 => some true
  | 2 => if s.left ≠ 0 then some true else badPadding decode64Value 2 p
  | 3 => if s.left ≠ 0 then some true else badPadding decode64Value 1 p
  | _ => some false

def decodeBase64 (pfInvalid : Bool) (p : List UInt8) : Option (List UInt8 × Option Bool) :=
  baseDecode decode64Value decode64Turn decode64Invalid pfInvalid p

end Base64

section Correct

theorem decode64Value_digit : ∀ d < 2^6, decode64Value (pbase64.getD d 0) = d := by
  decide +kernel

theorem digit_decode64Value : ∀ c, decode64Value c ≠ -1 →
    (decode64Value c).toNat < 2^6 ∧ pbase64.getD (decode64Value c).toNat 0 = c := by
  apply forall_byte
  decide +kernel

/-- The last digit of six bits is filled up with two bits for each padding character. -/
def base64Text : BaseText where
  bits := 6
  digit d := pbase64.getD d 0
  table := decode64Value
  fold c := c
  pads k := k/2
  bits_pos := by decide
  bits_le := by decide
  table_digit := decode64Value_digit
  digit_table := digit_decode64Value
  table_nul := by decide +kernel
  table_pad := by decide +kernel
  fold_pad := rfl
  pads_zero := rfl

theorem encode64Turn_encoding {v : List UInt8} {s : Coder} (h : base64Text.Encoding [0,2,4] v s)
    (c : UInt8) : base64Text.Encoding [0,2,4] (v ++ [c]) (encode64Turn s c) := by
  obtain ⟨es,r,acc,hrest,-,hleft,hgroups,hret⟩ := h
  have hacc := hgroups.rest_lt
  have hc := c.toNat_lt
  rcases s with ⟨mode,left,ret⟩
  match mode with
  | 0 =>
    -- no bits were left
    obtain rfl : 0 = r := Option.some_inj.mp hrest
    refine BaseText.encoding_one hgroups hret rfl rfl (by decide) ?_ fun _ => ?_
    · rw [Nat.shiftRight_eq_div_pow]
      omega
    · exact land_mask_shiftLeft rfl (by decide)
  | 1 =>
    obtain rfl : 2 = r := Option.some_inj.mp hrest
    obtain rfl : left = acc*2^4 := hleft Nat.one_ne_zero
    refine BaseText.encoding_one hgroups hret rfl rfl (by decide) ?_ fun _ => ?_
    · exact mul_lor_shiftRight hc rfl
    · exact land_mask_shiftLeft rfl (by decide)
  | 2 =>
    -- the byte ends with a digit of its own
    obtain rfl : 4 = r := Option.some_inj.mp hrest
    obtain rfl : left = acc*2^2 := hleft (Nat.succ_ne_zero _)
    refine BaseText.encoding_two hgroups hret rfl rfl (by decide) ?_ ?_ fun h => absurd rfl h
    · exact mul_lor_shiftRight hc rfl
    · exact shiftRight_land_mask (n := 6) (k := 0) rfl (by decide)
  | mode+3 => exact absurd hrest (by simp)

theorem encodeBase64_encodes (v : List UInt8) : base64Text.Encodes v (encodeBase64 v) := by
  have hloop : base64Text.Encoding [0,2,4] v (v.foldl encode64Turn Coder.start) := by
    induction v using List.reverseRecOn with
    | nil => exact BaseText.encoding_start rfl
    | append_singleton v c ih =>
      rw [List.foldl_append]
      exact encode64Turn_encoding ih c
  rw [encodeBase64]
  generalize v.foldl encode64Turn Coder.start = s at hloop ⊢
  rcases s with ⟨mode,left,ret⟩
  match mode with
  | 0 => exact hloop.full rfl
  | 1 =>
    change base64Text.Encodes v (ret ++ [pbase64.getD left 0] ++ [61] ++ [61])
    -- after one byte two padding characters are written one by one
    rw [List.append_assoc _ [61]]
    exact hloop.padded Nat.one_ne_zero rfl (by decide)
  | 2 => exact hloop.padded (Nat.succ_ne_zero _) rfl (by decide)
  | mode+3 =>
    obtain ⟨es,r,acc,hrest,-⟩ := hloop
    exact absurd hrest (by simp)

theorem decode64_decoder : base64Text.Decoder [0,6,4,2] decode64Turn decode64Invalid where
  rests_zero m := by
    match m with
    | 0 | 1 | 2 | 3 => decide
    | m+4 => simp
  rests_lt := by decide
  turn es s e he h := by
    obtain ⟨r,acc,hrest,hleft,hgroups⟩ := h
    have hacc := hgroups.rest_lt
    rcases s with ⟨mode,left,ret⟩
    match mode with
    | 0 =>
      obtain rfl : 0 = r := Option.some_inj.mp hrest
      refine BaseText.decoding_keep he hgroups rfl ?_
      change e = acc*2^6+e
      omega
    | 1 =>
      obtain rfl : 6 = r := Option.some_inj.mp hrest
      obtain rfl : left = acc := hleft Nat.one_ne_zero
      refine BaseText.decoding_one he hgroups rfl rfl ?_ fun _ => ?_
      · rw [Nat.shiftLeft_eq]
        exact mul_lor_shiftRight he rfl
      · exact land_mask_add rfl (by decide)
    | 2 =>
      obtain rfl : 4 = r := Option.some_inj.mp hrest
      obtain rfl : left = acc := hleft (Nat.succ_ne_zero _)
      refine BaseText.decoding_one he hgroups rfl rfl ?_ fun _ => ?_
      · rw [Nat.shiftLeft_eq]
        exact mul_lor_shiftRight he rfl
      · exact land_mask_add rfl (by decide)
    | 3 =>
      -- all bits of the digit go out
      obtain rfl : 2 = r := Option.some_inj.mp hrest
      obtain rfl : left = acc := hleft (Nat.succ_ne_zero _)
      refine BaseText.decoding_one he hgroups rfl rfl ?_ fun h => absurd rfl h
      rw [Nat.shiftLeft_eq]
      exact mul_lor_shiftRight (n := 0) he rfl
    | mode+4 => exact absurd hrest (by simp)
  invalid s r c p hrest hc := by
    rcases s with ⟨mode,left,ret⟩
    match mode with
    | 0 =>
      obtain rfl : 0 = r := Option.some_inj.mp hrest
      have htable : decode64Value c = -1 := hc rfl
      rw [if_pos ⟨by decide,fun h => absurd rfl h⟩]
      change some false = some (decide (decode64Value c ≠ -1))
      rw [htable]
      rfl
    | 1 =>
      obtain rfl : 6 = r := Option.some_inj.mp hrest
      rw [if_neg fun h => absurd h.1 (by decide)]
      rfl
    | 2 =>
      obtain rfl : 4 = r := Option.some_inj.mp hrest
      exact BaseText.if_left (by decide) (Nat.succ_ne_zero _)
    | 3 =>
      obtain rfl : 2 = r := Option.some_inj.mp hrest
      exact BaseText.if_left (by decide) (Nat.succ_ne_zero _)
    | mode+4 => exact absurd hrest (by simp)

theorem length_encodeBase64 (v : List UInt8) : (encodeBase64 v).length = 4*((v.length+2)/3) := by
  obtain ⟨es,k,hk,hgroups,heq⟩ := encodeBase64_encodes v
  have hlen : 6*es.length = 8*(v.map UInt8.toNat).length+k := hgroups.length
  rw [List.length_map] at hlen
  -- `k` is zero, two or four, as the bits of the bytes and of the digits agree
  have hk6 : k < 6 := hk
  rw [heq, List.length_append, List.length_map, List.length_replicate]
  change es.length+k/2 = 4*((v.length+2)/3)
  omega

end Correct

end Candypool.Core
