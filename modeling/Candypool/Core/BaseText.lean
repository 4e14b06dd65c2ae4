import Candypool.Lib.Regroup

/-! What the two base codes share: coders that take their input turn by turn, and the round trip of texts
made of digits and padding. -/
namespace Candypool.Core
open Candypool.Lib

section Coders

/-- The variables of a coder, with the bytes it has put out. -/
structure Coder where
  mode : ℕ
  left : ℕ
  ret : List UInt8

def Coder.start : Coder := ⟨0,0,[]⟩

/-- The reading loop of a decoder, with the pointer where it breaks; none once the memory ends. -/
def decodeLoop (table : UInt8 → ℤ) (turn : Coder → ℕ → Coder) (s : Coder) :
    List UInt8 → Option (Coder × List UInt8)
  | [] => none
  | c :: p =>
    if table c = -1 then some (s,c :: p)
    else decodeLoop table turn (turn s (table c).toNat) p

/-- `p[0] != '=' || … || p[n-1] != '=' || table[p[n]] != -1`, read no further than its value asks for. -/
def badPadding (table : UInt8 → ℤ) : ℕ → List UInt8 → Option Bool
  | _, [] => none
  | 0, c :: _ => some (decide (table c ≠ -1))
  | n+1, c :: p => if c ≠ 61 then some true else badPadding table n p

/-- A decoder: the bytes, and what it writes to `*pfInvalid` if there is one. -/
def baseDecode (table : UInt8 → ℤ) (turn : Coder → ℕ → Coder)
    (invalid : Coder → List UInt8 → Option Bool) (pfInvalid : Bool) (p : List UInt8) :
    Option (List UInt8 × Option Bool) := do
  let (s,p) ← decodeLoop table turn Coder.start p
  if pfInvalid then do
    let fInvalid ← invalid s p
    return (s.ret,some fInvalid)
  else return (s.ret,none)

end Coders

section Memory
variable (table : UInt8 → ℤ)

/-- The look-ahead ends at the terminator at the latest: that is no padding. -/
theorem badPadding_spec (n : ℕ) (q : List UInt8) :
    ∃ f, badPadding table n (q ++ [0]) = some f ∧ (f = false → List.replicate n 61 <+: q) := by
  induction n generalizing q with
  | zero =>
    cases q with
    | nil => exact ⟨_,rfl,fun _ => List.nil_prefix⟩
    | cons c q => exact ⟨_,rfl,fun _ => List.nil_prefix⟩
  | succ n ih =>
    cases q with
    | nil =>
      refine ⟨true,?_,fun hf => absurd hf (by decide)⟩
      rw [List.nil_append, badPadding, if_pos (by decide)]
    | cons c q =>
      rw [List.cons_append, badPadding]
      split_ifs with hc
      · exact ⟨true,rfl,fun hf => absurd hf (by decide)⟩
      · obtain ⟨f,hrun,hpads⟩ := ih q
        refine ⟨f,hrun,fun hf => ?_⟩
        rw [not_not.mp hc, List.replicate_succ, List.cons_prefix_cons]
        exact ⟨rfl,hpads hf⟩

theorem badPadding_replicate (hnul : table 0 = -1) (n : ℕ) :
    badPadding table n (List.replicate n 61 ++ [0]) = some false := by
  induction n with
  | zero =>
    change some (decide (table 0 ≠ -1)) = some false
    rw [hnul]
    rfl
  | succ n ih =>
    rw [List.replicate_succ, List.cons_append, badPadding, if_neg (by decide)]
    exact ih

end Memory

/-- A base code: its digits and their values, the letters it takes for one another, and how many padding
characters follow a last digit with so many bits too many. -/
structure BaseText where
  bits : ℕ
  digit : ℕ → UInt8
  table : UInt8 → ℤ
  fold : UInt8 → UInt8
  pads : ℕ → ℕ
  bits_pos : 0 < bits
  bits_le : bits ≤ 8
  table_digit : ∀ d < 2^bits, table (digit d) = d
  digit_table : ∀ c, table c ≠ -1 → (table c).toNat < 2^bits ∧ digit (table c).toNat = fold c
  table_nul : table 0 = -1
  table_pad : table 61 = -1
  fold_pad : fold 61 = 61
  pads_zero : pads 0 = 0

namespace BaseText
variable (T : BaseText)

/-- The texts of a byte string. -/
def Encodes (v : List UInt8) (s : List UInt8) : Prop :=
  ∃ es k, k < T.bits ∧ Regroup T.bits 8 es (v.map UInt8.toNat) k 0 ∧
    s = es.map T.digit ++ List.replicate (T.pads k) 61

/-- An encoder between two bytes; in each mode it holds a fixed number of bits back, in the upper places
of the next digit. -/
def Encoding (rests : List ℕ) (v : List UInt8) (s : Coder) : Prop :=
  ∃ es r acc, rests[s.mode]? = some r ∧ r ≤ T.bits ∧ (s.mode ≠ 0 → s.left = acc*2^(T.bits-r)) ∧
    Regroup 8 T.bits (v.map UInt8.toNat) es r acc ∧ s.ret = es.map T.digit

/-- A decoder between two digits, which holds its bits back in the lower places. -/
def Decoding (rests : List ℕ) (es : List ℕ) (s : Coder) : Prop :=
  ∃ r acc, rests[s.mode]? = some r ∧ (s.mode ≠ 0 → s.left = acc) ∧
    Regroup T.bits 8 es (s.ret.map UInt8.toNat) r acc

/-- A decoder that keeps the bits of its digits, and takes as valid what is padded as it has to be. -/
structure Decoder (rests : List ℕ) (turn : Coder → ℕ → Coder)
    (invalid : Coder → List UInt8 → Option Bool) : Prop where
  rests_zero : ∀ m, rests[m]? = some 0 ↔ m = 0
  rests_lt : ∀ r ∈ rests, r < 8
  turn : ∀ es s e, e < 2^T.bits → T.Decoding rests es s → T.Decoding rests (es ++ [e]) (turn s e)
  invalid : ∀ s r c p, rests[s.mode]? = some r → (s.mode = 0 → T.table c = -1) →
    invalid s (c :: p) =
      if r < T.bits ∧ (s.mode ≠ 0 → s.left = 0) then badPadding T.table (T.pads r) (c :: p)
      else some true

section RoundTrip
variable {T} {rests : List ℕ} {turn : Coder → ℕ → Coder}
  {invalid : Coder → List UInt8 → Option Bool}

/-- The values of the leading digits of a string. -/
def leading (T : BaseText) (q : List UInt8) : List UInt8 := q.takeWhile fun c => T.table c ≠ -1

def trailing (T : BaseText) (q : List UInt8) : List UInt8 := q.dropWhile fun c => T.table c ≠ -1

def values (T : BaseText) (q : List UInt8) : List ℕ := q.map fun c => (T.table c).toNat

theorem leading_append_trailing (q : List UInt8) : T.leading q ++ T.trailing q = q :=
  List.takeWhile_append_dropWhile

theorem trailing_head (q : List UInt8) : ∃ c t, T.trailing q ++ [0] = c :: t ∧ T.table c = -1 := by
  cases h : T.trailing q with
  | nil => exact ⟨0,[],rfl,T.table_nul⟩
  | cons c t =>
    have hhead := List.head?_dropWhile_not (fun c => decide (T.table c ≠ -1)) q
    rw [show q.dropWhile (fun c => decide (T.table c ≠ -1)) = c :: t from h] at hhead
    exact ⟨c,t ++ [0],rfl,by simpa using hhead⟩

/-- The digits that were read, written again. -/
theorem map_digit_values (q : List UInt8) :
    (T.values (T.leading q)).map T.digit = (T.leading q).map T.fold := by
  rw [values, List.map_map]
  apply List.map_congr_left
  intro c hc
  rw [leading] at hc
  have hdigit : T.table c ≠ -1 := by simpa using List.mem_takeWhile_imp hc
  exact (T.digit_table c hdigit).2

/-- The loop reads the leading digits and no further than the character after them. -/
theorem Decoder.loop (D : T.Decoder rests turn invalid) (q : List UInt8) {es : List ℕ} {s : Coder}
    (h : T.Decoding rests es s) :
    ∃ s', decodeLoop T.table turn s (q ++ [0]) = some (s',T.trailing q ++ [0]) ∧
      T.Decoding rests (es ++ T.values (T.leading q)) s' := by
  -- The induction is on the string; the invariant relates the digits read to the bytes put out.
  induction q generalizing es s with
  | nil =>
    refine ⟨s,?_,?_⟩
    · rw [List.nil_append, decodeLoop, if_pos T.table_nul]
      rfl
    · simpa [leading, values] using h
  | cons c q ih =>
    by_cases hc : T.table c = -1
    · have hlead : T.leading (c :: q) = [] := List.takeWhile_cons_of_neg (by simpa using hc)
      have htrail : T.trailing (c :: q) = c :: q := List.dropWhile_cons_of_neg (by simpa using hc)
      refine ⟨s,?_,?_⟩
      -- a character that is no digit ends the loop where it stands
      · rw [htrail, List.cons_append, decodeLoop, if_pos hc]
      · rw [hlead]
        simpa [values] using h
    · have hlead : T.leading (c :: q) = c :: T.leading q :=
        List.takeWhile_cons_of_pos (decide_eq_true hc)
      have htrail : T.trailing (c :: q) = T.trailing q := List.dropWhile_cons_of_pos (decide_eq_true hc)
      -- one turn for the digit, and the loop on what follows
      obtain ⟨s',hrun,hdec⟩ := ih (D.turn es s _ (T.digit_table c hc).1 h)
      refine ⟨s',?_,?_⟩
      · rw [List.cons_append, decodeLoop, if_neg hc, htrail]
        exact hrun
      · rw [hlead, values, List.map_cons, ← List.singleton_append, ← List.append_assoc]
        exact hdec

theorem Decoder.start (D : T.Decoder rests turn invalid) : T.Decoding rests [] Coder.start :=
  ⟨0,0,(D.rests_zero 0).mpr rfl,fun h => absurd rfl h,Regroup.nil⟩

theorem Decoder.verdict (D : T.Decoder rests turn invalid) {es : List ℕ} {s : Coder}
    (h : T.Decoding rests es s) (q : List UInt8) :
    ∃ f, invalid s (T.trailing q ++ [0]) = some f ∧
      (f = false → ∃ k, k < T.bits ∧ Regroup T.bits 8 es (s.ret.map UInt8.toNat) k 0 ∧
        List.replicate (T.pads k) 61 <+: T.trailing q) := by
  obtain ⟨r,acc,hrest,hleft,hgroups⟩ := h
  obtain ⟨c,t,htrail,hc⟩ := T.trailing_head q
  -- the character at the pointer is no digit, the terminator or another one
  have hinvalid := D.invalid s r c t hrest fun _ => hc
  rw [← htrail] at hinvalid
  rw [hinvalid]
  split_ifs with hgood
  · obtain ⟨f,hrun,hpads⟩ := badPadding_spec T.table (T.pads r) (T.trailing q)
    refine ⟨f,hrun,fun hf => ⟨r,hgood.1,?_,hpads hf⟩⟩
    -- in mode 0 no bits are left, in the others the bits left are zero
    have hacc : acc = 0 := by
      by_cases hmode : s.mode = 0
      · have hr := (D.rests_zero s.mode).mpr hmode
        rw [hrest, Option.some_inj] at hr
        subst hr
        exact Nat.lt_one_iff.mp hgroups.rest_lt
      · rw [← hleft hmode]
        exact hgood.2 hmode
    rwa [hacc] at hgroups
  · exact ⟨true,rfl,fun hf => absurd hf (by decide)⟩

/-- What a decoder makes of a zero-terminated string: it never reads past the terminator, and a string
that it finds valid begins with a text of the bytes it returns. -/
theorem Decoder.decode (D : T.Decoder rests turn invalid) (pfInvalid : Bool) (q : List UInt8) :
    ∃ v f, baseDecode T.table turn invalid pfInvalid (q ++ [0]) = some (v,f) ∧
      (f = some false → ∃ s, T.Encodes v s ∧ s <+: q.map T.fold) := by
  obtain ⟨s,hrun,hdec⟩ := D.loop q D.start
  rw [List.nil_append] at hdec
  obtain ⟨f,hverdict,hvalid⟩ := D.verdict hdec q
  refine ⟨s.ret,if pfInvalid then some f else none,?_,?_⟩
  · cases pfInvalid with
    | true => simp only [baseDecode, hrun, hverdict, Option.bind_eq_bind, Option.bind_some, if_true,
        Option.pure_def]
    | false =>
      rw [baseDecode, hrun]
      rfl
  · intro hf
    split_ifs at hf
    obtain ⟨k,hk,hgroups,hpads⟩ := hvalid (Option.some_inj.mp hf)
    refine ⟨_,⟨_,k,hk,hgroups,rfl⟩,?_⟩
    -- the padding looks the same in either letter case
    have hfold : (List.replicate (T.pads k) 61).map T.fold = List.replicate (T.pads k) 61 := by
      rw [List.map_replicate, T.fold_pad]
    have hsplit : q.map T.fold = (T.leading q).map T.fold ++ (T.trailing q).map T.fold := by
      rw [← List.map_append, leading_append_trailing]
    rw [map_digit_values, hsplit, List.prefix_append_right_inj, ← hfold]
    exact hpads.map T.fold

/-- The leading digits of a text are all its digits. -/
theorem leading_text {es : List ℕ} (hes : ∀ e ∈ es, e < 2^T.bits) (n : ℕ) :
    T.leading (es.map T.digit ++ List.replicate n 61) = es.map T.digit ∧
    T.trailing (es.map T.digit ++ List.replicate n 61) = List.replicate n 61 ∧
    T.values (es.map T.digit) = es := by
  have hdigits : ∀ c ∈ es.map T.digit, decide (T.table c ≠ -1) = true := by
    intro c hc
    obtain ⟨e,he,rfl⟩ := List.mem_map.mp hc
    rw [decide_eq_true_iff, T.table_digit e (hes e he)]
    omega
  refine ⟨?_,?_,?_⟩
  · rw [leading, List.takeWhile_append_of_pos hdigits, List.takeWhile_replicate_eq_filter]
    simp [T.table_pad]
  · rw [trailing, List.dropWhile_append_of_pos hdigits, List.dropWhile_replicate_eq_filter_not]
    simp [T.table_pad]
  · rw [values, List.map_map]
    conv_rhs => rw [← List.map_id es]
    apply List.map_congr_left
    intro e he
    rw [Function.comp_apply, T.table_digit e (hes e he)]
    rfl

/-- Decoding a text of a byte string gives the byte string back. -/
theorem Decoder.decode_text (D : T.Decoder rests turn invalid) {v s : List UInt8} (h : T.Encodes v s) :
    baseDecode T.table turn invalid true (s ++ [0]) = some (v,some false) := by
  obtain ⟨es,k,hk,hgroups,rfl⟩ := h
  obtain ⟨hlead,htrail,hvalues⟩ := leading_text hgroups.digits (T.pads k)
  obtain ⟨s,hrun,hdec⟩ := D.loop (es.map T.digit ++ List.replicate (T.pads k) 61) D.start
  rw [hlead, hvalues, List.nil_append] at hdec
  rw [htrail] at hrun
  obtain ⟨r,acc,hrest,hleft,hdec⟩ := hdec
  -- the digits determine the bytes, and no other bits are left than were filled in
  have hr := D.rests_lt r (List.mem_of_getElem? hrest)
  have hk8 := hk.trans_le T.bits_le
  obtain ⟨hbytes,rfl,rfl⟩ := hdec.groups_unique (by decide) hgroups hr hk8
  -- the loop has put out the bytes themselves
  have hret : s.ret = v := List.map_injective_iff.mpr (fun c d => UInt8.toNat_inj.mp) hbytes
  obtain ⟨c,t,hhead,hc⟩ := T.trailing_head (List.replicate (T.pads r) 61)
  have hall : T.trailing (List.replicate (T.pads r) 61) = List.replicate (T.pads r) 61 := by
    have hnone : ∀ e ∈ ([] : List ℕ), e < 2^T.bits := fun e he => absurd he List.not_mem_nil
    exact (leading_text hnone (T.pads r)).2.1
  rw [hall] at hhead
  -- what is left is zero, and exactly its padding follows
  have hverdict : invalid s (List.replicate (T.pads r) 61 ++ [0]) = some false := by
    rw [hhead, D.invalid s r c t hrest fun _ => hc, if_pos ⟨hk,hleft⟩, ← hhead]
    exact badPadding_replicate T.table T.table_nul _
  simp only [baseDecode, hrun, hverdict, hret, Option.bind_eq_bind, Option.bind_some, if_true,
    Option.pure_def]

/-- Two texts of one byte string are the same. -/
theorem Encodes.unique {v s s' : List UInt8} (h : T.Encodes v s) (h' : T.Encodes v s') : s = s' := by
  obtain ⟨es,k,hk,hgroups,rfl⟩ := h
  obtain ⟨es',k',hk',hgroups',rfl⟩ := h'
  -- equal bytes have equal digits, and the bits filled in decide the padding
  obtain ⟨rfl,rfl⟩ := hgroups.digits_unique T.bits_pos hgroups' hk hk'
  rfl

end RoundTrip

section Turns
variable {T} {rests : List ℕ} {r acc m r' left : ℕ}

theorem encoding_start (hrest : rests[0]? = some 0) : T.Encoding rests [] Coder.start :=
  ⟨[],0,0,hrest,Nat.zero_le _,fun h => absurd rfl h,Regroup.nil,rfl⟩

/-- A byte of which one digit goes out. -/
theorem encoding_one {v ret : List UInt8} {es : List ℕ} {enc : UInt8} {e : ℕ}
    (h : Regroup 8 T.bits (v.map UInt8.toNat) es r acc) (hret : ret = es.map T.digit)
    (hbits : r+8 = T.bits+r') (hrest : rests[m]? = some r') (hle : r' ≤ T.bits)
    (he : e = (acc*2^8+enc.toNat)/2^r')
    (hleft : m ≠ 0 → left = (acc*2^8+enc.toNat)%2^r'*2^(T.bits-r')) :
    T.Encoding rests (v ++ [enc]) ⟨m,left,ret ++ [T.digit e]⟩ := by
  have hpush := h.push enc.toNat_lt
  rw [hbits] at hpush
  have hemit := hpush.emit
  rw [← he] at hemit
  refine ⟨es ++ [e],r',_,hrest,hle,hleft,?_,?_⟩
  · rwa [List.map_append, List.map_singleton]
  · rw [List.map_append, List.map_singleton, ← hret]

/-- A byte of which two digits go out. -/
theorem encoding_two {v ret : List UInt8} {es : List ℕ} {enc : UInt8} {e e' : ℕ}
    (h : Regroup 8 T.bits (v.map UInt8.toNat) es r acc) (hret : ret = es.map T.digit)
    (hbits : r+8 = T.bits+(T.bits+r')) (hrest : rests[m]? = some r') (hle : r' ≤ T.bits)
    (he : e = (acc*2^8+enc.toNat)/2^(T.bits+r'))
    (he' : e' = (acc*2^8+enc.toNat)%2^(T.bits+r')/2^r')
    (hleft : m ≠ 0 → left = (acc*2^8+enc.toNat)%2^r'*2^(T.bits-r')) :
    T.Encoding rests (v ++ [enc]) ⟨m,left,ret ++ [T.digit e,T.digit e']⟩ := by
  have hpush := h.push enc.toNat_lt
  rw [hbits] at hpush
  have hemit := hpush.emit.emit
  -- the second digit leaves the lowest bits as they were
  have hlow : (acc*2^8+enc.toNat)%2^(T.bits+r')%2^r' = (acc*2^8+enc.toNat)%2^r' :=
    Nat.mod_mod_of_dvd _ (pow_dvd_pow 2 (Nat.le_add_left r' T.bits))
  rw [← he, ← he', hlow] at hemit
  refine ⟨es ++ [e] ++ [e'],r',_,hrest,hle,hleft,?_,?_⟩
  · rwa [List.map_append, List.map_singleton]
  · rw [List.map_append, List.map_append, List.map_singleton, List.map_singleton, ← hret,
      List.append_assoc, List.singleton_append]

/-- A digit that completes no byte. -/
theorem decoding_keep {es : List ℕ} {ret : List UInt8} {e : ℕ} (he : e < 2^T.bits)
    (h : Regroup T.bits 8 es (ret.map UInt8.toNat) r acc) (hrest : rests[m]? = some (r+T.bits))
    (hleft : left = acc*2^T.bits+e) : T.Decoding rests (es ++ [e]) ⟨m,left,ret⟩ :=
  ⟨_,_,hrest,fun _ => hleft,h.push he⟩

/-- A digit that completes a byte. -/
theorem decoding_one {es : List ℕ} {ret : List UInt8} {e b : ℕ} (he : e < 2^T.bits)
    (h : Regroup T.bits 8 es (ret.map UInt8.toNat) r acc) (hbits : r+T.bits = 8+r')
    (hrest : rests[m]? = some r') (hb : b = (acc*2^T.bits+e)/2^r')
    (hleft : m ≠ 0 → left = (acc*2^T.bits+e)%2^r') :
    T.Decoding rests (es ++ [e]) ⟨m,left,ret ++ [UInt8.ofNat b]⟩ := by
  have hpush := h.push he
  rw [hbits] at hpush
  have hemit := hpush.emit
  rw [← hb] at hemit
  -- nothing is cut off when the number is stored as a byte
  have hbyte : (UInt8.ofNat b).toNat = b := by
    have hlt := hemit.groups b (List.mem_append_right _ (List.mem_singleton_self b))
    exact UInt8.toNat_ofNat_of_lt hlt
  refine ⟨r',_,hrest,hleft,?_⟩
  rwa [List.map_append, List.map_singleton, hbyte]

/-- The check that the modes with an admissible number of bits left make. -/
theorem if_left {α : Type} {x y : α} (hr : r < T.bits) (hm : m ≠ 0) :
    (if left ≠ 0 then x else y) = if r < T.bits ∧ (m ≠ 0 → left = 0) then y else x := by
  by_cases hleft : left = 0
  · rw [if_neg (not_not.mpr hleft), if_pos ⟨hr,fun _ => hleft⟩]
  · rw [if_pos hleft, if_neg fun h => hleft (h.2 hm)]

/-- A finished text, where the last byte ends with a digit. -/
theorem Encoding.full {v : List UInt8} {s : Coder} (h : T.Encoding rests v s)
    (hrest : rests[s.mode]? = some 0) : T.Encodes v s.ret := by
  obtain ⟨es,r,acc,hrest',-,-,hgroups,hret⟩ := h
  rw [hrest, Option.some_inj] at hrest'
  subst hrest'
  refine ⟨es,0,T.bits_pos,hgroups.symm,?_⟩
  rw [hret, T.pads_zero, List.replicate_zero, List.append_nil]

/-- A finished text, with the bits left over in a last digit. -/
theorem Encoding.padded {v : List UInt8} {s : Coder} (h : T.Encoding rests v s) (hmode : s.mode ≠ 0)
    (hrest : rests[s.mode]? = some r) (hpos : 0 < r) :
    T.Encodes v (s.ret ++ [T.digit s.left] ++ List.replicate (T.pads (T.bits-r)) 61) := by
  obtain ⟨es,r,acc,hrest',hle,hleft,hgroups,hret⟩ := h
  rw [hrest, Option.some_inj] at hrest'
  subst hrest'
  refine ⟨_,T.bits-r,?_,hgroups.fill hle,?_⟩
  · have hbits := T.bits_pos
    omega
  · rw [List.map_append, List.map_singleton, hret, hleft hmode]

end Turns

end BaseText

end Candypool.Core
