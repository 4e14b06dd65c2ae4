import Candypool.Core.VarInt
import Mathlib.Data.Nat.ModEq
import Mathlib.Tactic.Ring

/-! The short forms of outputs in the coin database: `CScriptCompressor` and `CTxOutCompressor`. What
`CKey` does with points of the curve is a parameter. -/
namespace Candypool.Core

def opDup : ℕ := 0x76
def opEqualVerify : ℕ := 0x88

/-- The curve: whether `SetPubKey` takes a key, and the key after `SetCompressedPubKey(false)`. -/
structure CurveOps where
  setPubKey : List UInt8 → Bool
  uncompressed : List UInt8 → List UInt8

section Script
variable (curve : CurveOps)

def isToKeyID (script : CScript) : Option (List UInt8) :=
  if script.length = 25 ∧ script[0]? = some (UInt8.ofNat opDup) ∧
      script[1]? = some (UInt8.ofNat opHash160) ∧ script[2]? = some 20 ∧
      script[23]? = some (UInt8.ofNat opEqualVerify) ∧
      script[24]? = some (UInt8.ofNat opCheckSig) then
    some ((script.drop 3).take 20)
  else none

def isToScriptID (script : CScript) : Option (List UInt8) :=
  if script.length = 23 ∧ script[0]? = some (UInt8.ofNat opHash160) ∧ script[1]? = some 20 ∧
      script[22]? = some (UInt8.ofNat opEqual) then
    some ((script.drop 2).take 20)
  else none

def isToPubKey (script : CScript) : Option (List UInt8) :=
  if script.length = 35 ∧ script[0]? = some 33 ∧ script[34]? = some (UInt8.ofNat opCheckSig) ∧
      (script[1]? = some 0x02 ∨ script[1]? = some 0x03) then
    some ((script.drop 1).take 33)
  else if script.length = 67 ∧ script[0]? = some 65 ∧
      script[66]? = some (UInt8.ofNat opCheckSig) ∧ script[1]? = some 0x04 then
    -- a key that is not on the curve has no short form
    if curve.setPubKey ((script.drop 1).take 65) then some ((script.drop 1).take 65) else none
  else none

def compressScript (script : CScript) : Option (List UInt8) :=
  match isToKeyID script with
  | some keyID => some (0x00 :: keyID)
  | none => match isToScriptID script with
    | some scriptID => some (0x01 :: scriptID)
    | none => match isToPubKey curve script with
      | none => none
      | some pubkey =>
        if pubkey[0]? = some 0x02 ∨ pubkey[0]? = some 0x03 then
          some (pubkey.getD 0 0 :: (pubkey.drop 1).take 32)
        else if pubkey[0]? = some 0x04 then
          some ((0x04 ||| (pubkey.getD 64 0 &&& 0x01)) :: (pubkey.drop 1).take 32)
        else none

def getSpecialSize (nSize : ℕ) : ℕ :=
  if nSize = 0 ∨ nSize = 1 then 20
  else if nSize = 2 ∨ nSize = 3 ∨ nSize = 4 ∨ nSize = 5 then 32
  else 0

def decompressScript (nSize : ℕ) (vch : List UInt8) : Option CScript :=
  if nSize = 0 then
    some ([UInt8.ofNat opDup, UInt8.ofNat opHash160, 20] ++ vch ++
      [UInt8.ofNat opEqualVerify, UInt8.ofNat opCheckSig])
  else if nSize = 1 then
    some ([UInt8.ofNat opHash160, 20] ++ vch ++ [UInt8.ofNat opEqual])
  else if nSize = 2 ∨ nSize = 3 then
    some ([33, UInt8.ofNat nSize] ++ vch ++ [UInt8.ofNat opCheckSig])
  else if nSize = 4 ∨ nSize = 5 then
    let vch := UInt8.ofNat (nSize-2) :: vch
    if curve.setPubKey vch then
      some ([65] ++ curve.uncompressed vch ++ [UInt8.ofNat opCheckSig])
    else none
  else none

def nSpecialScripts : ℕ := 6

/-- `script.size()+nSpecialScripts` in an `unsigned int`. -/
def longSize (script : CScript) : ℕ := (script.length+nSpecialScripts) % 2^32

def serializeScript (script : CScript) : List UInt8 :=
  match compressScript curve script with
  | some compr => compr
  | none => writeVarInt 4 (longSize script) ++ script

def scriptSerializeSize (script : CScript) : ℕ :=
  match compressScript curve script with
  | some compr => compr.length % 2^32
  | none => (script.length+getSizeOfVarInt 4 (longSize script)) % 2^32

/-- The script that is read into is empty, and stays so when a key does not decompress. -/
def unserializeScript : Unserializer CScript := fun bytes => do
  let (nSize,rest) ← readVarInt 4 bytes
  if nSize < nSpecialScripts then
    let n := getSpecialSize nSize
    if rest.length < n then none
    else some ((decompressScript curve nSize (rest.take n)).getD [], rest.drop n)
  else
    let n := nSize-nSpecialScripts
    if rest.length < n then none else some (rest.take n, rest.drop n)

/-- Decompression gives a key back that compression has taken: the first byte of the short key is
the parity of the last one. -/
def CurveOps.Inverts (curve : CurveOps) : Prop :=
  ∀ pubkey : List UInt8, pubkey.length = 65 → pubkey[0]? = some 0x04 → curve.setPubKey pubkey = true →
    let vch := (2+(pubkey.getD 64 0 &&& 1)) :: (pubkey.drop 1).take 32
    curve.setPubKey vch = true ∧ curve.uncompressed vch = pubkey

end Script

section Amount

/-- The loop of `CompressAmount`: up to nine zeros are taken off the end. -/
def trimZeros : ℕ → ℕ → ℕ → ℕ × ℕ
  | 0, n, e => (n, e)
  | fuel+1, n, e => if n % 10 = 0 ∧ e < 9 then trimZeros fuel (n/10) (e+1) else (n, e)

/-- The last digit that is left is not zero when fewer than nine were taken off. -/
def compressAmount (n : ℕ) : ℕ :=
  if n = 0 then 0
  else
    let (n,e) := trimZeros 10 n 0
    if e < 9 then (1+(n/10*9+n % 10-1)*10+e) % 2^64 else (1+(n-1)*10+9) % 2^64

def decompressAmount (x : ℕ) : ℕ :=
  if x = 0 then 0
  else
    let x := x-1
    let e := x % 10
    let x := x/10
    let n := if e < 9 then (x/9*10+(x % 9+1)) % 2^64 else (x+1) % 2^64
    (fun n => n*10 % 2^64)^[e] n

end Amount

section TxOut
variable (curve : CurveOps)

/-- The amount as an unsigned number. -/
def amountOf (nValue : ℤ) : ℕ := (nValue % 2^64).toNat

def serializeTxOut (txout : CTxOut) : List UInt8 :=
  writeVarInt 8 (compressAmount (amountOf txout.nValue)) ++ serializeScript curve txout.scriptPubKey

def txOutSerializeSize (txout : CTxOut) : ℕ :=
  (getSizeOfVarInt 8 (compressAmount (amountOf txout.nValue))+
    scriptSerializeSize curve txout.scriptPubKey) % 2^32

def unserializeTxOut : Unserializer CTxOut := fun bytes => do
  let (nVal,rest) ← readVarInt 8 bytes
  let (script,rest) ← unserializeScript curve rest
  some (⟨((decompressAmount nVal : ℕ) : ℤ).bmod (2^64), script⟩, rest)

end TxOut

section ScriptRoundTrip
variable {curve : CurveOps} {script : CScript}

theorem drop_of_getElem? {l : List UInt8} {i : ℕ} {b : UInt8} (h : l[i]? = some b) :
    l.drop i = b :: l.drop (i+1) := by
  obtain ⟨hlt,heq⟩ := List.getElem?_eq_some_iff.mp h
  rw [List.drop_eq_getElem_cons hlt, heq]

/-- The bytes between two positions, and what is before and behind them. -/
theorem drop_split (l : List UInt8) (i n : ℕ) : l.drop i = (l.drop i).take n ++ l.drop (i+n) := by
  rw [← List.drop_drop, List.take_append_drop]

theorem isToKeyID_eq {keyID : List UInt8} (h : isToKeyID script = some keyID) :
    keyID.length = 20 ∧ script = [UInt8.ofNat opDup, UInt8.ofNat opHash160, 20] ++ keyID ++
      [UInt8.ofNat opEqualVerify, UInt8.ofNat opCheckSig] := by
  rw [isToKeyID] at h
  split_ifs at h with hform
  obtain ⟨hlen,h0,h1,h2,h23,h24⟩ := hform
  obtain rfl := Option.some.inj h
  refine ⟨by simp [hlen], ?_⟩
  calc script = _ :: _ :: _ :: script.drop 3 := by
        rw [← drop_of_getElem? h2, ← drop_of_getElem? h1, ← drop_of_getElem? h0, List.drop_zero]
    _ = _ :: _ :: _ :: ((script.drop 3).take 20 ++ script.drop (3+20)) := by rw [← drop_split]
    _ = _ := by
      rw [drop_of_getElem? h23, drop_of_getElem? h24, List.drop_of_length_le hlen.le]
      rfl

theorem isToScriptID_eq {scriptID : List UInt8} (h : isToScriptID script = some scriptID) :
    scriptID.length = 20 ∧
      script = [UInt8.ofNat opHash160, 20] ++ scriptID ++ [UInt8.ofNat opEqual] := by
  rw [isToScriptID] at h
  split_ifs at h with hform
  obtain ⟨hlen,h0,h1,h22⟩ := hform
  obtain rfl := Option.some.inj h
  refine ⟨by simp [hlen], ?_⟩
  calc script = _ :: _ :: script.drop 2 := by
        rw [← drop_of_getElem? h1, ← drop_of_getElem? h0, List.drop_zero]
    _ = _ :: _ :: ((script.drop 2).take 20 ++ script.drop (2+20)) := by rw [← drop_split]
    _ = _ := by
      rw [drop_of_getElem? h22, List.drop_of_length_le hlen.le]
      rfl

/-- A key is one of the two compressed kinds, or one that `SetPubKey` takes. -/
theorem isToPubKey_eq {pubkey : List UInt8} (h : isToPubKey curve script = some pubkey) :
    (pubkey.length = 33 ∧ (pubkey[0]? = some 0x02 ∨ pubkey[0]? = some 0x03) ∧
      script = [33] ++ pubkey ++ [UInt8.ofNat opCheckSig]) ∨
    (pubkey.length = 65 ∧ pubkey[0]? = some 0x04 ∧ curve.setPubKey pubkey = true ∧
      script = [65] ++ pubkey ++ [UInt8.ofNat opCheckSig]) := by
  rw [isToPubKey] at h
  split_ifs at h with hshort hlong hvalid
  · obtain ⟨hlen,h0,h34,h1⟩ := hshort
    obtain rfl := Option.some.inj h
    refine Or.inl ⟨by simp [hlen], by simpa using h1, ?_⟩
    calc script = _ :: script.drop 1 := by rw [← drop_of_getElem? h0, List.drop_zero]
      _ = _ :: ((script.drop 1).take 33 ++ script.drop (1+33)) := by rw [← drop_split]
      _ = _ := by
        rw [drop_of_getElem? h34, List.drop_of_length_le hlen.le]
        rfl
  · obtain ⟨hlen,h0,h66,h1⟩ := hlong
    obtain rfl := Option.some.inj h
    refine Or.inr ⟨by simp [hlen], by simpa using h1, hvalid, ?_⟩
    calc script = _ :: script.drop 1 := by rw [← drop_of_getElem? h0, List.drop_zero]
      _ = _ :: ((script.drop 1).take 65 ++ script.drop (1+65)) := by rw [← drop_split]
      _ = _ := by
        rw [drop_of_getElem? h66, List.drop_of_length_le hlen.le]
        rfl

/-- The parity of a byte. -/
theorem and_one (b : UInt8) : b &&& 1 = 0 ∨ b &&& 1 = 1 := by
  have hmod : (b &&& 1).toNat = b.toNat % 2 := by
    rw [UInt8.toNat_and]
    exact Nat.and_one_is_mod _
  rcases Nat.mod_two_eq_zero_or_one b.toNat with h | h
  · exact Or.inl (UInt8.toNat_inj.mp (hmod.trans h))
  · exact Or.inr (UInt8.toNat_inj.mp (hmod.trans h))

/-- The first byte of a short form names its kind, and the kind gives the script back. -/
theorem compressScript_eq (hcurve : curve.Inverts) {out : List UInt8}
    (h : compressScript curve script = some out) :
    ∃ nSize vch, nSize < nSpecialScripts ∧ out = UInt8.ofNat nSize :: vch ∧
      vch.length = getSpecialSize nSize ∧ decompressScript curve nSize vch = some script := by
  rw [compressScript] at h
  split at h
  · rename_i keyID hkey
    obtain ⟨hlen,hscript⟩ := isToKeyID_eq hkey
    obtain rfl := Option.some.inj h
    exact ⟨0, keyID, by decide, rfl, hlen, by rw [hscript]; rfl⟩
  split at h
  · rename_i scriptID hid
    obtain ⟨hlen,hscript⟩ := isToScriptID_eq hid
    obtain rfl := Option.some.inj h
    exact ⟨1, scriptID, by decide, rfl, hlen, by rw [hscript]; rfl⟩
  split at h
  · cases h
  rename_i pubkey hpub
  rcases isToPubKey_eq hpub with ⟨hlen,hfirst,hscript⟩ | ⟨hlen,hfirst,hvalid,hscript⟩
  · have htake : (pubkey.drop 1).take 32 = pubkey.drop 1 := List.take_of_length_le (by simp [hlen])
    rw [if_pos hfirst, htake] at h
    obtain rfl := Option.some.inj h
    have hhead : ∀ b, pubkey[0]? = some b → pubkey.getD 0 0 = b ∧ pubkey = b :: pubkey.drop 1 := by
      intro b hb
      refine ⟨by rw [List.getD_eq_getElem?_getD, hb]; rfl, ?_⟩
      rw [← drop_of_getElem? hb, List.drop_zero]
    rcases hfirst with hfirst | hfirst
    · obtain ⟨hget,hsplit⟩ := hhead _ hfirst
      refine ⟨2, pubkey.drop 1, by decide, by rw [hget]; rfl, by simp [hlen, getSpecialSize], ?_⟩
      rw [hscript]
      nth_rewrite 2 [hsplit]
      rfl
    · obtain ⟨hget,hsplit⟩ := hhead _ hfirst
      refine ⟨3, pubkey.drop 1, by decide, by rw [hget]; rfl, by simp [hlen, getSpecialSize], ?_⟩
      rw [hscript]
      nth_rewrite 2 [hsplit]
      rfl
  · obtain ⟨hshort,hback⟩ := hcurve pubkey hlen hfirst hvalid
    rw [if_neg (by rw [hfirst]; decide), if_pos hfirst] at h
    obtain rfl := Option.some.inj h
    have hlen' : ((pubkey.drop 1).take 32).length = 32 := by simp [hlen]
    -- an uncompressed key: its parity is kept, and the curve gives back the other half
    rcases and_one (pubkey.getD 64 0) with hparity | hparity
    · rw [hparity] at hshort hback ⊢
      refine ⟨4, _, by decide, rfl, hlen', ?_⟩
      have hform : ∀ vch, decompressScript curve 4 vch = if curve.setPubKey (2 :: vch) then
          some ([65] ++ curve.uncompressed (2 :: vch) ++ [UInt8.ofNat opCheckSig]) else none :=
        fun _ => rfl
      rw [hform, show (2 : UInt8) = 2+0 from rfl, if_pos hshort, hback, ← hscript]
    · rw [hparity] at hshort hback ⊢
      refine ⟨5, _, by decide, rfl, hlen', ?_⟩
      have hform : ∀ vch, decompressScript curve 5 vch = if curve.setPubKey (3 :: vch) then
          some ([65] ++ curve.uncompressed (3 :: vch) ++ [UInt8.ofNat opCheckSig]) else none :=
        fun _ => rfl
      rw [hform, show (3 : UInt8) = 2+1 from rfl, if_pos hshort, hback, ← hscript]

/-- A size of one byte. -/
theorem readVarInt_small {n : ℕ} (hn : n < 128) (rest : List UInt8) :
    readVarInt 4 (UInt8.ofNat n :: rest) = some (n, rest) := by
  have hlast := readVarIntLoop_last 4 (n := 0) hn (by omega) rest
  rwa [Nat.zero_mul, Nat.zero_add] at hlast

/-- Every script comes back, whichever form it was written in. -/
theorem unserializeScript_serialize (hcurve : curve.Inverts)
    (hsize : script.length+nSpecialScripts < 2^32) (rest : List UInt8) :
    unserializeScript curve (serializeScript curve script ++ rest) = some (script, rest) := by
  rw [serializeScript]
  split
  · rename_i compr hcompr
    obtain ⟨nSize,vch,hlt,rfl,hlen,hback⟩ := compressScript_eq hcurve hcompr
    have hsmall : nSize < 128 := hlt.trans (by decide)
    rw [List.cons_append, unserializeScript, readVarInt_small hsmall]
    simp only [Option.bind_eq_bind, Option.bind_some]
    rw [if_pos hlt, ← hlen, if_neg (by simp), List.take_left, List.drop_left, hback]
    rfl
  · have hfit : longSize script = script.length+nSpecialScripts := Nat.mod_eq_of_lt hsize
    rw [List.append_assoc, unserializeScript, hfit,
      readVarInt_write (by decide) (lt_of_lt_of_eq hsize (by norm_num))]
    simp only [Option.bind_eq_bind, Option.bind_some]
    rw [if_neg (by omega), Nat.add_sub_cancel, if_neg (by simp), List.take_left, List.drop_left]

theorem scriptSerializeSize_eq (curve : CurveOps) (script : CScript) :
    scriptSerializeSize curve script = (serializeScript curve script).length % 2^32 := by
  rw [scriptSerializeSize, serializeScript]
  split
  · rfl
  · rw [List.length_append, writeVarInt_length, Nat.add_comm]

end ScriptRoundTrip

section AmountRoundTrip

/-- The loop takes off zeros until nine are off or the last digit is not zero. -/
theorem trimZeros_spec {fuel n e : ℕ} (hn : n ≠ 0) (he : e ≤ 9) (hfuel : 9 < e+fuel) :
    ∃ m k, trimZeros fuel n e = (m, k) ∧ n*10^e = m*10^k ∧ k ≤ 9 ∧ m ≠ 0 ∧ m ≤ n ∧
      (k < 9 → m % 10 ≠ 0) := by
  induction fuel generalizing n e with
  | zero => omega
  | succ fuel ih =>
    rw [trimZeros]
    split_ifs with h
    · obtain ⟨hzero,hlt⟩ := h
      obtain ⟨m,k,htrim,heq,hk,hm,hle,hlast⟩ := ih (n := n/10) (e := e+1) (by omega) (by omega)
        (by omega)
      refine ⟨m, k, htrim, ?_, hk, hm, by omega, hlast⟩
      calc n*10^e = n/10*10*10^e := by rw [Nat.div_mul_cancel (Nat.dvd_of_mod_eq_zero hzero)]
        _ = n/10*10^(e+1) := by ring
        _ = m*10^k := heq
    · exact ⟨n, e, rfl, rfl, he, hn, le_rfl, fun hlt hzero => h ⟨hzero, hlt⟩⟩

theorem iterate_mul_ten (e n : ℕ) (h : n*10^e < 2^64) :
    (fun n => n*10 % 2^64)^[e] n = n*10^e := by
  induction e generalizing n with
  | zero => simp
  | succ e ih =>
    have hpos : 0 < 10^e := by positivity
    have hten : n*10 < 2^64 := by
      calc n*10 = n*10*1 := (Nat.mul_one _).symm
        _ ≤ n*10*10^e := Nat.mul_le_mul_left _ hpos
        _ = n*10^(e+1) := by ring
        _ < 2^64 := h
    rw [Function.iterate_succ_apply, Nat.mod_eq_of_lt hten, ih _ (by rw [pow_succ] at h; linarith)]
    ring

/-- Every amount of money comes back. -/
theorem decompressAmount_compress {n : ℕ} (hn : n ≤ maxMoney.toNat) :
    decompressAmount (compressAmount n) = n := by
  have hmax : n ≤ 200000000000000000 := hn
  rw [compressAmount]
  split_ifs with hzero
  · rw [hzero]
    rfl
  obtain ⟨m,e,htrim,heq,he,hm,hle,hlast⟩ := trimZeros_spec hzero (Nat.zero_le 9) (by decide : 9 < 0+10)
  rw [pow_zero, Nat.mul_one] at heq
  rw [htrim]
  dsimp only
  have hback : (fun n => n*10 % 2^64)^[e] m = n := by
    rw [iterate_mul_ten _ _ (by rw [← heq]; omega), ← heq]
  split_ifs with hlt
  · have hdigit := hlast hlt
    rw [Nat.mod_eq_of_lt (by omega), decompressAmount, if_neg (by omega)]
    dsimp only
    have hx : 1+(m/10*9+m % 10-1)*10+e-1 = (m/10*9+(m % 10-1))*10+e := by omega
    have hexp : ((m/10*9+(m % 10-1))*10+e) % 10 = e := by omega
    have hrest : ((m/10*9+(m % 10-1))*10+e)/10 = m/10*9+(m % 10-1) := by omega
    rw [hx, hexp, hrest, if_pos hlt]
    have hm' : (m/10*9+(m % 10-1))/9*10+((m/10*9+(m % 10-1)) % 9+1) = m := by omega
    rw [hm', Nat.mod_eq_of_lt (by omega), hback]
  · obtain rfl : e = 9 := by omega
    rw [Nat.mod_eq_of_lt (by omega), decompressAmount, if_neg (by omega)]
    dsimp only
    have hx : 1+(m-1)*10+9-1 = (m-1)*10+9 := by omega
    have hexp : ((m-1)*10+9) % 10 = 9 := by omega
    have hrest : ((m-1)*10+9)/10 = m-1 := by omega
    rw [hx, hexp, hrest, if_neg (by decide), Nat.sub_add_cancel (Nat.pos_of_ne_zero hm),
      Nat.mod_eq_of_lt (by omega), hback]

theorem compressAmount_lt (n : ℕ) : compressAmount n < 256^8 := by
  have hpow : (256 : ℕ)^8 = 2^64 := by norm_num
  rw [hpow, compressAmount]
  split_ifs
  · positivity
  · dsimp only
    split_ifs <;> exact Nat.mod_lt _ (by positivity)

end AmountRoundTrip

section TxOutRoundTrip
variable {curve : CurveOps} {txout : CTxOut}

/-- An output that can be written: an amount of money and a script whose size can be counted. -/
structure CTxOut.Storable (txout : CTxOut) : Prop where
  nonneg : 0 ≤ txout.nValue
  money : txout.nValue ≤ maxMoney
  script : txout.scriptPubKey.length+nSpecialScripts < 2^32

theorem unserializeTxOut_serialize (hcurve : curve.Inverts) (h : txout.Storable)
    (rest : List UInt8) :
    unserializeTxOut curve (serializeTxOut curve txout ++ rest) = some (txout, rest) := by
  have hmoney : txout.nValue ≤ 200000000000000000 := h.money
  have hnonneg := h.nonneg
  have hamount : amountOf txout.nValue = txout.nValue.toNat := by
    rw [amountOf, Int.emod_eq_of_lt hnonneg (by omega)]
  have hback : decompressAmount (compressAmount (amountOf txout.nValue)) = txout.nValue.toNat := by
    rw [decompressAmount_compress, hamount]
    rw [hamount]
    exact Int.toNat_le_toNat h.money
  rw [serializeTxOut, List.append_assoc, unserializeTxOut,
    readVarInt_write (by decide) (compressAmount_lt _)]
  simp only [Option.bind_eq_bind, Option.bind_some, unserializeScript_serialize hcurve h.script]
  rw [hback, Int.toNat_of_nonneg hnonneg, Int.bmod_eq_of_le (by omega) (by omega)]

theorem txOutSerializeSize_eq (curve : CurveOps) (txout : CTxOut) :
    txOutSerializeSize curve txout = (serializeTxOut curve txout).length % 2^32 := by
  rw [txOutSerializeSize, scriptSerializeSize_eq, serializeTxOut, List.length_append,
    writeVarInt_length, Nat.add_mod_mod]

end TxOutRoundTrip

end Candypool.Core
