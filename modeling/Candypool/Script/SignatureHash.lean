import Candypool.Core.WireFormat
import Candypool.Script.SigCache

/-! What the hash that a signature signs covers, for each of the hash types: equal hashes are equal
bytes up to a collision, and the format of transactions turns equal bytes into equal fields. -/
namespace Candypool.Script
open Candypool.Prime Candypool.Core Candypool.Lib

section Signing

/-- The arguments of `SignatureHash`. -/
structure Signing where
  scriptCode : CScript
  txTo : CTransaction
  nIn : ℕ
  nHashType : ℤ

def hashTypeBits (nHashType : ℤ) : BitVec 32 := BitVec.ofInt 32 nHashType

/-- What `CHashWriter` is given: the copy with its blanks, and the hash type as an `int`. -/
def signedBytes (txTmp : CTransaction) (nHashType : ℤ) : List UInt8 :=
  Wire.writeTransaction txTmp ++ Wire.writeSigned 4 nHashType

def signingEnv (H : List UInt8 → Uint256) (setPubKey : Valtype → Bool)
    (verify : Valtype → Uint256 → Valtype → Bool) : SigEnv :=
  ⟨fun txTmp nHashType => H (signedBytes txTmp nHashType), setPubKey, verify⟩

namespace Signing
variable (s s' : Signing)

def hash (sig : SigEnv) : Uint256 := signatureHash sig s.scriptCode s.txTo s.nIn s.nHashType

def AnyoneCanPay : Prop := hashTypeBits s.nHashType &&& sighashAnyoneCanPay ≠ 0
def PaysNone : Prop := hashTypeBits s.nHashType &&& 0x1f = sighashNone
def PaysSingle : Prop := hashTypeBits s.nHashType &&& 0x1f = sighashSingle

/-- Otherwise the hash is 1, whatever there is to sign. -/
def InRange : Prop := s.nIn < s.txTo.vin.length ∧ (s.PaysSingle → s.nIn < s.txTo.vout.length)

instance : Decidable s.AnyoneCanPay := inferInstanceAs (Decidable (_ ≠ _))
instance : Decidable s.PaysNone := inferInstanceAs (Decidable (_ = _))
instance : Decidable s.PaysSingle := inferInstanceAs (Decidable (_ = _))
instance : Decidable s.InRange := inferInstanceAs (Decidable (_ ∧ _))

def scriptAt (i : ℕ) : CScript := if i = s.nIn then deleteCodeSeparators s.scriptCode else []

/-- The others may update the sequence numbers of their inputs unless all outputs are signed. -/
def sequenceAt (i : ℕ) (txin : CTxIn) : ℕ :=
  if i ≠ s.nIn ∧ (s.PaysNone ∨ s.PaysSingle) then 0 else txin.nSequence

def txinAt (i : ℕ) (txin : CTxIn) : CTxIn := ⟨txin.prevout, s.scriptAt i, s.sequenceAt i txin⟩

def vin : List CTxIn :=
  if s.AnyoneCanPay then (s.txTo.vin[s.nIn]?.map (s.txinAt s.nIn)).toList
  else s.txTo.vin.mapIdx s.txinAt

def vout : List CTxOut :=
  if s.PaysNone then []
  else if s.PaysSingle then (s.txTo.vout.take (s.nIn+1)).mapIdx fun i txout =>
    if i < s.nIn then CTxOut.null else txout
  else s.txTo.vout

/-- `txTmp` when it is serialized. -/
def txTmp : CTransaction := { s.txTo with vin := s.vin, vout := s.vout }

def bytes : List UInt8 := signedBytes s.txTmp s.nHashType

/-- Inputs that are signed alike: of the other inputs neither the script nor, unless all outputs are
signed, the sequence number counts. -/
structure SameTxIn (i : ℕ) (txin txin' : CTxIn) : Prop where
  prevout : txin.prevout = txin'.prevout
  script : s.scriptAt i = s'.scriptAt i
  nSequence : s.sequenceAt i txin = s'.sequenceAt i txin'

/-- The input of the signature, wherever it stands. -/
structure SameOwn (txin txin' : CTxIn) : Prop where
  prevout : txin.prevout = txin'.prevout
  script : deleteCodeSeparators s.scriptCode = deleteCodeSeparators s'.scriptCode
  nSequence : txin.nSequence = txin'.nSequence

/-- All that a signature commits to. -/
structure SameSigned : Prop where
  nHashType : hashTypeBits s.nHashType = hashTypeBits s'.nHashType
  nVersion : s.txTo.nVersion = s'.txTo.nVersion
  nLockTime : s.txTo.nLockTime = s'.txTo.nLockTime
  own : s.AnyoneCanPay → ∀ txin txin', s.txTo.vin[s.nIn]? = some txin →
    s'.txTo.vin[s'.nIn]? = some txin' → s.SameOwn s' txin txin'
  inputs : ¬s.AnyoneCanPay → s.txTo.vin.length = s'.txTo.vin.length ∧ ∀ i txin txin',
    s.txTo.vin[i]? = some txin → s'.txTo.vin[i]? = some txin' → s.SameTxIn s' i txin txin'
  single : s.PaysSingle → s.nIn = s'.nIn ∧ s.txTo.vout[s.nIn]? = s'.txTo.vout[s'.nIn]?
  outputs : ¬s.PaysNone → ¬s.PaysSingle → s.txTo.vout = s'.txTo.vout

/-- What the types of the fields hold, with the script that is signed. -/
structure Fits : Prop where
  txTo : Wire.TxFits s.txTo
  scriptCode : s.scriptCode.length ≤ maxSize

end Signing
end Signing

section Deleted

/-- Deleting never lengthens a script. -/
theorem findAndDeleteLoop_length {b : CScript} {fuel : ℕ} {passed pc : CScript} {nFound : ℕ}
    {r : ℕ × CScript} (h : findAndDeleteLoop b fuel passed pc nFound = some r) :
    r.2.length ≤ passed.length+pc.length := by
  induction fuel generalizing passed pc nFound with
  | zero => cases h
  | succ fuel ih =>
    rw [findAndDeleteLoop] at h
    by_cases hbegins : b.isPrefixOf pc = true
    · rw [if_pos hbegins] at h
      have hlen := ih h
      rw [List.length_drop] at hlen
      omega
    rw [if_neg hbegins] at h
    cases hop : getOp pc with
    | none =>
      rw [hop] at h
      obtain rfl := Option.some.inj h
      exact List.length_append.le
    | some instr =>
      obtain ⟨opcode,data,next⟩ := instr
      rw [hop] at h
      have hlen := ih h
      have hshort := getOp_shortens hop
      rw [List.length_append, List.length_take] at hlen
      omega

theorem deleteCodeSeparators_length (script : CScript) :
    (deleteCodeSeparators script).length ≤ script.length := by
  rw [deleteCodeSeparators]
  cases hdelete : findAndDelete (script.length+1) script [opCodeSeparator] with
  | none => exact le_rfl
  | some r =>
    rw [findAndDelete, if_neg (List.cons_ne_nil _ _)] at hdelete
    have hlen := findAndDeleteLoop_length hdelete
    rwa [List.length_nil, Nat.zero_add] at hlen

end Deleted

namespace Signing
variable {s s' : Signing}

section Blanks
variable {H : List UInt8 → Uint256} {setPubKey : Valtype → Bool}
  {verify : Valtype → Uint256 → Valtype → Bool}

theorem PaysSingle.not_paysNone (h : s.PaysSingle) : ¬s.PaysNone := by
  intro hnone
  have heq : sighashNone = sighashSingle := hnone.symm.trans h
  exact absurd heq (by decide)

theorem vin_eq (s : Signing) : s.vin =
    if hashTypeBits s.nHashType &&& sighashAnyoneCanPay ≠ 0 then (s.txTo.vin.mapIdx s.txinAt)[s.nIn]?.toList
    else s.txTo.vin.mapIdx s.txinAt := by
  rw [vin, List.getElem?_mapIdx]
  rfl

/-- The blanking of the inputs in two steps. -/
theorem mapIdx_txinAt (s : Signing) (hfree : s.PaysNone ∨ s.PaysSingle) :
    ((s.txTo.vin.mapIdx fun i txin => ⟨txin.prevout, s.scriptAt i, txin.nSequence⟩).mapIdx
      fun i txin => if i = s.nIn then txin else ⟨txin.prevout, txin.scriptSig, 0⟩) =
        s.txTo.vin.mapIdx s.txinAt := by
  rw [List.mapIdx_mapIdx]
  congr 1
  funext i txin
  rw [Function.comp_apply, txinAt, sequenceAt]
  by_cases hi : i = s.nIn
  · rw [if_pos hi, if_neg fun h => h.1 hi]
  · rw [if_neg hi, if_pos ⟨hi, hfree⟩]

theorem mapIdx_txinAt_all (s : Signing) (hnone : ¬s.PaysNone) (hsingle : ¬s.PaysSingle) :
    (s.txTo.vin.mapIdx fun i txin => ⟨txin.prevout, s.scriptAt i, txin.nSequence⟩) =
      s.txTo.vin.mapIdx s.txinAt := by
  congr 1
  funext i txin
  rw [txinAt, sequenceAt, if_neg]
  rintro ⟨-,h | h⟩
  · exact hnone h
  · exact hsingle h

/-- The function hashes the bytes of the blanked copy. -/
theorem hash_eq (s : Signing) :
    s.hash (signingEnv H setPubKey verify) = if s.InRange then H s.bytes else 1 := by
  have hvin := s.vin_eq
  rw [hash, signatureHash]
  by_cases hin : s.nIn ≥ s.txTo.vin.length
  · rw [if_pos hin, if_neg fun h => absurd h.1 (not_lt.mpr hin)]
  rw [if_neg hin]
  -- the same blanks under their names
  change (if s.PaysNone then _ else if s.PaysSingle then _ else _ : Uint256) = _
  by_cases hnone : s.PaysNone
  · have hsingle : ¬s.PaysSingle := fun h => h.not_paysNone hnone
    have hrange : s.InRange := ⟨not_le.mp hin, fun h => absurd h hsingle⟩
    rw [if_pos hrange, if_pos hnone, bytes, txTmp, vout, if_pos hnone, hvin,
      ← s.mapIdx_txinAt (Or.inl hnone)]
    rfl
  rw [if_neg hnone]
  by_cases hsingle : s.PaysSingle
  · rw [if_pos hsingle]
    by_cases hout : s.nIn ≥ s.txTo.vout.length
    · rw [if_pos hout, if_neg fun h => absurd (h.2 hsingle) (not_lt.mpr hout)]
    have hrange : s.InRange := ⟨not_le.mp hin, fun _ => not_le.mp hout⟩
    rw [if_neg hout, if_pos hrange, bytes, txTmp, vout, if_neg hnone, if_pos hsingle, hvin,
      ← s.mapIdx_txinAt (Or.inr hsingle)]
    rfl
  · have hrange : s.InRange := ⟨not_le.mp hin, fun h => absurd h hsingle⟩
    rw [if_neg hsingle, if_pos hrange, bytes, txTmp, vout, if_neg hnone, if_neg hsingle, hvin,
      ← s.mapIdx_txinAt_all hnone hsingle]
    rfl

end Blanks

section Covered

theorem writeSigned_hashType (nHashType : ℤ) :
    Wire.writeSigned 4 nHashType = numberBytes 4 (hashTypeBits nHashType).toNat := by
  rw [Wire.writeSigned, hashTypeBits, BitVec.toNat_ofInt]
  norm_num

theorem hashTypeBits_eq {nHashType nHashType' : ℤ}
    (h : Wire.writeSigned 4 nHashType = Wire.writeSigned 4 nHashType') :
    hashTypeBits nHashType = hashTypeBits nHashType' := by
  have hlt : ∀ n : ℤ, (hashTypeBits n).toNat < 256^4 := fun n =>
    lt_of_lt_of_eq (hashTypeBits n).isLt (by norm_num)
  rw [writeSigned_hashType, writeSigned_hashType] at h
  apply BitVec.eq_of_toNat_eq
  rw [← littleEndian_numberBytes (hlt nHashType), h, littleEndian_numberBytes (hlt nHashType')]

theorem mapIdx_eq_mapIdx {α β : Type} {f g : ℕ → α → β} {xs ys : List α} :
    xs.mapIdx f = ys.mapIdx g ↔ xs.length = ys.length ∧
      ∀ i x y, xs[i]? = some x → ys[i]? = some y → f i x = g i y := by
  constructor
  · intro h
    have hlen := congrArg List.length h
    rw [List.length_mapIdx, List.length_mapIdx] at hlen
    refine ⟨hlen, fun i x y hx hy => ?_⟩
    have hi := congrArg (fun zs => zs[i]?) h
    simp only [List.getElem?_mapIdx, hx, hy] at hi
    exact Option.some.inj hi
  · rintro ⟨hlen,h⟩
    apply List.ext_getElem?
    intro i
    rw [List.getElem?_mapIdx, List.getElem?_mapIdx]
    by_cases hi : i < xs.length
    · have hi' : i < ys.length := hlen ▸ hi
      rw [List.getElem?_eq_getElem hi, List.getElem?_eq_getElem hi']
      exact congrArg some (h i _ _ (List.getElem?_eq_getElem hi) (List.getElem?_eq_getElem hi'))
    · have hi' : ys.length ≤ i := hlen ▸ not_lt.mp hi
      rw [List.getElem?_eq_none (not_lt.mp hi), List.getElem?_eq_none hi']
      rfl

theorem txinAt_eq {i : ℕ} {txin txin' : CTxIn} :
    s.txinAt i txin = s'.txinAt i txin' ↔ s.SameTxIn s' i txin txin' := by
  rw [txinAt, txinAt, CTxIn.mk.injEq]
  exact ⟨fun h => ⟨h.1, h.2.1, h.2.2⟩, fun h => ⟨h.prevout, h.script, h.nSequence⟩⟩

theorem txinAt_nIn (s : Signing) (txin : CTxIn) : s.txinAt s.nIn txin =
    ⟨txin.prevout, deleteCodeSeparators s.scriptCode, txin.nSequence⟩ := by
  rw [txinAt, scriptAt, sequenceAt, if_pos rfl, if_neg fun h => h.1 rfl]

theorem txinAt_own {txin txin' : CTxIn} :
    s.txinAt s.nIn txin = s'.txinAt s'.nIn txin' ↔ s.SameOwn s' txin txin' := by
  rw [txinAt_nIn, txinAt_nIn, CTxIn.mk.injEq]
  exact ⟨fun h => ⟨h.1, h.2.1, h.2.2⟩, fun h => ⟨h.prevout, h.script, h.nSequence⟩⟩

theorem mem_vin {txin : CTxIn} (h : txin ∈ s.vin) : ∃ i, ∃ txin' ∈ s.txTo.vin, s.txinAt i txin' = txin := by
  rw [vin] at h
  by_cases hany : s.AnyoneCanPay
  · rw [if_pos hany, Option.mem_toList, Option.map_eq_some_iff] at h
    obtain ⟨txin',hget,rfl⟩ := h
    exact ⟨s.nIn, txin', List.mem_of_getElem? hget, rfl⟩
  · rw [if_neg hany, List.mem_mapIdx] at h
    obtain ⟨i,hi,rfl⟩ := h
    exact ⟨i, _, List.getElem_mem hi, rfl⟩

theorem mem_vout {txout : CTxOut} (h : txout ∈ s.vout) : txout = CTxOut.null ∨ txout ∈ s.txTo.vout := by
  rw [vout] at h
  split_ifs at h with hnone hsingle
  · cases h
  · rw [List.mem_mapIdx] at h
    obtain ⟨i,hi,rfl⟩ := h
    split_ifs
    · exact Or.inl rfl
    · exact Or.inr (List.mem_of_mem_take (List.getElem_mem hi))
  · exact Or.inr h

theorem vin_length (s : Signing) : s.vin.length ≤ s.txTo.vin.length := by
  rw [vin]
  split_ifs
  · cases hget : s.txTo.vin[s.nIn]? with
    | none => exact Nat.zero_le _
    | some txin =>
      exact List.length_pos_of_mem (List.mem_of_getElem? hget)
  · rw [List.length_mapIdx]

theorem vout_length (s : Signing) : s.vout.length ≤ s.txTo.vout.length := by
  rw [vout]
  split_ifs
  · exact Nat.zero_le _
  · rw [List.length_mapIdx, List.length_take]
    exact min_le_right _ _
  · exact le_rfl

/-- The blanked copy can be read back when the transaction can. -/
theorem Fits.txTmp (h : s.Fits) : Wire.TxFits s.txTmp := by
  refine ⟨h.txTo.nVersion, s.vin_length.trans h.txTo.vin_length, ?_,
    s.vout_length.trans h.txTo.vout_length, ?_, h.txTo.nLockTime⟩
  · intro txin hmem
    obtain ⟨i,txin',hmem',rfl⟩ := mem_vin hmem
    have hfits := h.txTo.vin txin' hmem'
    refine ⟨hfits.n, ?_, ?_⟩
    · change (s.scriptAt i).length ≤ maxSize
      rw [scriptAt]
      split_ifs
      · exact (deleteCodeSeparators_length _).trans h.scriptCode
      · exact Nat.zero_le _
    · change s.sequenceAt i txin' < 2^32
      rw [sequenceAt]
      split_ifs
      · norm_num
      · exact hfits.nSequence
  · intro txout hmem
    rcases mem_vout hmem with rfl | hmem'
    · exact ⟨by rw [Wire.FitsSigned]; decide, Nat.zero_le _⟩
    · exact h.txTo.vout txout hmem'

section Modes
variable (hbits : hashTypeBits s.nHashType = hashTypeBits s'.nHashType)
include hbits

theorem anyoneCanPay_congr : s.AnyoneCanPay ↔ s'.AnyoneCanPay := by
  rw [AnyoneCanPay, AnyoneCanPay, hbits]

theorem paysNone_congr : s.PaysNone ↔ s'.PaysNone := by rw [PaysNone, PaysNone, hbits]

theorem paysSingle_congr : s.PaysSingle ↔ s'.PaysSingle := by rw [PaysSingle, PaysSingle, hbits]

theorem vin_eq_own (hany : s.AnyoneCanPay) (hrange : s.InRange) (hrange' : s'.InRange) :
    s.vin = s'.vin ↔ ∀ txin txin', s.txTo.vin[s.nIn]? = some txin →
      s'.txTo.vin[s'.nIn]? = some txin' → s.SameOwn s' txin txin' := by
  rw [vin, vin, if_pos hany, if_pos ((anyoneCanPay_congr hbits).mp hany),
    List.getElem?_eq_getElem hrange.1, List.getElem?_eq_getElem hrange'.1, Option.map_some,
    Option.map_some, Option.toList_some, Option.toList_some, List.cons.injEq]
  constructor
  · rintro ⟨h,-⟩ txin txin' hin hin'
    obtain rfl := Option.some.inj hin
    obtain rfl := Option.some.inj hin'
    exact txinAt_own.mp h
  · intro h
    exact ⟨txinAt_own.mpr (h _ _ rfl rfl), rfl⟩

theorem vin_eq_inputs (hany : ¬s.AnyoneCanPay) :
    s.vin = s'.vin ↔ s.txTo.vin.length = s'.txTo.vin.length ∧ ∀ i txin txin',
      s.txTo.vin[i]? = some txin → s'.txTo.vin[i]? = some txin' → s.SameTxIn s' i txin txin' := by
  rw [vin, vin, if_neg hany, if_neg fun h => hany ((anyoneCanPay_congr hbits).mpr h),
    mapIdx_eq_mapIdx]
  simp only [txinAt_eq]

theorem vout_eq_single (hnone : ¬s.PaysNone) (hsingle : s.PaysSingle) (hrange : s.InRange)
    (hrange' : s'.InRange) : s.vout = s'.vout ↔
      s.nIn = s'.nIn ∧ s.txTo.vout[s.nIn]? = s'.txTo.vout[s'.nIn]? := by
  have hsingle' := (paysSingle_congr hbits).mp hsingle
  have hlt := hrange.2 hsingle
  have hlt' := hrange'.2 hsingle'
  rw [vout, vout, if_neg hnone, if_neg fun h => hnone ((paysNone_congr hbits).mpr h),
    if_pos hsingle, if_pos hsingle', mapIdx_eq_mapIdx, List.length_take, List.length_take,
    min_eq_left hlt, min_eq_left hlt']
  constructor
  · rintro ⟨hlen,h⟩
    have hIn : s.nIn = s'.nIn := Nat.succ.inj hlen
    refine ⟨hIn, ?_⟩
    -- the last of the outputs that are kept is the one that is signed, the others are null
    have hlast := h s.nIn s.txTo.vout[s.nIn] s'.txTo.vout[s'.nIn]
      (by rw [List.getElem?_take_of_lt (Nat.lt_succ_self _), List.getElem?_eq_getElem hlt])
      (by rw [hIn, List.getElem?_take_of_lt (Nat.lt_succ_self _), List.getElem?_eq_getElem hlt'])
    rw [if_neg (lt_irrefl _), if_neg hIn.not_lt] at hlast
    rw [List.getElem?_eq_getElem hlt, List.getElem?_eq_getElem hlt', hlast]
  · rintro ⟨hIn,hout⟩
    refine ⟨congrArg Nat.succ hIn, fun i txout txout' hget hget' => ?_⟩
    have hi : i < s.nIn+1 := by
      have hlen := (List.getElem?_eq_some_iff.mp hget).1
      rw [List.length_take] at hlen
      omega
    rw [← hIn]
    by_cases hbefore : i < s.nIn
    · rw [if_pos hbefore, if_pos hbefore]
    obtain rfl : i = s.nIn := by omega
    rw [if_neg hbefore, if_neg hbefore]
    rw [List.getElem?_take_of_lt (Nat.lt_succ_self _)] at hget
    rw [hIn, List.getElem?_take_of_lt (Nat.lt_succ_self _)] at hget'
    rw [hget, hget'] at hout
    exact Option.some.inj hout

end Modes

/-- The bytes say which fields are signed, and nothing else. -/
theorem bytes_eq (hfits : s.Fits) (hfits' : s'.Fits) (hrange : s.InRange) (hrange' : s'.InRange) :
    s.bytes = s'.bytes ↔ s.SameSigned s' := by
  constructor
  · intro h
    -- no encoding of a transaction begins another, so that the hash type is what is left
    obtain ⟨htx,hlast⟩ := (Wire.readTransaction_format).prefixFree hfits.txTmp hfits'.txTmp h
    have hbits := hashTypeBits_eq hlast
    obtain ⟨hversion,hvin,hvout,hlock⟩ := CTransaction.mk.inj htx
    refine ⟨hbits, hversion, hlock, ?_, ?_, ?_, ?_⟩
    · intro hany
      exact (vin_eq_own hbits hany hrange hrange').mp hvin
    · intro hany
      exact (vin_eq_inputs hbits hany).mp hvin
    · intro hsingle
      exact (vout_eq_single hbits hsingle.not_paysNone hsingle hrange hrange').mp hvout
    · intro hnone hsingle
      rwa [vout, vout, if_neg hnone, if_neg hsingle,
        if_neg fun h => hnone ((paysNone_congr hbits).mpr h),
        if_neg fun h => hsingle ((paysSingle_congr hbits).mpr h)] at hvout
  · intro h
    have hbits := h.nHashType
    have hvin : s.vin = s'.vin := by
      by_cases hany : s.AnyoneCanPay
      · exact (vin_eq_own hbits hany hrange hrange').mpr (h.own hany)
      · exact (vin_eq_inputs hbits hany).mpr (h.inputs hany)
    have hvout : s.vout = s'.vout := by
      by_cases hnone : s.PaysNone
      · rw [vout, vout, if_pos hnone, if_pos ((paysNone_congr hbits).mp hnone)]
      by_cases hsingle : s.PaysSingle
      · exact (vout_eq_single hbits hnone hsingle hrange hrange').mpr (h.single hsingle)
      · rw [vout, vout, if_neg hnone, if_neg hsingle,
          if_neg fun h => hnone ((paysNone_congr hbits).mpr h),
          if_neg fun h => hsingle ((paysSingle_congr hbits).mpr h)]
        exact h.outputs hnone hsingle
    have htx : s.txTmp = s'.txTmp :=
      CTransaction.mk.injEq _ _ _ _ _ _ _ _ ▸ ⟨h.nVersion, hvin, hvout, h.nLockTime⟩
    rw [bytes, bytes, signedBytes, signedBytes, htx, writeSigned_hashType, writeSigned_hashType, hbits]

end Covered

section Commitment
variable (H : List UInt8 → Uint256) (setPubKey : Valtype → Bool)
  (verify : Valtype → Uint256 → Valtype → Bool)

theorem hash_congr (hfits : s.Fits) (hfits' : s'.Fits) (hrange : s.InRange) (hrange' : s'.InRange)
    (h : s.SameSigned s') :
    s.hash (signingEnv H setPubKey verify) = s'.hash (signingEnv H setPubKey verify) := by
  rw [hash_eq, hash_eq, if_pos hrange, if_pos hrange', (bytes_eq hfits hfits' hrange hrange').mpr h]

/-- Two signature hashes are equal exactly when the signed fields are, up to a collision; out of range
the hash signs nothing. So a signature is good for all that leaves the signed fields alone. -/
theorem signatureHash_covers (s s' : Signing) (hfits : s.Fits) (hfits' : s'.Fits) :
    (¬s.InRange → s.hash (signingEnv H setPubKey verify) = 1) ∧
    (s.InRange → s'.InRange →
      (s.SameSigned s' →
        s.hash (signingEnv H setPubKey verify) = s'.hash (signingEnv H setPubKey verify)) ∧
      (s.hash (signingEnv H setPubKey verify) = s'.hash (signingEnv H setPubKey verify) →
        s.SameSigned s' ∨ s.bytes ≠ s'.bytes ∧ H s.bytes = H s'.bytes) ∧
      ∀ (vchSig vchPubKey : Valtype) (back : UInt8), vchSig.getLast? = some back →
        s.nHashType = back.toNat → s'.nHashType = back.toNat → s.SameSigned s' →
        checkSigAlone (signingEnv H setPubKey verify) vchSig vchPubKey s.scriptCode s.txTo s.nIn 0 =
          checkSigAlone (signingEnv H setPubKey verify) vchSig vchPubKey s'.scriptCode s'.txTo
            s'.nIn 0) := by
  refine ⟨fun hout => ?_, fun hrange hrange' => ⟨hash_congr H setPubKey verify hfits hfits' hrange hrange',
    fun hhash => ?_, fun vchSig vchPubKey back hback htype htype' h => ?_⟩⟩
  · rw [hash_eq, if_neg hout]
  · rw [hash_eq, hash_eq, if_pos hrange, if_pos hrange'] at hhash
    by_cases hbytes : s.bytes = s'.bytes
    · exact Or.inl ((bytes_eq hfits hfits' hrange hrange').mp hbytes)
    · exact Or.inr ⟨hbytes, hhash⟩
  · have hhash := hash_congr H setPubKey verify hfits hfits' hrange hrange' h
    rw [hash, hash, htype, htype'] at hhash
    simp only [checkSigAlone, splitSignature, hback, if_pos, hhash]

/-- A transaction with two inputs; the signature is for the first of them. -/
def twoInputs (scriptSig : CScript) : Signing where
  scriptCode := [0xab, 0xac]
  txTo := ⟨1, [⟨⟨7, 0⟩, [], 5⟩, ⟨⟨8, 1⟩, scriptSig, 6⟩], [⟨50, [0xac]⟩], 0⟩
  nIn := 0
  nHashType := 1

theorem twoInputs_fits (scriptSig : CScript) (h : scriptSig.length ≤ maxSize) :
    (twoInputs scriptSig).Fits := by
  have hversion : Wire.FitsSigned 4 1 := by
    rw [Wire.FitsSigned]
    decide
  have hvalue : Wire.FitsSigned 8 50 := by
    rw [Wire.FitsSigned]
    decide
  have htwo : 2 ≤ maxSize := by decide
  refine ⟨⟨hversion, htwo, ?_, one_le_two.trans htwo, ?_, Nat.two_pow_pos 32⟩, htwo⟩
  · intro txin hmem
    rcases List.mem_pair.mp hmem with rfl | rfl
    · exact ⟨by decide, by decide, by decide⟩
    · exact ⟨(by decide : 1 < 2^32), h, (by decide : 6 < 2^32)⟩
  · intro txout hmem
    obtain rfl := List.mem_singleton.mp hmem
    exact ⟨hvalue, one_le_two.trans htwo⟩

/-- Signing the other input afterwards does not spoil the hash. -/
theorem signatureHash_covers_twoInputs :
    (twoInputs []).hash (signingEnv (fun bytes => BitVec.ofNat 256 (littleEndian bytes)) (fun _ => true)
      fun _ _ _ => true) =
    (twoInputs [0x51]).hash (signingEnv (fun bytes => BitVec.ofNat 256 (littleEndian bytes))
      (fun _ => true) fun _ _ _ => true) := by
  have hcovers := signatureHash_covers (fun bytes => BitVec.ofNat 256 (littleEndian bytes))
    (fun _ => true) (fun _ _ _ => true) (twoInputs []) (twoInputs [0x51])
    (twoInputs_fits _ (by decide)) (twoInputs_fits _ (by decide))
  refine (hcovers.2 ?_ ?_).1 ?_
  · exact ⟨by decide, fun h => absurd h (by decide)⟩
  · exact ⟨by decide, fun h => absurd h (by decide)⟩
  · refine ⟨rfl, rfl, rfl, fun h => absurd h (by decide), fun _ => ⟨rfl, ?_⟩,
      fun h => absurd h (by decide), fun _ _ => rfl⟩
    rintro (_ | _ | i) txin txin' hin hin'
    · obtain rfl := Option.some.inj hin
      obtain rfl := Option.some.inj hin'
      exact ⟨rfl, rfl, rfl⟩
    · obtain rfl := Option.some.inj hin
      obtain rfl := Option.some.inj hin'
      exact ⟨rfl, rfl, rfl⟩
    · cases hin

end Commitment
end Signing
end Candypool.Script
