import Candypool.Coins.Coins
import Candypool.Core.Compressor

/-! The formats of the coin database and of the undo files. The outputs of an entry that are spent are
left out; a bit mask says which. Numbers and lists are counted in `unsigned int`, so an entry holds at
most `2^32-6` outputs. -/
namespace Candypool.Coins
open Candypool.Core CCoins

section Mask
variable (vout : List CTxOut)

/-- `!vout[i].IsNull()`, with the bound that stands beside it. -/
def unspent (i : ℕ) : Bool := (vout[i]?.map fun txout => !txout.isNull).getD false

/-- The rounds of `for (b = 0; 2+b*8 < vout.size(); b++)`. -/
def maskRounds : ℕ := (vout.length-2+7)/8

/-- `!fZero` after the inner loop of `CalcMaskSize`. -/
def usedByte (b : ℕ) : Bool := (List.range 8).any fun i => unspent vout (2+b*8+i)

/-- One round of `CalcMaskSize`, on `nLastUsedByte` and `nNonzeroBytes`. -/
def calcMaskStep (n : ℕ × ℕ) (b : ℕ) : ℕ × ℕ := if usedByte vout b then (b+1, n.2+1) else n

/-- `CalcMaskSize`: the bytes of the mask, and how many of them are not zero. -/
def calcMaskSize : ℕ × ℕ := (List.range (maskRounds vout)).foldl (calcMaskStep vout) (0,0)

/-- One byte of the mask, made bit by bit. -/
def byteOfBits (bit : ℕ → Bool) : UInt8 :=
  (List.range 8).foldl (fun chAvail i =>
    if bit i then chAvail ||| 1 <<< UInt8.ofNat i else chAvail) 0

def maskByte (b : ℕ) : UInt8 := byteOfBits fun i => unspent vout (2+b*8+i)

/-- The bits of a byte, as they are pushed on `vAvail`. -/
def bitsOfByte (chAvail : UInt8) : List Bool :=
  (List.range 8).map fun p => chAvail &&& 1 <<< UInt8.ofNat p != 0

/-- The mask is read until `nMaskCode` of its bytes were not zero. -/
def readMask : List UInt8 → ℕ → Option (List Bool × List UInt8)
  | bytes, 0 => some ([], bytes)
  | [], _+1 => none
  | chAvail :: rest, nMaskCode+1 =>
    (readMask rest (if chAvail ≠ 0 then nMaskCode else nMaskCode+1)).map fun (vAvail,rest) =>
      (bitsOfByte chAvail ++ vAvail, rest)

end Mask

section Formats
variable (curve : CurveOps)

namespace CCoins

def fFirst (coins : CCoins) : Bool := unspent coins.vout 0

def fSecond (coins : CCoins) : Bool := unspent coins.vout 1

/-- `assert(fFirst || fSecond || nMaskCode)`. -/
def hasOutput (coins : CCoins) : Bool :=
  coins.fFirst || coins.fSecond || (calcMaskSize coins.vout).2 != 0

def nCode (coins : CCoins) : ℕ :=
  (8*((calcMaskSize coins.vout).2-(if coins.fFirst || coins.fSecond then 0 else 1))+
    (if coins.fCoinBase then 1 else 0)+(if coins.fFirst then 2 else 0)+
    (if coins.fSecond then 4 else 0)) % 2^32

/-- `Serialize`; nothing is written of an entry without outputs. -/
def serialize (coins : CCoins) : Option (List UInt8) :=
  if coins.hasOutput then
    some (writeVarIntInt coins.nVersion ++ writeVarInt 4 coins.nCode ++
      (List.range (calcMaskSize coins.vout).1).map (maskByte coins.vout) ++
      (coins.vout.filter fun txout => !txout.isNull).flatMap (serializeTxOut curve) ++
      writeVarIntInt coins.nHeight)
  else none

def getSerializeSize (coins : CCoins) : Option ℕ :=
  if coins.hasOutput then
    some ((getSizeOfVarIntInt coins.nVersion+getSizeOfVarInt 4 coins.nCode+
      (calcMaskSize coins.vout).1+
      ((coins.vout.filter fun txout => !txout.isNull).map (txOutSerializeSize curve)).sum+
      getSizeOfVarIntInt coins.nHeight) % 2^32)
  else none

end CCoins

def readOutputs : List Bool → Unserializer (List CTxOut)
  | [], bytes => some ([], bytes)
  | fAvail :: vAvail, bytes => do
    let (txout,rest) ← if fAvail then unserializeTxOut curve bytes else some (CTxOut.null, bytes)
    let (vout,rest) ← readOutputs vAvail rest
    some (txout :: vout, rest)

/-- `CCoins::Unserialize`. -/
def unserializeCoins : Unserializer CCoins := fun bytes => do
  let (nVersion,rest) ← readVarIntInt bytes
  let (nCode,rest) ← readVarInt 4 rest
  let nMaskCode := nCode/8+(if nCode &&& 6 ≠ 0 then 0 else 1)
  let (vAvail,rest) ← readMask rest nMaskCode
  let vAvail := [nCode &&& 2 != 0, nCode &&& 4 != 0] ++ vAvail
  let (vout,rest) ← readOutputs curve vAvail rest
  let (nHeight,rest) ← readVarIntInt rest
  some (⟨nCode &&& 1 != 0, cleanup vout, nHeight.toNat, nVersion⟩, rest)

/-- `nHeight*2+fCoinBase` in an `unsigned int`. -/
def CTxInUndo.nCode (undo : CTxInUndo) : ℕ :=
  (undo.nHeight*2+(if undo.fCoinBase then 1 else 0)) % 2^32

def serializeTxInUndo (undo : CTxInUndo) : List UInt8 :=
  writeVarInt 4 undo.nCode ++ (if undo.nHeight > 0 then writeVarIntInt undo.nVersion else []) ++
    serializeTxOut curve undo.txout

def txInUndoSerializeSize (undo : CTxInUndo) : ℕ :=
  (getSizeOfVarInt 4 undo.nCode+(if undo.nHeight > 0 then getSizeOfVarIntInt undo.nVersion else 0)+
    txOutSerializeSize curve undo.txout) % 2^32

/-- The version stays at the zero of the constructor when there is no height. -/
def unserializeTxInUndo : Unserializer CTxInUndo := fun bytes => do
  let (nCode,rest) ← readVarInt 4 bytes
  let (nVersion,rest) ← if nCode/2 > 0 then readVarIntInt rest else some (0, rest)
  let (txout,rest) ← unserializeTxOut curve rest
  some (⟨txout, nCode &&& 1 != 0, nCode/2, nVersion⟩, rest)

/-- The size of a vector, added up in an `unsigned int`. -/
def vectorSerializeSize {α : Type} (size : α → ℕ) (v : List α) : ℕ :=
  (getSizeOfCompactSize v.length+(v.map size).sum) % 2^32

def serializeTxUndo (undo : CTxUndo) : List UInt8 :=
  serializeVector (serializeTxInUndo curve) undo.vprevout

def txUndoSerializeSize (undo : CTxUndo) : ℕ :=
  vectorSerializeSize (txInUndoSerializeSize curve) undo.vprevout

def unserializeTxUndo : Unserializer CTxUndo := fun bytes =>
  (unserializeVector (unserializeTxInUndo curve) bytes).map fun (vprevout,rest) => (⟨vprevout⟩, rest)

def serializeBlockUndo (undo : CBlockUndo) : List UInt8 :=
  serializeVector (serializeTxUndo curve) undo.vtxundo

def blockUndoSerializeSize (undo : CBlockUndo) : ℕ :=
  vectorSerializeSize (txUndoSerializeSize curve) undo.vtxundo

def unserializeBlockUndo : Unserializer CBlockUndo := fun bytes =>
  (unserializeVector (unserializeTxUndo curve) bytes).map fun (vtxundo,rest) => (⟨vtxundo⟩, rest)

end Formats

section MaskRoundTrip

theorem eight_bits : ∀ b0 b1 b2 b3 b4 b5 b6 b7 : Bool,
    let bits := [b0,b1,b2,b3,b4,b5,b6,b7]
    bitsOfByte (byteOfBits fun i => bits.getD i false) = bits ∧
      (byteOfBits (fun i => bits.getD i false) ≠ 0 ↔ bits.any id = true) := by
  decide +kernel

/-- The bits of a byte come back, and the byte is zero when all of them are. -/
theorem byteOfBits_spec (bit : ℕ → Bool) :
    bitsOfByte (byteOfBits bit) = (List.range 8).map bit ∧
      (byteOfBits bit ≠ 0 ↔ (List.range 8).any bit = true) := by
  have hsame : byteOfBits bit = byteOfBits fun i =>
      [bit 0,bit 1,bit 2,bit 3,bit 4,bit 5,bit 6,bit 7].getD i false := rfl
  obtain ⟨hbits,hzero⟩ := eight_bits (bit 0) (bit 1) (bit 2) (bit 3) (bit 4) (bit 5) (bit 6) (bit 7)
  rw [hsame]
  exact ⟨hbits, hzero⟩

/-- A mask without a zero byte at its end comes back. -/
theorem readMask_append (mask : List UInt8) (hlast : ∀ h : mask ≠ [], mask.getLast h ≠ 0)
    (rest : List UInt8) : readMask (mask ++ rest) (mask.countP fun chAvail => chAvail ≠ 0) =
      some (mask.flatMap bitsOfByte, rest) := by
  induction mask with
  | nil => cases rest <;> rfl
  | cons chAvail mask ih =>
    have htail : ∀ h : mask ≠ [], mask.getLast h ≠ 0 := by
      intro h
      rw [← List.getLast_cons (a := chAvail) h]
      exact hlast _
    have hpos : 0 < (chAvail :: mask).countP fun chAvail => chAvail ≠ 0 := by
      apply List.countP_pos_iff.mpr
      refine ⟨_, List.getLast_mem (List.cons_ne_nil chAvail mask), ?_⟩
      exact decide_eq_true (hlast _)
    have hcount := List.countP_cons (p := fun chAvail : UInt8 => decide (chAvail ≠ 0))
      (a := chAvail) (l := mask)
    obtain ⟨k,hk⟩ := Nat.exists_eq_succ_of_ne_zero hpos.ne'
    have hleft : (if chAvail ≠ 0 then k else k+1) = mask.countP fun chAvail => chAvail ≠ 0 := by
      rw [hk] at hcount
      by_cases hzero : chAvail = 0
      · simp [hzero] at hcount ⊢
        omega
      · simp [hzero] at hcount ⊢
        omega
    rw [hk, List.cons_append, readMask, hleft, ih htail, Option.map_some, List.flatMap_cons]

/-- Numbers that are not counted can be left out at the end. -/
theorem countP_range_of_not (p : ℕ → Bool) {last k : ℕ} (hle : last ≤ k)
    (hnot : ∀ b, last ≤ b → b < k → p b = false) :
    (List.range k).countP p = (List.range last).countP p := by
  induction k, hle using Nat.le_induction with
  | base => rfl
  | succ k hk ih =>
    have hlast : p k = false := hnot k hk (Nat.lt_succ_self k)
    rw [List.range_succ, List.countP_append, ih fun b hb hlt => hnot b hb (Nat.lt_succ_of_lt hlt)]
    simp [hlast]

variable (vout : List CTxOut)

/-- What `CalcMaskSize` knows after `k` rounds. -/
theorem calcMaskStep_fold (k : ℕ) :
    let n := (List.range k).foldl (calcMaskStep vout) (0,0)
    n.1 ≤ k ∧ (∀ b, n.1 ≤ b → b < k → usedByte vout b = false) ∧
      (n.1 ≠ 0 → usedByte vout (n.1-1) = true) ∧ n.2 = (List.range k).countP (usedByte vout) := by
  induction k with
  | zero => exact ⟨le_rfl, fun b _ hlt => absurd hlt (Nat.not_lt_zero b), fun h => absurd rfl h, rfl⟩
  | succ k ih =>
    rw [List.range_succ, List.foldl_append, List.countP_append]
    dsimp only at ih ⊢
    generalize (List.range k).foldl (calcMaskStep vout) (0,0) = n at ih ⊢
    obtain ⟨hle,hnot,hused,hcount⟩ := ih
    rw [List.foldl_cons, List.foldl_nil, calcMaskStep]
    cases hbyte : usedByte vout k with
    | true =>
      refine ⟨le_rfl, fun b hb hlt => absurd hlt (not_lt.mpr hb), fun _ => hbyte, ?_⟩
      simp [hcount, hbyte]
    | false =>
      refine ⟨Nat.le_succ_of_le hle, ?_, hused, by simp [hcount, hbyte]⟩
      intro b hb hlt
      rcases Nat.lt_succ_iff_lt_or_eq.mp hlt with h | h
      · exact hnot b hb h
      · rw [h]
        exact hbyte

/-- No output behind the mask is unspent. -/
theorem unspent_behind_mask {i : ℕ} (hi : 2+(calcMaskSize vout).1*8 ≤ i) :
    unspent vout i = false := by
  obtain ⟨-,hnot,-,-⟩ := calcMaskStep_fold vout (maskRounds vout)
  by_cases hlen : i < vout.length
  · have hbyte := hnot ((i-2)/8) (by rw [calcMaskSize] at hi; omega) (by rw [maskRounds]; omega)
    rw [usedByte, List.any_eq_false] at hbyte
    have hbit := hbyte ((i-2) % 8) (List.mem_range.mpr (Nat.mod_lt _ (by decide)))
    rw [show 2+(i-2)/8*8+(i-2) % 8 = i by omega] at hbit
    exact eq_false_of_ne_true hbit
  · rw [unspent, List.getElem?_eq_none (not_lt.mp hlen)]
    rfl

/-- The mask that is written comes back as the outputs behind the first two. -/
theorem readMask_serialize (rest : List UInt8) :
    readMask ((List.range (calcMaskSize vout).1).map (maskByte vout) ++ rest) (calcMaskSize vout).2 =
      some ((List.range (calcMaskSize vout).1).flatMap fun b =>
        (List.range 8).map fun i => unspent vout (2+b*8+i), rest) := by
  obtain ⟨hle,hnot,hused,hcount⟩ := calcMaskStep_fold vout (maskRounds vout)
  rw [← calcMaskSize] at hle hnot hused hcount
  have hbyte : ∀ b, (maskByte vout b ≠ 0) ↔ usedByte vout b = true :=
    fun b => (byteOfBits_spec _).2
  have hmask := readMask_append ((List.range (calcMaskSize vout).1).map (maskByte vout)) (by
    intro h
    have hne : (calcMaskSize vout).1 ≠ 0 := by
      intro hzero
      simp [hzero] at h
    rw [List.getLast_map, List.getLast_range]
    exact (hbyte _).mpr (hused hne)) rest
  rw [List.countP_map, List.flatMap_map] at hmask
  have hsame : ((fun chAvail : UInt8 => decide (chAvail ≠ 0)) ∘ maskByte vout) = usedByte vout := by
    funext b
    rw [Function.comp_apply, decide_eq_decide.mpr (hbyte b), Bool.decide_coe]
  rw [hsame, ← countP_range_of_not _ hle hnot, ← hcount] at hmask
  rw [hmask]
  congr 2
  apply List.flatMap_congr
  intro b _
  exact (byteOfBits_spec _).1

/-- `vAvail` after the mask. -/
theorem vAvail_eq (nBytes : ℕ) : [unspent vout 0, unspent vout 1] ++
    ((List.range nBytes).flatMap fun b => (List.range 8).map fun i => unspent vout (2+b*8+i)) =
      (List.range (2+nBytes*8)).map (unspent vout) := by
  induction nBytes with
  | zero => rfl
  | succ nBytes ih =>
    rw [List.range_succ (n := nBytes), List.flatMap_append, ← List.append_assoc, ih,
      show 2+(nBytes+1)*8 = 2+nBytes*8+8 by ring, List.range_add (n := 2+nBytes*8),
      List.map_append, List.map_map, List.flatMap_cons, List.flatMap_nil, List.append_nil]
    rfl

end MaskRoundTrip

section CoinsRoundTrip
variable {curve : CurveOps} {coins : CCoins}

/-- An entry that can be written: it has an output left and its numbers fit their types. -/
structure CCoins.Storable (coins : CCoins) : Prop where
  outputs : ∀ txout ∈ coins.vout, txout = CTxOut.null ∨ txout.Storable
  trimmed : ∀ h : coins.vout ≠ [], (coins.vout.getLast h).isNull = false
  unpruned : coins.isPruned = false
  count : coins.vout.length+6 ≤ 2^32
  height : coins.nHeight < 2^31
  version : 0 ≤ coins.nVersion
  versionFits : coins.nVersion < 2^31

theorem isNull_of_storable {txout : CTxOut} (h : txout.Storable) : txout.isNull = false := by
  have hnonneg := h.nonneg
  rw [CTxOut.isNull]
  exact decide_eq_false (by omega)

theorem unspent_of_getElem? {vout : List CTxOut} {i : ℕ} {txout : CTxOut}
    (h : vout[i]? = some txout) : unspent vout i = !txout.isNull := by
  rw [unspent, h]
  rfl

/-- The mask covers `vout`, and what it has more are spent outputs. -/
theorem mask_covers (h : coins.Storable) : ∃ k,
    (coins.vout ++ List.replicate k CTxOut.null).map (fun txout => !txout.isNull) =
      (List.range (2+(calcMaskSize coins.vout).1*8)).map (unspent coins.vout) := by
  have hlen : coins.vout.length ≤ 2+(calcMaskSize coins.vout).1*8 := by
    by_contra hshort
    have hne : coins.vout ≠ [] := by
      intro hnil
      simp [hnil] at hshort
    have hbehind := unspent_behind_mask coins.vout
      (show 2+(calcMaskSize coins.vout).1*8 ≤ coins.vout.length-1 by omega)
    rw [unspent_of_getElem? (List.getLast?_eq_getElem? ▸ List.getLast?_eq_some_getLast hne),
      h.trimmed hne] at hbehind
    cases hbehind
  refine ⟨2+(calcMaskSize coins.vout).1*8-coins.vout.length, ?_⟩
  apply List.ext_getElem
  · simp only [List.length_map, List.length_append, List.length_replicate, List.length_range]
    omega
  · intro i hi _
    rw [List.getElem_map, List.getElem_map, List.getElem_range]
    by_cases hin : i < coins.vout.length
    · rw [List.getElem_append_left hin, unspent_of_getElem? (List.getElem?_eq_getElem hin)]
    · rw [List.getElem_append_right (not_lt.mp hin), List.getElem_replicate, unspent,
        List.getElem?_eq_none (not_lt.mp hin)]
      rfl

/-- The outputs that are written are put where the mask says. -/
theorem readOutputs_serialize (hcurve : curve.Inverts) {vout : List CTxOut}
    (hout : ∀ txout ∈ vout, txout = CTxOut.null ∨ txout.Storable) (rest : List UInt8) :
    readOutputs curve (vout.map fun txout => !txout.isNull)
      ((vout.filter fun txout => !txout.isNull).flatMap (serializeTxOut curve) ++ rest) =
        some (vout, rest) := by
  induction vout with
  | nil => rfl
  | cons txout vout ih =>
    have htail := ih fun txout hmem => hout txout (List.mem_cons_of_mem _ hmem)
    rw [List.map_cons, List.filter_cons, readOutputs]
    rcases hout txout List.mem_cons_self with hnull | hstore
    · simp [hnull, null_isNull, htail]
    · have hkept : txout.isNull = false := isNull_of_storable hstore
      simp [hkept, unserializeTxOut_serialize hcurve hstore, htail]

theorem cleanup_append_null {vout : List CTxOut}
    (h : ∀ hv : vout ≠ [], (vout.getLast hv).isNull = false) (k : ℕ) :
    cleanup (vout ++ List.replicate k CTxOut.null) = vout := by
  induction k with
  | zero => rw [List.replicate_zero, List.append_nil, cleanup_eq_self h]
  | succ k ih =>
    rw [List.replicate_succ', ← List.append_assoc, cleanup, List.rdropWhile_concat_pos _ _ _ rfl]
    exact ih

/-- The low bits of a number are those of its last digit. -/
theorem and_low (x : ℕ) {k : ℕ} (hk : k < 8) : x &&& k = x % 8 &&& k := by
  have hle : x &&& k ≤ k := Nat.and_le_right
  have hmod := Nat.and_mod_two_pow (a := x) (b := k) (n := 3)
  rwa [Nat.mod_eq_of_lt (lt_of_le_of_lt hle hk), Nat.mod_eq_of_lt hk] at hmod

/-- The flags and the number of the bytes can be read off the header. -/
theorem header_bits {m : ℕ} (fCoinBase fFirst fSecond : Bool) :
    let nCode := 8*m+(if fCoinBase then 1 else 0)+(if fFirst then 2 else 0)+(if fSecond then 4 else 0)
    (nCode &&& 1 != 0) = fCoinBase ∧ (nCode &&& 2 != 0) = fFirst ∧ (nCode &&& 4 != 0) = fSecond ∧
      (nCode &&& 6 ≠ 0 ↔ (fFirst || fSecond) = true) ∧ nCode/8 = m := by
  intro nCode
  have hlow : ∀ k < 8, nCode &&& k =
      ((if fCoinBase then 1 else 0)+(if fFirst then 2 else 0)+(if fSecond then 4 else 0)) &&& k := by
    intro k hk
    rw [and_low nCode hk]
    congr 1
    dsimp only [nCode]
    split_ifs <;> omega
  rw [hlow 1 (by decide), hlow 2 (by decide), hlow 4 (by decide), hlow 6 (by decide)]
  have hdiv : nCode/8 = m := by
    dsimp only [nCode]
    split_ifs <;> omega
  refine ⟨?_, ?_, ?_, ?_, hdiv⟩
  all_goals cases fCoinBase <;> cases fFirst <;> cases fSecond <;> decide

/-- Some output is left, so the assertion holds. -/
theorem hasOutput_of_storable (h : coins.Storable) : coins.hasOutput = true := by
  have hne : coins.vout ≠ [] := by
    intro hnil
    have hpruned := h.unpruned
    rw [isPruned, hnil, List.all_nil] at hpruned
    cases hpruned
  have hlast : unspent coins.vout (coins.vout.length-1) = true := by
    rw [unspent_of_getElem? (List.getLast?_eq_getElem? ▸ List.getLast?_eq_some_getLast hne),
      h.trimmed hne]
    rfl
  by_contra hnot
  rw [hasOutput, Bool.not_eq_true, Bool.or_eq_false_iff, Bool.or_eq_false_iff] at hnot
  obtain ⟨⟨hfirst,hsecond⟩,hcode⟩ := hnot
  obtain ⟨hle,hunused,-,hcount⟩ := calcMaskStep_fold coins.vout (maskRounds coins.vout)
  have hzero : (calcMaskSize coins.vout).2 = 0 := by simpa using hcode
  rw [← calcMaskSize, hzero] at hcount
  by_cases htwo : coins.vout.length-1 < 2
  · rcases Nat.lt_succ_iff_lt_or_eq.mp htwo with hi | hi
    · rw [Nat.lt_one_iff.mp hi] at hlast
      exact Bool.false_ne_true (hfirst.symm.trans hlast)
    · rw [hi] at hlast
      exact Bool.false_ne_true (hsecond.symm.trans hlast)
  · have hnone := List.countP_eq_zero.mp hcount.symm ((coins.vout.length-1-2)/8)
      (List.mem_range.mpr (by rw [maskRounds]; omega))
    apply hnone
    apply List.any_eq_true.mpr
    refine ⟨(coins.vout.length-1-2) % 8, List.mem_range.mpr (Nat.mod_lt _ (by decide)), ?_⟩
    rw [show 2+(coins.vout.length-1-2)/8*8+(coins.vout.length-1-2) % 8 =
      coins.vout.length-1 by omega]
    exact hlast

/-- The header fits, and its digits are the number of mask bytes and the flags. -/
theorem nCode_eq (h : coins.Storable) : ∃ m,
    coins.nCode = 8*m+(if coins.fCoinBase then 1 else 0)+(if coins.fFirst then 2 else 0)+
      (if coins.fSecond then 4 else 0) ∧ coins.nCode < 256^4 ∧
      m+(if coins.fFirst || coins.fSecond then 0 else 1) = (calcMaskSize coins.vout).2 := by
  obtain ⟨-,-,-,hcount⟩ := calcMaskStep_fold coins.vout (maskRounds coins.vout)
  have hbound : (calcMaskSize coins.vout).2 ≤ maskRounds coins.vout := by
    calc (calcMaskSize coins.vout).2 = (List.range (maskRounds coins.vout)).countP _ := hcount
      _ ≤ (List.range (maskRounds coins.vout)).length := List.countP_le_length
      _ = maskRounds coins.vout := List.length_range
  have hlen := h.count
  have hasserted := hasOutput_of_storable h
  have hpow : (256 : ℕ)^4 = 2^32 := by norm_num
  rw [maskRounds] at hbound
  refine ⟨(calcMaskSize coins.vout).2-(if coins.fFirst || coins.fSecond then 0 else 1), ?_, ?_, ?_⟩
  · rw [CCoins.nCode, Nat.mod_eq_of_lt]
    split_ifs <;> omega
  · rw [hpow, CCoins.nCode]
    exact Nat.mod_lt _ (by positivity)
  · split_ifs with hflag
    · rfl
    · rw [hasOutput, eq_false_of_ne_true hflag, Bool.false_or, bne_iff_ne] at hasserted
      omega

theorem unserializeCoins_serialize (hcurve : curve.Inverts) (h : coins.Storable) :
    ∃ bytes, coins.serialize curve = some bytes ∧
      ∀ rest, unserializeCoins curve (bytes ++ rest) = some (coins, rest) := by
  refine ⟨_, if_pos (hasOutput_of_storable h), ?_⟩
  intro rest
  obtain ⟨m,hcode,hfit,hbytes⟩ := nCode_eq h
  obtain ⟨hcoinbase,hfirst,hsecond,hsix,hdiv⟩ :=
    header_bits (m := m) coins.fCoinBase coins.fFirst coins.fSecond
  rw [← hcode] at hcoinbase hfirst hsecond hsix hdiv
  obtain ⟨k,hcover⟩ := mask_covers h
  have hmaskCode : coins.nCode/8+(if coins.nCode &&& 6 ≠ 0 then 0 else 1) =
      (calcMaskSize coins.vout).2 := by
    rw [hdiv, ← hbytes]
    congr 1
    exact if_congr hsix rfl rfl
  have hall : ∀ txout ∈ coins.vout ++ List.replicate k CTxOut.null,
      txout = CTxOut.null ∨ txout.Storable := by
    intro txout hmem
    rcases List.mem_append.mp hmem with hin | hnull
    · exact h.outputs txout hin
    · exact Or.inl (List.eq_of_mem_replicate hnull)
  have houtputs := readOutputs_serialize hcurve hall
  rw [hcover, List.filter_append, List.filter_replicate_of_neg (by rw [null_isNull]; decide),
    List.append_nil] at houtputs
  have hheight : (coins.nHeight : ℤ) < 2^31 := by exact_mod_cast h.height
  rw [List.append_assoc, List.append_assoc, List.append_assoc, List.append_assoc, unserializeCoins,
    readVarIntInt_write h.version h.versionFits]
  simp only [Option.bind_eq_bind, Option.bind_some, readVarInt_write (by decide : 0 < 4) hfit]
  rw [hmaskCode, readMask_serialize]
  simp only [Option.bind_some]
  rw [hfirst, hsecond, fFirst, fSecond, vAvail_eq, houtputs]
  simp only [Option.bind_some]
  rw [readVarIntInt_write (Int.natCast_nonneg _) hheight, hcoinbase,
    cleanup_append_null h.trimmed, Option.bind_some, Int.toNat_natCast]

theorem sum_txOutSerializeSize (curve : CurveOps) (vout : List CTxOut) :
    (vout.map (txOutSerializeSize curve)).sum ≡
      (vout.flatMap (serializeTxOut curve)).length [MOD 2^32] := by
  induction vout with
  | nil => rfl
  | cons txout vout ih =>
    rw [List.map_cons, List.sum_cons, List.flatMap_cons, List.length_append, txOutSerializeSize_eq]
    exact Nat.ModEq.add (Nat.mod_modEq _ _) ih

/-- `GetSerializeSize` is the number of bytes written, as an `unsigned int`. -/
theorem getSerializeSize_eq (curve : CurveOps) (coins : CCoins) :
    coins.getSerializeSize curve = (coins.serialize curve).map fun bytes => bytes.length % 2^32 := by
  rw [CCoins.getSerializeSize, CCoins.serialize]
  split_ifs
  · rw [Option.map_some, Option.some.injEq]
    simp only [List.length_append, List.length_map, List.length_range, writeVarIntInt_length,
      writeVarInt_length]
    apply Nat.ModEq.add_right
    apply Nat.ModEq.add_left
    exact sum_txOutSerializeSize curve _
  · rfl

end CoinsRoundTrip

section UndoRoundTrip
variable {curve : CurveOps}

/-- An undo record that can be written. -/
structure CTxInUndo.Storable (undo : CTxInUndo) : Prop where
  output : undo.txout.Storable
  height : undo.nHeight < 2^31
  version : 0 < undo.nHeight → 0 ≤ undo.nVersion ∧ undo.nVersion < 2^31

structure CTxUndo.Storable (undo : CTxUndo) : Prop where
  entries : ∀ txin ∈ undo.vprevout, txin.Storable
  count : undo.vprevout.length ≤ maxSize

structure CBlockUndo.Storable (undo : CBlockUndo) : Prop where
  entries : ∀ txundo ∈ undo.vtxundo, txundo.Storable
  count : undo.vtxundo.length ≤ maxSize

/-- What an undo record says: its version only together with a height. -/
def CTxInUndo.significant (undo : CTxInUndo) : CTxInUndo :=
  { undo with nVersion := if 0 < undo.nHeight then undo.nVersion else 0 }

def CTxUndo.significant (undo : CTxUndo) : CTxUndo := ⟨undo.vprevout.map CTxInUndo.significant⟩

def CBlockUndo.significant (undo : CBlockUndo) : CBlockUndo :=
  ⟨undo.vtxundo.map CTxUndo.significant⟩

theorem unserializeTxInUndo_serialize (hcurve : curve.Inverts) {undo : CTxInUndo}
    (h : undo.Storable) (rest : List UInt8) :
    unserializeTxInUndo curve (serializeTxInUndo curve undo ++ rest) =
      some (undo.significant, rest) := by
  have hheight := h.height
  have hcode : undo.nCode = undo.nHeight*2+(if undo.fCoinBase then 1 else 0) := by
    rw [CTxInUndo.nCode, Nat.mod_eq_of_lt]
    split_ifs <;> omega
  have hdiv : undo.nCode/2 = undo.nHeight := by
    rw [hcode]
    split_ifs <;> omega
  have hflag : (undo.nCode &&& 1 != 0) = undo.fCoinBase := by
    rw [Nat.and_one_is_mod, hcode]
    cases undo.fCoinBase with
    | true => simp
    | false => simp
  have hfit : undo.nCode < 256^4 := by
    have hpow : (256 : ℕ)^4 = 2^32 := by norm_num
    rw [hpow, CTxInUndo.nCode]
    exact Nat.mod_lt _ (by positivity)
  rw [serializeTxInUndo, List.append_assoc, List.append_assoc, unserializeTxInUndo,
    readVarInt_write (by decide) hfit]
  simp only [Option.bind_eq_bind, Option.bind_some, hdiv, hflag, CTxInUndo.significant]
  by_cases hpos : 0 < undo.nHeight
  · obtain ⟨hversion,hversionFits⟩ := h.version hpos
    simp only [gt_iff_lt, if_pos hpos, readVarIntInt_write hversion hversionFits, Option.bind_some,
      unserializeTxOut_serialize hcurve h.output]
  · simp only [gt_iff_lt, if_neg hpos, List.nil_append, Option.bind_some,
      unserializeTxOut_serialize hcurve h.output]

theorem unserializeTxUndo_serialize (hcurve : curve.Inverts) {undo : CTxUndo}
    (h : undo.Storable) (rest : List UInt8) :
    unserializeTxUndo curve (serializeTxUndo curve undo ++ rest) = some (undo.significant, rest) := by
  rw [unserializeTxUndo, serializeTxUndo, unserializeVector_serialize_map CTxInUndo.significant
    (fun txin hmem => unserializeTxInUndo_serialize hcurve (h.entries txin hmem)) h.count]
  rfl

theorem unserializeBlockUndo_serialize (hcurve : curve.Inverts) {undo : CBlockUndo}
    (h : undo.Storable) (rest : List UInt8) :
    unserializeBlockUndo curve (serializeBlockUndo curve undo ++ rest) =
      some (undo.significant, rest) := by
  rw [unserializeBlockUndo, serializeBlockUndo, unserializeVector_serialize_map CTxUndo.significant
    (fun txundo hmem => unserializeTxUndo_serialize hcurve (h.entries txundo hmem)) h.count]
  rfl

/-- The size of a vector is that of its bytes when the size of every item is. -/
theorem vectorSerializeSize_eq {α : Type} {size : α → ℕ} {serialize : α → List UInt8}
    (hsize : ∀ item, size item = (serialize item).length % 2^32) (v : List α) :
    vectorSerializeSize size v = (serializeVector serialize v).length % 2^32 := by
  have hsum : (v.map size).sum ≡ (v.flatMap serialize).length [MOD 2^32] := by
    induction v with
    | nil => rfl
    | cons item v ih =>
      rw [List.map_cons, List.sum_cons, List.flatMap_cons, List.length_append, hsize]
      exact Nat.ModEq.add (Nat.mod_modEq _ _) ih
  rw [vectorSerializeSize, serializeVector, List.length_append, writeCompactSize_length]
  exact Nat.ModEq.add_left _ hsum

theorem txInUndoSerializeSize_eq (curve : CurveOps) (undo : CTxInUndo) :
    txInUndoSerializeSize curve undo = (serializeTxInUndo curve undo).length % 2^32 := by
  rw [txInUndoSerializeSize, serializeTxInUndo, List.length_append, List.length_append,
    writeVarInt_length, txOutSerializeSize_eq, Nat.add_mod_mod]
  split_ifs
  · rw [writeVarIntInt_length]
  · rfl

theorem txUndoSerializeSize_eq (curve : CurveOps) (undo : CTxUndo) :
    txUndoSerializeSize curve undo = (serializeTxUndo curve undo).length % 2^32 :=
  vectorSerializeSize_eq (txInUndoSerializeSize_eq curve) undo.vprevout

theorem blockUndoSerializeSize_eq (curve : CurveOps) (undo : CBlockUndo) :
    blockUndoSerializeSize curve undo = (serializeBlockUndo curve undo).length % 2^32 :=
  vectorSerializeSize_eq (txUndoSerializeSize_eq curve) undo.vtxundo

end UndoRoundTrip

/-- The formats of the coin database and of the undo files give back what was written, whatever
follows it, and the size that is computed beforehand is the number of bytes. -/
theorem coin_formats_round_trip {curve : CurveOps} (hcurve : curve.Inverts) :
    (∀ coins : CCoins, coins.Storable → ∃ bytes, coins.serialize curve = some bytes ∧
      coins.getSerializeSize curve = some (bytes.length % 2^32) ∧
      ∀ rest, unserializeCoins curve (bytes ++ rest) = some (coins, rest)) ∧
    (∀ undo : CTxInUndo, undo.Storable →
      txInUndoSerializeSize curve undo = (serializeTxInUndo curve undo).length % 2^32 ∧
      ∀ rest, unserializeTxInUndo curve (serializeTxInUndo curve undo ++ rest) =
        some (undo.significant, rest)) ∧
    (∀ undo : CTxUndo, undo.Storable →
      txUndoSerializeSize curve undo = (serializeTxUndo curve undo).length % 2^32 ∧
      ∀ rest, unserializeTxUndo curve (serializeTxUndo curve undo ++ rest) =
        some (undo.significant, rest)) ∧
    (∀ undo : CBlockUndo, undo.Storable →
      blockUndoSerializeSize curve undo = (serializeBlockUndo curve undo).length % 2^32 ∧
      ∀ rest, unserializeBlockUndo curve (serializeBlockUndo curve undo ++ rest) =
        some (undo.significant, rest)) := by
  refine ⟨?_, ?_, ?_, ?_⟩
  · intro coins h
    obtain ⟨bytes,hbytes,hread⟩ := unserializeCoins_serialize hcurve h
    exact ⟨bytes, hbytes, by rw [getSerializeSize_eq, hbytes, Option.map_some], hread⟩
  · intro undo h
    exact ⟨txInUndoSerializeSize_eq curve undo, unserializeTxInUndo_serialize hcurve h⟩
  · intro undo h
    exact ⟨txUndoSerializeSize_eq curve undo, unserializeTxUndo_serialize hcurve h⟩
  · intro undo h
    exact ⟨blockUndoSerializeSize_eq curve undo, unserializeBlockUndo_serialize hcurve h⟩

section Samples

/-- The coordinates of the base point of the curve. -/
def baseX : List UInt8 := (numberBytes 32
  0x79be667ef9dcbbac55a06295ce870b07029bfcdb2dce28d959f2815b16f81798).reverse

def baseY : List UInt8 := (numberBytes 32
  0x483ada7726a3c4655da4fbfc0e1108a8fd17b448a68554199c47d08ffb10d4b8).reverse

/-- The curve, at the two forms of its base point. -/
def baseCurve : CurveOps where
  setPubKey pubkey := decide (pubkey = 0x04 :: baseX ++ baseY ∨ pubkey = 0x02 :: baseX)
  uncompressed _ := 0x04 :: baseX ++ baseY

theorem baseCurve_inverts : baseCurve.Inverts := by
  intro pubkey hlen _ hvalid
  rcases of_decide_eq_true hvalid with rfl | rfl
  · decide +kernel
  · exact absurd hlen (by decide +kernel)

def payToBase : CTxOut := ⟨5000000000, 65 :: (0x04 :: baseX ++ baseY) ++ [UInt8.ofNat opCheckSig]⟩

def sampleCoins : CCoins :=
  ⟨true, [CTxOut.null, payToBase] ++ List.replicate 9 CTxOut.null ++ [⟨7,[]⟩], 120891, 1⟩

theorem payToBase_storable : payToBase.Storable :=
  ⟨by decide, by decide, by decide +kernel⟩

theorem sampleCoins_storable : sampleCoins.Storable where
  outputs := by
    intro txout hmem
    simp only [sampleCoins, List.mem_append, List.mem_cons, List.mem_replicate, List.not_mem_nil,
      or_false] at hmem
    rcases hmem with ((rfl | rfl) | ⟨-,rfl⟩) | rfl
    · exact Or.inl rfl
    · exact Or.inr payToBase_storable
    · exact Or.inl rfl
    · exact Or.inr ⟨by decide, by decide, by decide⟩
  trimmed := fun _ => rfl
  unpruned := rfl
  count := by decide
  height := by decide
  version := by decide
  versionFits := by decide

theorem coin_formats_round_trip_sample :
    ∃ bytes, sampleCoins.serialize baseCurve = some bytes ∧
      sampleCoins.getSerializeSize baseCurve = some (bytes.length % 2^32) ∧
      ∀ rest, unserializeCoins baseCurve (bytes ++ rest) = some (sampleCoins, rest) :=
  (coin_formats_round_trip baseCurve_inverts).1 sampleCoins sampleCoins_storable

/-- `nHeight*2` leaves the type, so the version that was written is read as the output. -/
def highUndo : CTxInUndo := ⟨⟨1,[]⟩, false, 2^31, 1⟩

/-- A script so long that its size is written as the one of a short form. -/
def longScript : CScript := List.replicate (2^32-6) 0

theorem compressScript_of_length (curve : CurveOps) {script : CScript} (h : 67 < script.length) :
    compressScript curve script = none := by
  have hkey : isToKeyID script = none := if_neg fun hform => by omega
  have hid : isToScriptID script = none := if_neg fun hform => by omega
  have hpub : isToPubKey curve script = none := by
    rw [isToPubKey, if_neg (fun hform => by omega), if_neg (fun hform => by omega)]
  rw [compressScript, hkey, hid, hpub]

theorem unserializeScript_wrapped (curve : CurveOps) {script : CScript}
    (h : script.length+6 = 2^32) :
    unserializeScript curve (serializeScript curve script) ≠ some (script, []) := by
  have hsize : longSize script = 0 := by
    rw [longSize, nSpecialScripts, h, Nat.mod_self]
  rw [serializeScript, compressScript_of_length curve (by omega), hsize, unserializeScript,
    readVarInt_write (by decide) (by decide)]
  simp only [Option.bind_eq_bind, Option.bind_some]
  rw [if_pos (by decide), if_neg (by rw [getSpecialSize, if_pos (Or.inl rfl)]; omega)]
  intro heq
  have hrest := congrArg List.length (Prod.mk.inj (Option.some.inj heq)).2
  rw [getSpecialSize, if_pos (Or.inl rfl), List.length_drop, List.length_nil] at hrest
  omega

theorem readCompactSize_large {nSize : ℕ} (hmax : maxSize < nSize) (hfit : nSize ≤ 0xffffffff)
    (rest : List UInt8) : readCompactSize (writeCompactSize nSize ++ rest) = none := by
  have hlarge : 0x02000000 < nSize := hmax
  have hhead := unserializeNumber_numberBytes (show 254 < 256^1 by decide)
    (numberBytes 4 nSize ++ rest)
  have htail := unserializeNumber_numberBytes (show nSize < 256^4 by omega) rest
  rw [writeCompactSize, if_neg (by omega), if_neg (by omega), if_pos hfit, List.append_assoc]
  simp [readCompactSize, hhead, htail, hmax]

/-- The formats are not faithful for every value of the types: a height of `2^31`, a vector of more
than `MAX_SIZE` entries and a script of `2^32-6` bytes do not come back. -/
theorem undo_formats_lossy :
    unserializeTxInUndo baseCurve (serializeTxInUndo baseCurve highUndo) ≠
      some (highUndo.significant, []) ∧
    unserializeTxUndo baseCurve (serializeTxUndo baseCurve
      ⟨List.replicate (maxSize+1) ⟨⟨1,[]⟩, false, 1, 1⟩⟩) = none ∧
    unserializeTxInUndo baseCurve (serializeTxInUndo baseCurve ⟨⟨0,longScript⟩, false, 1, 1⟩) ≠
      some (⟨⟨0,longScript⟩, false, 1, 1⟩, []) := by
  refine ⟨by decide +kernel, ?_, ?_⟩
  -- for any list of that length, so that nothing this long is evaluated
  · have hnone : ∀ items : List CTxInUndo, items.length = maxSize+1 →
        unserializeTxUndo baseCurve (serializeTxUndo baseCurve ⟨items⟩) = none := by
      intro items hlen
      rw [unserializeTxUndo, serializeTxUndo, serializeVector, unserializeVector, hlen,
        readCompactSize_large (Nat.lt_succ_self _) (by decide)]
      rfl
    exact hnone _ List.length_replicate
  · have hlost : ∀ script : CScript, script.length+6 = 2^32 →
        unserializeTxInUndo baseCurve (serializeTxInUndo baseCurve ⟨⟨0,script⟩, false, 1, 1⟩) ≠
          some (⟨⟨0,script⟩, false, 1, 1⟩, []) := by
      intro script hlen heq
      have hcode : CTxInUndo.nCode ⟨⟨0,script⟩, false, 1, 1⟩ = 2 := rfl
      have hamount : compressAmount (amountOf 0) = 0 := rfl
      rw [serializeTxInUndo, hcode, List.append_assoc, unserializeTxInUndo,
        readVarInt_write (by decide) (by decide)] at heq
      simp only [Option.bind_eq_bind, Option.bind_some] at heq
      rw [if_pos (by decide), if_pos (by decide), readVarIntInt_write (by decide) (by decide)] at heq
      simp only [Option.bind_some, serializeTxOut, unserializeTxOut, Option.bind_eq_bind, hamount,
        readVarInt_write (show 0 < 8 by decide) (show 0 < 256^8 by decide)] at heq
      apply unserializeScript_wrapped baseCurve hlen
      cases hread : unserializeScript baseCurve (serializeScript baseCurve script) with
      | none => simp [hread] at heq
      | some read =>
        simp only [hread, Option.bind_some, Option.some.injEq, Prod.mk.injEq, CTxInUndo.mk.injEq,
          CTxOut.mk.injEq] at heq
        obtain ⟨⟨⟨-,hscript⟩,-⟩,hrest⟩ := heq
        rw [← hscript, ← hrest]
    apply hlost
    rw [longScript, List.length_replicate]
    decide

end Samples

end Candypool.Coins
