import Candypool.Core.Script
import Mathlib.Data.List.Dedup

/-! Transactions and their context-free checks. Amounts and heights are unbounded integers;
hashes come from SHA-256, which is a parameter of the model. -/
namespace Candypool.Core
open Candypool.Prime

def coin : ℤ := 100000000
def cent : ℤ := 1000000
def maxBlockSize : ℕ := 1000000
def maxBlockSizeGen : ℕ := maxBlockSize/2
def maxBlockSigOps : ℕ := maxBlockSize/50
def maxMoney : ℤ := 2000000000*coin
def minTxFee : ℤ := cent
def minTxOutAmount : ℤ := minTxFee
def coinbaseMaturity : ℤ := 3000
def mempoolHeight : ℕ := 0x7fffffff

def moneyRange (nValue : ℤ) : Bool := decide (0 ≤ nValue) && decide (nValue ≤ maxMoney)

structure COutPoint where
  hash : Uint256
  n : ℕ
  deriving DecidableEq, Repr

def COutPoint.isNull (out : COutPoint) : Bool := out.hash == 0 && out.n == 2^32-1

structure CTxIn where
  prevout : COutPoint
  scriptSig : CScript
  nSequence : ℕ
  deriving DecidableEq, Repr

structure CTxOut where
  nValue : ℤ
  scriptPubKey : CScript
  deriving DecidableEq, Repr

/-- What `SetNull` leaves: the mark of a spent output. -/
def CTxOut.null : CTxOut := ⟨-1, []⟩

def CTxOut.isNull (out : CTxOut) : Bool := out.nValue == -1

structure CTransaction where
  nVersion : ℤ
  vin : List CTxIn
  vout : List CTxOut
  nLockTime : ℕ
  deriving DecidableEq, Repr

def CTransaction.isCoinBase (tx : CTransaction) : Bool :=
  match tx.vin with
  | [txin] => txin.prevout.isNull
  | _ => false

def locktimeThreshold : ℕ := 500000000

def CTxIn.isFinal (txin : CTxIn) : Bool := txin.nSequence == 2^32-1

/-- A height or a time of 0 stands for that of the moment. -/
def CTransaction.isFinal (tx : CTransaction) (nBestHeight nAdjustedTime nBlockHeight nBlockTime : ℤ) :
    Bool :=
  if tx.nLockTime = 0 then true
  else
    let nBlockHeight := if nBlockHeight = 0 then nBestHeight else nBlockHeight
    let nBlockTime := if nBlockTime = 0 then nAdjustedTime else nBlockTime
    if (tx.nLockTime : ℤ) < (if tx.nLockTime < locktimeThreshold then nBlockHeight else nBlockTime) then
      true
    else tx.vin.all CTxIn.isFinal

/-- `GetValueOut` throws on a value or a running sum out of range. -/
def valueOutLoop : List CTxOut → ℤ → Option ℤ
  | [], nValueOut => some nValueOut
  | txout :: vout, nValueOut =>
    let nValueOut := nValueOut+txout.nValue
    if moneyRange txout.nValue && moneyRange nValueOut then valueOutLoop vout nValueOut else none

def CTransaction.getValueOut (tx : CTransaction) : Option ℤ := valueOutLoop tx.vout 0

def CTransaction.getLegacySigOpCount (tx : CTransaction) : ℕ :=
  (tx.vin.map fun txin => getSigOpCount txin.scriptSig false).sum+
    (tx.vout.map fun txout => getSigOpCount txout.scriptPubKey false).sum

def getSizeOfCompactSize (nSize : ℕ) : ℕ :=
  if nSize < 253 then 1 else if nSize ≤ 0xffff then 3 else if nSize ≤ 0xffffffff then 5 else 9

def scriptSize (script : CScript) : ℕ := getSizeOfCompactSize script.length+script.length

def CTransaction.getSerializeSize (tx : CTransaction) : ℕ :=
  4+getSizeOfCompactSize tx.vin.length+(tx.vin.map fun txin => 36+scriptSize txin.scriptSig+4).sum+
    getSizeOfCompactSize tx.vout.length+
    (tx.vout.map fun txout => 8+scriptSize txout.scriptPubKey).sum+4

/-- The three uses of `GetMinFee`; only relaying has its own base fee. -/
inductive GetMinFeeMode
  | block
  | relay
  | send
  deriving DecidableEq, Repr

/-- The fee globals, which the command line may override. -/
structure FeeParams where
  nMinTxFee : ℤ
  nMinRelayTxFee : ℤ

def defaultFees : FeeParams := ⟨minTxFee, minTxFee⟩

def CTransaction.getMinFee (fees : FeeParams) (tx : CTransaction) (nBlockSize : ℕ)
    (fAllowFree : Bool) (mode : GetMinFeeMode) : ℤ :=
  let nBaseFee := if mode = .relay then fees.nMinRelayTxFee else fees.nMinTxFee
  let nBytes := tx.getSerializeSize
  let nNewBlockSize := nBlockSize+nBytes
  let nMinFee := (1+((nBytes/1000 : ℕ) : ℤ))*nBaseFee
  let nMinFee :=
    if fAllowFree then
      if nBlockSize = 1 then if nBytes < 10000 then 0 else nMinFee
      else if nNewBlockSize < 27000 then 0 else nMinFee
    else nMinFee
  -- dust: an output below a cent brings the base fee back
  let nMinFee :=
    if nMinFee < nBaseFee ∧ tx.vout.any (fun txout => decide (txout.nValue < cent)) then nBaseFee
    else nMinFee
  if nBlockSize ≠ 1 ∧ nNewBlockSize ≥ maxBlockSizeGen then maxMoney
  else
    let nMinFee :=
      if nBlockSize ≠ 1 ∧ nNewBlockSize ≥ maxBlockSizeGen/2 then
        nMinFee*((maxBlockSizeGen/(maxBlockSizeGen-nNewBlockSize) : ℕ) : ℤ)
      else nMinFee
    if moneyRange nMinFee then nMinFee else maxMoney

/-- The errors of `CheckTransaction`, in the order of the code. -/
inductive TxError
  | vinEmpty
  | voutEmpty
  | sizeLimits
  | valueBelowMinimum
  | valueTooHigh
  | totalOutOfRange
  | duplicateInputs
  | coinbaseScriptSize
  | prevoutNull
  deriving DecidableEq, Repr

def TxError.nDoS : TxError → ℕ
  | .vinEmpty => 10
  | .voutEmpty => 10
  | .prevoutNull => 10
  | _ => 100

def checkOutputs : List CTxOut → ℤ → Except TxError Unit
  | [], _ => .ok ()
  | txout :: vout, nValueOut =>
    if txout.nValue < minTxOutAmount then .error .valueBelowMinimum
    else if txout.nValue > maxMoney then .error .valueTooHigh
    else if !moneyRange (nValueOut+txout.nValue) then .error .totalOutOfRange
    else checkOutputs vout (nValueOut+txout.nValue)

def CTransaction.checkTransaction (tx : CTransaction) : Except TxError Unit :=
  if tx.vin = [] then .error .vinEmpty
  else if tx.vout = [] then .error .voutEmpty
  else if tx.getSerializeSize > maxBlockSize then .error .sizeLimits
  else match checkOutputs tx.vout 0 with
    | .error e => .error e
    | .ok () =>
      if ¬ (tx.vin.map CTxIn.prevout).Nodup then .error .duplicateInputs
      else if tx.isCoinBase then
        match tx.vin with
        | txin :: _ =>
          if txin.scriptSig.length < 2 ∨ txin.scriptSig.length > 100 then
            .error .coinbaseScriptSize
          else .ok ()
        | [] => .ok ()
      else if tx.vin.any (fun txin => txin.prevout.isNull) then .error .prevoutNull
      else .ok ()

/-- What a transaction that passes the check has. -/
structure CTransaction.Checked (tx : CTransaction) : Prop where
  vin_ne : tx.vin ≠ []
  vout_ne : tx.vout ≠ []
  value : ∀ txout ∈ tx.vout, minTxOutAmount ≤ txout.nValue ∧ txout.nValue ≤ maxMoney
  total : tx.getValueOut = some (tx.vout.map CTxOut.nValue).sum
  nodup : (tx.vin.map CTxIn.prevout).Nodup

theorem checkOutputs_ok (vout : List CTxOut) (nValueOut : ℤ)
    (h : checkOutputs vout nValueOut = .ok ()) :
    (∀ txout ∈ vout, minTxOutAmount ≤ txout.nValue ∧ txout.nValue ≤ maxMoney) ∧
      valueOutLoop vout nValueOut = some (nValueOut+(vout.map CTxOut.nValue).sum) := by
  induction vout generalizing nValueOut with
  | nil => simp [valueOutLoop]
  | cons txout vout ih =>
    simp only [checkOutputs] at h
    split_ifs at h with hmin hmax hrange
    obtain ⟨hall,hsum⟩ := ih _ h
    have hlow : minTxOutAmount ≤ txout.nValue := not_lt.mp hmin
    have hhigh : txout.nValue ≤ maxMoney := not_lt.mp hmax
    constructor
    · intro out hout
      rcases List.mem_cons.mp hout with rfl | hout
      · exact ⟨hlow, hhigh⟩
      · exact hall out hout
    · have hpos : (0 : ℤ) ≤ minTxOutAmount := by decide
      have hone : moneyRange txout.nValue = true := by
        rw [moneyRange, Bool.and_eq_true, decide_eq_true_eq, decide_eq_true_eq]
        exact ⟨hpos.trans hlow, hhigh⟩
      have htot : moneyRange (nValueOut+txout.nValue) = true := by simpa using hrange
      simp only [valueOutLoop, hone, htot, Bool.and_self, if_true, hsum, List.map_cons,
        List.sum_cons, Option.some.injEq]
      ring

theorem checkTransaction_ok {tx : CTransaction} (h : tx.checkTransaction = .ok ()) :
    tx.Checked := by
  cases hout : checkOutputs tx.vout 0 with
  | error e =>
    simp only [CTransaction.checkTransaction, hout] at h
    split_ifs at h
  | ok u =>
    obtain ⟨hall,hsum⟩ := checkOutputs_ok tx.vout 0 hout
    rw [zero_add] at hsum
    simp only [CTransaction.checkTransaction, hout] at h
    by_cases hvin : tx.vin = []
    · rw [if_pos hvin] at h
      cases h
    by_cases hvout : tx.vout = []
    · rw [if_neg hvin, if_pos hvout] at h
      cases h
    by_cases hdup : (tx.vin.map CTxIn.prevout).Nodup
    · exact ⟨hvin, hvout, hall, hsum, hdup⟩
    · rw [if_neg hvin, if_neg hvout, if_pos hdup] at h
      split_ifs at h

/-- No output of a checked transaction looks spent. -/
theorem checked_not_null {tx : CTransaction} (h : tx.Checked) :
    ∀ txout ∈ tx.vout, txout.isNull = false := by
  intro txout hout
  have hlow := (h.value txout hout).1
  have hpos : (0 : ℤ) < minTxOutAmount := by decide
  simp only [CTxOut.isNull, beq_eq_false_iff_ne, ne_eq]
  omega

end Candypool.Core
