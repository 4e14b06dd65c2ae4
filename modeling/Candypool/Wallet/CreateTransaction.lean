import Candypool.Core.Compressor
import Candypool.Wallet.CoinSelection
import Candypool.Wallet.KeyPool
import Mathlib.Data.Finset.Sort
import Mathlib.Data.Prod.Lex

/-! `CWallet::CreateTransaction`: the fee, the change and the choice of coins depend on one another, and
a loop tries again until the fee is enough for the transaction it pays. Amounts are unbounded integers,
except where the coins are selected. -/
namespace Candypool.Wallet
open Candypool.Prime Candypool.Core Candypool.Lib

/-- `mapWallet`, in the order of its keys. -/
structure WalletTxs where
  txHash : CTransaction → Uint256
  keys : List WtxPtr
  wtx : WtxPtr → CWalletTx
  nodup : keys.Nodup
  hash_eq : ∀ hash ∈ keys, txHash (wtx hash).tx = hash

/-- The parts of the wallet and of the options that the loop only reads. -/
structure SpendEnv where
  mapWallet : WalletTxs
  setLockedCoins : List COutPoint
  isMine : CTxOut → Bool
  addr : WtxPtr → ℕ
  addr_inj : Function.Injective addr
  getID : ℕ → List UInt8
  nTransactionFee : ℤ
  fees : FeeParams
  nTargetSize : ℕ

/-- What a turn of the loop draws, with the signatures that are made in it. -/
structure TurnRandom where
  select : ℕ → SelectRandom
  position : ℕ
  signSignature : CTransaction → CTransaction → ℕ → Bool × CScript

section Coins
variable (env : SpendEnv)

def isSpent (pcoin : CWalletTx) (nOut : ℕ) : Bool := pcoin.vfSpent.getD nOut false

def getBlocksToMaturity (pcoin : CWalletTx) : ℤ :=
  if pcoin.tx.isCoinBase then max 0 (coinbaseMaturity+200-pcoin.nDepth) else 0

def isLockedCoin (coin : Coin) : Bool := decide ((⟨coin.1, coin.2⟩ : COutPoint) ∈ env.setLockedCoins)

/-- `AvailableCoins` for one transaction. -/
def availableOutputs (fOnlyConfirmed : Bool) (hash : WtxPtr) : List COutput :=
  let pcoin := env.mapWallet.wtx hash
  if !pcoin.isFinal then []
  else if fOnlyConfirmed && !pcoin.isConfirmed then []
  else if pcoin.tx.isCoinBase && decide (getBlocksToMaturity pcoin > 0) then []
  else
    ((List.range pcoin.tx.vout.length).filter fun i =>
      !isSpent pcoin i && env.isMine (pcoin.tx.vout.getD i CTxOut.null) &&
        !isLockedCoin env (hash,i) && decide (coinValue env.mapWallet.wtx (hash,i) > 0)).map
      fun i => ⟨hash, i, pcoin.nDepth⟩

def availableCoins (fOnlyConfirmed : Bool) : List COutput :=
  env.mapWallet.keys.flatMap (availableOutputs env fOnlyConfirmed)

/-- `SelectCoins`: first only coins with confirmations, at last own change without any. -/
def selectCoins (rnd : ℕ → SelectRandom) (nTargetValue : ℤ) : Option (Bool × Finset Coin × ℤ) :=
  let vCoins := availableCoins env true
  let attempt (k : ℕ) (nConfMine nConfTheirs : ℤ) :=
    selectCoinsMinConf env.mapWallet.wtx (rnd k) nTargetValue nConfMine nConfTheirs vCoins
  (attempt 0 1 6).bind fun out =>
    if out.1 then some out
    else (attempt 1 1 1).bind fun out =>
      if out.1 then some out else attempt 2 0 1

/-- A set of coins is ordered by the addresses of their transactions. -/
def coinLe (coin coin' : Coin) : Prop :=
  toLex (env.addr coin.1,coin.2) ≤ toLex (env.addr coin'.1,coin'.2)

instance : DecidableRel (coinLe env) := fun coin coin' =>
  inferInstanceAs (Decidable (toLex (env.addr coin.1,coin.2) ≤ toLex (env.addr coin'.1,coin'.2)))

instance : IsTrans Coin (coinLe env) := ⟨fun _ _ _ => le_trans⟩

instance : Std.Total (coinLe env) := ⟨fun _ _ => le_total _ _⟩

instance : Std.Antisymm (coinLe env) where
  antisymm coin coin' hle hge := by
    have heq := Prod.mk.inj (toLex.injective (le_antisymm hle hge))
    exact Prod.ext (env.addr_inj heq.1) heq.2

def setOrder (setCoins : Finset Coin) : List Coin := setCoins.sort (coinLe env)

end Coins

def maxStandardTxSize : ℕ := maxBlockSizeGen/5

def txOutSize (txout : CTxOut) : ℕ := 8+scriptSize txout.scriptPubKey

/-- `CTxOut::IsDust`; the division is that of C++. -/
def isDust (fees : FeeParams) (txout : CTxOut) : Bool :=
  decide ((txout.nValue*1000).tdiv (3*((txOutSize txout : ℤ)+148)) < fees.nMinRelayTxFee)

/-- `SetDestination` for the ID of a key. -/
def scriptForKeyID (keyID : List UInt8) : CScript :=
  [UInt8.ofNat opDup, UInt8.ofNat opHash160] ++ pushData keyID ++
    [UInt8.ofNat opEqualVerify, UInt8.ofNat opCheckSig]

/-- Why no transaction is created. -/
inductive CreateFail
  | amounts
  | amountTooSmall
  | insufficientFunds
  | signing
  | tooLarge
  deriving DecidableEq, Repr

def CreateFail.strFailReason : CreateFail → String
  | .amounts => "Transaction amounts must be positive"
  | .amountTooSmall => "Transaction amount too small"
  | .insufficientFunds => "Insufficient funds"
  | .signing => "Signing transaction failed"
  | .tooLarge => "Transaction too large"

/-- How a call ends. The pool can have no key for the change, by an exception or a failed assertion. -/
inductive CreateEnd
  | created
  | failed (reason : CreateFail)
  | noKey
  | overflow
  deriving DecidableEq, Repr

/-- What a turn of the loop changes; `nTurn` counts the turns. -/
structure CreateState where
  nTurn : ℕ
  nFeeRet : ℤ
  wtxNew : CTransaction
  reservekey : CReserveKey
  wallet : CWallet

section Loop
variable (env : SpendEnv)

/-- The sum of the amounts, each of which is looked at when the next one comes. -/
def sumAmounts : List (CScript × ℤ) → ℤ → Option ℤ
  | [], nValue => some nValue
  | s :: vecSend, nValue => if nValue < 0 then none else sumAmounts vecSend (nValue+s.2)

def payeeOutputs (fees : FeeParams) : List (CScript × ℤ) → List CTxOut → Bool × List CTxOut
  | [], vout => (true, vout)
  | s :: vecSend, vout =>
    let txout : CTxOut := ⟨s.2, s.1⟩
    if isDust fees txout then (false, vout) else payeeOutputs fees vecSend (vout ++ [txout])

/-- The fee and the change, after sub-cent change has gone to the fee. -/
def moveToFee (fees : FeeParams) (nFeeRet nChange : ℤ) : ℤ × ℤ :=
  let (nFeeRet,nChange) :=
    if nFeeRet < fees.nMinTxFee ∧ nChange > 0 ∧ nChange < cent then
      let nMoveToFee := min nChange (fees.nMinTxFee-nFeeRet)
      (nFeeRet+nMoveToFee,nChange-nMoveToFee)
    else (nFeeRet,nChange)
  if nChange > 0 ∧ nChange < minTxOutAmount then (nFeeRet+nChange,0) else (nFeeRet,nChange)

def returnKey (s : CreateState) : CreateState :=
  let (reservekey,wallet) := s.reservekey.returnKey s.wallet
  { s with reservekey := reservekey, wallet := wallet }

/-- The change output at a random position, or the key back to the pool. -/
def addChange (position : ℕ) (nChange : ℤ) (s : CreateState) : Bool × CreateState :=
  if nChange > 0 then
    let (key,reservekey,wallet) := s.reservekey.getReservedKey env.nTargetSize s.wallet
    let s := { s with reservekey := reservekey, wallet := wallet }
    match key with
    | none => (false, s)
    | some key =>
      let newTxOut : CTxOut := ⟨nChange, scriptForKeyID (env.getID key)⟩
      if isDust env.fees newTxOut then (true, returnKey { s with nFeeRet := s.nFeeRet+nChange })
      else
        let place := position % (s.wtxNew.vout.length+1)
        (true, { s with wtxNew := { s.wtxNew with
          vout := s.wtxNew.vout.take place ++ newTxOut :: s.wtxNew.vout.drop place } })
  else (true, returnKey s)

def fillVin (coins : List Coin) : List CTxIn :=
  coins.map fun coin =>
    ⟨⟨env.mapWallet.txHash (env.mapWallet.wtx coin.1).tx, coin.2⟩, [], 2^32-1⟩

/-- The inputs are signed in order until one cannot be. -/
def signInputs (signSignature : CTransaction → CTransaction → ℕ → Bool × CScript) :
    List Coin → ℕ → CTransaction → Bool × CTransaction
  | [], _, wtxNew => (true, wtxNew)
  | coin :: coins, nIn, wtxNew =>
    let (ok,scriptSig) := signSignature (env.mapWallet.wtx coin.1).tx wtxNew nIn
    let wtxNew := { wtxNew with
      vin := wtxNew.vin.modify nIn fun txin => { txin with scriptSig := scriptSig } }
    if ok then signInputs signSignature coins (nIn+1) wtxNew else (false, wtxNew)

/-- The fee that a transaction has to pay. -/
def requiredFee (tx : CTransaction) : ℤ :=
  let nPayFee := env.nTransactionFee*(1+((tx.getSerializeSize/1000 : ℕ) : ℤ))
  let nMinFee := tx.getMinFee env.fees 1 false .send
  max nPayFee nMinFee

/-- A turn once the outputs are there: the inputs are filled in and signed, and the fee is checked. -/
def finishTurn (draws : TurnRandom) (coins : List Coin) (s : CreateState) :
    CreateState ⊕ (CreateEnd × CreateState) :=
  let (fSigned,wtxNew) := signInputs env draws.signSignature coins 0
    { s.wtxNew with vin := fillVin env coins }
  let s := { s with wtxNew := wtxNew }
  if !fSigned then .inr (.failed .signing, s)
  else if s.wtxNew.getSerializeSize ≥ maxStandardTxSize then .inr (.failed .tooLarge, s)
  else if s.nFeeRet < requiredFee env s.wtxNew then
    .inl { s with nFeeRet := requiredFee env s.wtxNew, nTurn := s.nTurn+1 }
  else .inr (.created, s)

/-- One turn of the loop: the fee of the next turn, or the end. -/
def createTurn (rnd : ℕ → TurnRandom) (vecSend : List (CScript × ℤ)) (nValue : ℤ) (s : CreateState) :
    CreateState ⊕ (CreateEnd × CreateState) :=
  let draws := rnd s.nTurn
  let nTotalValue := nValue+s.nFeeRet
  let (fPaid,vout) := payeeOutputs env.fees vecSend []
  let s := { s with wtxNew := { s.wtxNew with vin := [], vout := vout } }
  if !fPaid then .inr (.failed .amountTooSmall, s)
  else
    match selectCoins env draws.select nTotalValue with
    | none => .inr (.overflow, s)
    | some (false,_,_) => .inr (.failed .insufficientFunds, s)
    | some (true,setCoins,nValueIn) =>
      let (nFeeRet,nChange) := moveToFee env.fees s.nFeeRet (nValueIn-nValue-s.nFeeRet)
      let (fKey,s) := addChange env draws.position nChange { s with nFeeRet := nFeeRet }
      if !fKey then .inr (.noKey, s) else finishTurn env draws (setOrder env setCoins) s

/-- The fuel is one turn more than the fees a size can ask for. -/
def createTransaction (rnd : ℕ → TurnRandom) (vecSend : List (CScript × ℤ)) (s : CreateState) :
    Option (CreateEnd × CreateState) :=
  match sumAmounts vecSend 0 with
  | none => some (.failed .amounts, s)
  | some nValue =>
    if vecSend = [] ∨ nValue < 0 then some (.failed .amounts, s)
    else turnLoop (createTurn env rnd vecSend nValue) 101
      { s with nTurn := 0, nFeeRet := env.nTransactionFee }

end Loop

section Parts
variable {env : SpendEnv}

theorem availableOutputs_coin {fOnlyConfirmed : Bool} {hash : WtxPtr} {output : COutput}
    (h : output ∈ availableOutputs env fOnlyConfirmed hash) : output.tx = hash := by
  rw [availableOutputs] at h
  split_ifs at h
  · cases h
  · cases h
  · cases h
  · obtain ⟨i,-,rfl⟩ := List.mem_map.mp h
    rfl

theorem availableOutputs_nodup (fOnlyConfirmed : Bool) (hash : WtxPtr) :
    ((availableOutputs env fOnlyConfirmed hash).map COutput.coin).Nodup := by
  rw [availableOutputs]
  split_ifs
  · exact List.nodup_nil
  · exact List.nodup_nil
  · exact List.nodup_nil
  · rw [List.map_map]
    refine List.Nodup.map (fun i j hij => ?_) (List.nodup_range.filter _)
    exact (Prod.mk.inj hij).2

/-- The coins are listed once each. -/
theorem availableCoins_nodup (fOnlyConfirmed : Bool) :
    ((availableCoins env fOnlyConfirmed).map COutput.coin).Nodup := by
  rw [availableCoins, List.map_flatMap, List.nodup_flatMap]
  refine ⟨fun hash _ => availableOutputs_nodup fOnlyConfirmed hash,?_⟩
  refine env.mapWallet.nodup.imp fun {hash hash'} hne => ?_
  intro coin hcoin hcoin'
  obtain ⟨output,hout,rfl⟩ := List.mem_map.mp hcoin
  obtain ⟨output',hout',heq⟩ := List.mem_map.mp hcoin'
  apply hne
  rw [← availableOutputs_coin hout, ← availableOutputs_coin hout']
  exact (Prod.mk.inj heq).1.symm

theorem mem_keys_of_available {fOnlyConfirmed : Bool} {output : COutput}
    (h : output ∈ availableCoins env fOnlyConfirmed) : output.tx ∈ env.mapWallet.keys := by
  obtain ⟨hash,hmem,hout⟩ := List.mem_flatMap.mp h
  rw [availableOutputs_coin hout]
  exact hmem

/-- What is returned comes from one of the three attempts. -/
theorem selectCoins_attempt (env : SpendEnv) (rnd : ℕ → SelectRandom) (nTargetValue : ℤ) :
    ∃ k nConfMine nConfTheirs, selectCoins env rnd nTargetValue =
      selectCoinsMinConf env.mapWallet.wtx (rnd k) nTargetValue nConfMine nConfTheirs
        (availableCoins env true) := by
  rw [selectCoins]
  dsimp only
  cases hfirst : selectCoinsMinConf env.mapWallet.wtx (rnd 0) nTargetValue 1 6
      (availableCoins env true) with
  | none => exact ⟨0,1,6,hfirst.symm⟩
  | some first =>
    rw [Option.bind_some]
    split_ifs
    · exact ⟨0,1,6,hfirst.symm⟩
    cases hsecond : selectCoinsMinConf env.mapWallet.wtx (rnd 1) nTargetValue 1 1
        (availableCoins env true) with
    | none => exact ⟨1,1,1,hsecond.symm⟩
    | some second =>
      rw [Option.bind_some]
      split_ifs
      · exact ⟨1,1,1,hsecond.symm⟩
      · exact ⟨2,0,1,rfl⟩

/-- Coins of the wallet whose values sum to what was asked for, or more. -/
structure Selection (env : SpendEnv) (nTargetValue : ℤ) (setCoins : Finset Coin) (nValueIn : ℤ) :
    Prop where
  available : ∀ coin ∈ setCoins, coin ∈ (availableCoins env true).map COutput.coin
  sum : ∑ coin ∈ setCoins, coinValue env.mapWallet.wtx coin = nValueIn
  reached : nTargetValue ≤ nValueIn

theorem selectCoins_found {rnd : ℕ → SelectRandom} {nTargetValue nValueIn : ℤ}
    {setCoins : Finset Coin} (h : selectCoins env rnd nTargetValue = some (true,setCoins,nValueIn)) :
    Selection env nTargetValue setCoins nValueIn := by
  obtain ⟨k,nConfMine,nConfTheirs,hattempt⟩ := selectCoins_attempt env rnd nTargetValue
  rw [hattempt] at h
  obtain ⟨chosen,hchosen⟩ := (selectCoinsMinConf_ok h).found rfl
  obtain ⟨hsub,hsum⟩ := hchosen.set_sum (availableCoins_nodup true)
  refine ⟨fun coin hcoin => ?_,hsum,hchosen.reached⟩
  have hmem := List.mem_toFinset.mp (hsub hcoin)
  rw [eligibleCoins, List.map_map] at hmem
  exact (List.filter_sublist.map COutput.coin).subset hmem

theorem selectCoins_overflow {rnd : ℕ → SelectRandom} {nTargetValue : ℤ} (htarget : 0 ≤ nTargetValue)
    (h : selectCoins env rnd nTargetValue = none) : int64Max < nTargetValue+cent := by
  obtain ⟨k,nConfMine,nConfTheirs,hattempt⟩ := selectCoins_attempt env rnd nTargetValue
  rw [hattempt] at h
  by_contra hrange
  obtain ⟨out,hout⟩ := selectCoinsMinConf_isSome env.mapWallet.wtx (rnd k) nConfMine nConfTheirs
    (availableCoins env true) htarget (not_lt.mp hrange)
  rw [h] at hout
  cases hout

/-- The outputs for the payees, in their order. -/
def payees (vecSend : List (CScript × ℤ)) : List CTxOut := vecSend.map fun s => ⟨s.2, s.1⟩

theorem payeeOutputs_eq {fees : FeeParams} {vecSend : List (CScript × ℤ)} {vout vout' : List CTxOut}
    (h : payeeOutputs fees vecSend vout = (true,vout')) : vout' = vout ++ payees vecSend := by
  induction vecSend generalizing vout with
  | nil =>
    rw [payeeOutputs] at h
    rw [(Prod.mk.inj h).2, payees, List.map_nil, List.append_nil]
  | cons s vecSend ih =>
    rw [payeeOutputs] at h
    split_ifs at h
    · cases h
    · rw [ih h, payees, payees, List.map_cons, List.append_assoc]
      rfl

theorem sumAmounts_eq {vecSend : List (CScript × ℤ)} {nValue total : ℤ}
    (h : sumAmounts vecSend nValue = some total) :
    total = nValue+((payees vecSend).map CTxOut.nValue).sum := by
  induction vecSend generalizing nValue with
  | nil =>
    obtain rfl := Option.some.inj h
    exact (add_zero _).symm
  | cons s vecSend ih =>
    rw [sumAmounts] at h
    split_ifs at h
    rw [ih h, payees, payees, List.map_cons, List.map_cons, List.sum_cons, add_assoc]

/-- What moves between change and fee is not lost, and change that is left is no smaller than an
output may be. -/
theorem moveToFee_ok (fees : FeeParams) (nFeeRet : ℤ) {nChange : ℤ} (hchange : 0 ≤ nChange) :
    (moveToFee fees nFeeRet nChange).1+(moveToFee fees nFeeRet nChange).2 = nFeeRet+nChange ∧
    nFeeRet ≤ (moveToFee fees nFeeRet nChange).1 ∧ 0 ≤ (moveToFee fees nFeeRet nChange).2 ∧
    (0 < (moveToFee fees nFeeRet nChange).2 → minTxOutAmount ≤ (moveToFee fees nFeeRet nChange).2) := by
  have hsplit : ∃ moved, 0 ≤ moved ∧ moved ≤ nChange ∧ moveToFee fees nFeeRet nChange =
      if nChange-moved > 0 ∧ nChange-moved < minTxOutAmount then
        (nFeeRet+moved+(nChange-moved),0) else (nFeeRet+moved,nChange-moved) := by
    rw [moveToFee]
    by_cases hcent : nFeeRet < fees.nMinTxFee ∧ nChange > 0 ∧ nChange < cent
    · rw [if_pos hcent]
      exact ⟨min nChange (fees.nMinTxFee-nFeeRet),by omega,by omega,rfl⟩
    · rw [if_neg hcent]
      exact ⟨0,le_rfl,hchange,by rw [add_zero, sub_zero]⟩
  obtain ⟨moved,hpos,hle,heq⟩ := hsplit
  rw [heq]
  generalize minTxOutAmount = least
  split_ifs with hsmall
  · dsimp only
    omega
  · dsimp only
    omega

/-- The outputs a transaction can have: the payees in order, with at most one output for the change. -/
inductive Outputs (fees : FeeParams) (vecSend : List (CScript × ℤ)) (reservekey : CReserveKey) :
    List CTxOut → Prop
  | payees : reservekey.nIndex = -1 → Outputs fees vecSend reservekey (payees vecSend)
  | change (front back : List CTxOut) (txout : CTxOut) : payees vecSend = front ++ back →
      minTxOutAmount ≤ txout.nValue → isDust fees txout = false →
      Outputs fees vecSend reservekey (front ++ txout :: back)

/-- What `addChange` leaves: the change is in an output or in the fee. -/
structure ChangeOk (fees : FeeParams) (vecSend : List (CScript × ℤ)) (nChange : ℤ)
    (s s' : CreateState) : Prop where
  outputs : Outputs fees vecSend s'.reservekey s'.wtxNew.vout
  total : (s'.wtxNew.vout.map CTxOut.nValue).sum+s'.nFeeRet =
    (s.wtxNew.vout.map CTxOut.nValue).sum+s.nFeeRet+nChange
  fee : s.nFeeRet ≤ s'.nFeeRet
  turn : s'.nTurn = s.nTurn

/-- Change that is dust, or is nothing, goes to the fee and the key back to the pool. -/
theorem ChangeOk.to_fee {fees : FeeParams} {vecSend : List (CScript × ℤ)} {nChange : ℤ}
    {s t : CreateState} (hvout : s.wtxNew.vout = payees vecSend) (hchange : 0 ≤ nChange)
    (hsame : t.wtxNew = s.wtxNew) (hturn : t.nTurn = s.nTurn) (hfee : t.nFeeRet = s.nFeeRet+nChange) :
    ChangeOk fees vecSend nChange s (returnKey t) where
  outputs := by
    rw [show (returnKey t).wtxNew = s.wtxNew from hsame, hvout]
    exact Outputs.payees rfl
  total := by
    rw [show (returnKey t).wtxNew = s.wtxNew from hsame,
      show (returnKey t).nFeeRet = s.nFeeRet+nChange from hfee, add_assoc]
  fee := by
    rw [show (returnKey t).nFeeRet = s.nFeeRet+nChange from hfee]
    omega
  turn := hturn

theorem addChange_ok {vecSend : List (CScript × ℤ)} {position : ℕ} {nChange : ℤ} {s s' : CreateState}
    (h : addChange env position nChange s = (true,s')) (hvout : s.wtxNew.vout = payees vecSend)
    (hchange : 0 ≤ nChange) (hleast : 0 < nChange → minTxOutAmount ≤ nChange) :
    ChangeOk env.fees vecSend nChange s s' := by
  rw [addChange] at h
  by_cases hpos : nChange > 0
  · rw [if_pos hpos] at h
    dsimp only at h
    cases hkey : (s.reservekey.getReservedKey env.nTargetSize s.wallet).1 with
    | none =>
      rw [hkey] at h
      cases h
    | some key =>
      rw [hkey] at h
      dsimp only at h
      by_cases hdust : isDust env.fees ⟨nChange, scriptForKeyID (env.getID key)⟩ = true
      · rw [if_pos hdust] at h
        obtain rfl := (Prod.mk.inj h).2
        exact ChangeOk.to_fee hvout hchange rfl rfl rfl
      · rw [if_neg hdust] at h
        obtain rfl := (Prod.mk.inj h).2
        refine ⟨?_,?_,le_rfl,rfl⟩
        · refine Outputs.change _ _ _ ?_ (hleast hpos) (Bool.eq_false_iff.mpr hdust)
          rw [List.take_append_drop, hvout]
        -- wherever the change goes in, the sum is the same
        · generalize position % (s.wtxNew.vout.length+1) = place
          have hsplit : (s.wtxNew.vout.map CTxOut.nValue).sum =
              ((s.wtxNew.vout.take place).map CTxOut.nValue).sum+
                ((s.wtxNew.vout.drop place).map CTxOut.nValue).sum := by
            rw [← List.sum_append, ← List.map_append, List.take_append_drop]
          rw [List.map_append, List.sum_append, List.map_cons, List.sum_cons, hsplit]
          change _+(nChange+_)+s.nFeeRet = _
          ring
  · obtain rfl : nChange = 0 := by omega
    rw [if_neg hpos] at h
    obtain rfl := (Prod.mk.inj h).2
    exact ChangeOk.to_fee hvout le_rfl rfl rfl (add_zero _).symm

def prevouts (tx : CTransaction) : List COutPoint := tx.vin.map CTxIn.prevout

/-- Signing touches the scripts of the inputs only. -/
theorem signInputs_same (env : SpendEnv)
    (signSignature : CTransaction → CTransaction → ℕ → Bool × CScript) (coins : List Coin) (nIn : ℕ)
    (wtxNew : CTransaction) :
    (signInputs env signSignature coins nIn wtxNew).2.vout = wtxNew.vout ∧
      prevouts (signInputs env signSignature coins nIn wtxNew).2 = prevouts wtxNew := by
  induction coins generalizing nIn wtxNew with
  | nil => exact ⟨rfl,rfl⟩
  | cons coin coins ih =>
    have hprevouts (scriptSig : CScript) : (wtxNew.vin.modify nIn fun txin =>
        { txin with scriptSig := scriptSig }).map CTxIn.prevout = wtxNew.vin.map CTxIn.prevout := by
      apply List.ext_getElem?
      intro i
      rw [List.getElem?_map, List.getElem?_map, List.getElem?_modify]
      cases wtxNew.vin[i]? with
      | none => rfl
      | some txin => split_ifs <;> rfl
    rw [signInputs]
    dsimp only
    split_ifs
    · obtain ⟨hvout,hvin⟩ := ih (nIn+1) { wtxNew with
        vin := wtxNew.vin.modify nIn fun txin => { txin with
          scriptSig := (signSignature (env.mapWallet.wtx coin.1).tx wtxNew nIn).2 } }
      exact ⟨hvout,hvin.trans (hprevouts _)⟩
    · exact ⟨rfl,hprevouts _⟩

/-- The fee asked of a transaction of so many begun thousand bytes. -/
def feeAt (env : SpendEnv) (nThousands : ℕ) : ℤ :=
  max (env.nTransactionFee*nThousands)
    (if moneyRange (nThousands*env.fees.nMinTxFee) then nThousands*env.fees.nMinTxFee else maxMoney)

theorem moneyRange_neg {nValue : ℤ} (h : nValue < 0) : ¬ moneyRange nValue = true := by
  rw [moneyRange, Bool.and_eq_true, decide_eq_true_eq]
  exact fun hrange => absurd hrange.1 (not_le.mpr h)

/-- Outside of blocks the fee depends on the size only: the base fee is never below a cent's dust. -/
theorem getMinFee_send (fees : FeeParams) (tx : CTransaction) :
    tx.getMinFee fees 1 false .send =
      if moneyRange ((1+((tx.getSerializeSize/1000 : ℕ) : ℤ))*fees.nMinTxFee) then
        (1+((tx.getSerializeSize/1000 : ℕ) : ℤ))*fees.nMinTxFee else maxMoney := by
  rw [CTransaction.getMinFee]
  dsimp only
  have hmode : ¬ GetMinFeeMode.send = .relay := by decide
  have hfull : ¬ ((1 : ℕ) ≠ 1 ∧ 1+tx.getSerializeSize ≥ maxBlockSizeGen) := fun h => h.1 rfl
  have hnear : ¬ ((1 : ℕ) ≠ 1 ∧ 1+tx.getSerializeSize ≥ maxBlockSizeGen/2) := fun h => h.1 rfl
  rw [if_neg hmode, if_neg Bool.false_ne_true, if_neg hfull, if_neg hnear]
  generalize (tx.getSerializeSize/1000 : ℕ) = q
  generalize fees.nMinTxFee = nBaseFee
  by_cases hdust : (1+(q : ℤ))*nBaseFee < nBaseFee ∧
      tx.vout.any (fun txout => decide (txout.nValue < cent)) = true
  -- a base fee that the rule for dust could raise is negative, and out of range either way
  · have hneg : nBaseFee < 0 := by
      by_contra hpos
      have hle : nBaseFee ≤ (1+(q : ℤ))*nBaseFee :=
        le_mul_of_one_le_left (not_lt.mp hpos) (by omega)
      exact absurd hdust.1 (not_lt.mpr hle)
    rw [if_pos hdust, if_neg (moneyRange_neg hneg), if_neg (moneyRange_neg (hdust.1.trans hneg))]
  · rw [if_neg hdust]

theorem requiredFee_eq (env : SpendEnv) (tx : CTransaction) :
    requiredFee env tx = feeAt env (tx.getSerializeSize/1000+1) := by
  rw [requiredFee, feeAt, getMinFee_send, Nat.cast_add_one, add_comm 1]

theorem feeAt_nonneg (env : SpendEnv) (nThousands : ℕ) : 0 ≤ feeAt env nThousands := by
  rw [feeAt]
  apply le_max_of_le_right
  split_ifs with hrange
  · rw [moneyRange, Bool.and_eq_true, decide_eq_true_eq] at hrange
    exact hrange.1
  · decide

/-- The fees above `nFeeRet` that a transaction which is not too large can be asked for. -/
def feesLeft (env : SpendEnv) (nFeeRet : ℤ) : ℕ :=
  ((Finset.range 100).filter fun k => nFeeRet < feeAt env (k+1)).card

theorem feesLeft_le (env : SpendEnv) (nFeeRet : ℤ) : feesLeft env nFeeRet ≤ 100 :=
  (Finset.card_filter_le _ _).trans_eq (Finset.card_range 100)

theorem feesLeft_lt {nFeeRet : ℤ} {tx : CTransaction} (hsize : tx.getSerializeSize < maxStandardTxSize)
    (hfee : nFeeRet < requiredFee env tx) :
    feesLeft env (requiredFee env tx) < feesLeft env nFeeRet := by
  have hk : tx.getSerializeSize/1000 < 100 := by
    rw [show maxStandardTxSize = 100*1000 from rfl] at hsize
    exact Nat.div_lt_of_lt_mul (by omega)
  -- the fee that is asked for next is no longer above, and none is added
  apply Finset.card_lt_card
  rw [Finset.ssubset_iff_of_subset]
  · refine ⟨tx.getSerializeSize/1000,?_,?_⟩
    · rw [Finset.mem_filter, ← requiredFee_eq]
      exact ⟨Finset.mem_range.mpr hk,hfee⟩
    · rw [Finset.mem_filter, ← requiredFee_eq]
      exact fun h => lt_irrefl _ h.2
  · intro k hmem
    rw [Finset.mem_filter] at hmem ⊢
    exact ⟨hmem.1,hfee.trans hmem.2⟩

end Parts

section Turn
variable {env : SpendEnv} {rnd : ℕ → TurnRandom} {vecSend : List (CScript × ℤ)} {nValue : ℤ}

/-- The transaction spends just what it pays, to the payees, to the change and as a fee. -/
structure Balanced (env : SpendEnv) (vecSend : List (CScript × ℤ)) (s : CreateState)
    (setCoins : Finset Coin) : Prop where
  inputs : prevouts s.wtxNew = (setOrder env setCoins).map fun coin => ⟨coin.1, coin.2⟩
  available : ∀ coin ∈ setCoins, coin ∈ (availableCoins env true).map COutput.coin
  balance : ∑ coin ∈ setCoins, coinValue env.mapWallet.wtx coin =
    (s.wtxNew.vout.map CTxOut.nValue).sum+s.nFeeRet
  outputs : Outputs env.fees vecSend s.reservekey s.wtxNew.vout

/-- What a turn can come to. -/
inductive TurnOk (env : SpendEnv) (rnd : ℕ → TurnRandom) (vecSend : List (CScript × ℤ)) (nValue : ℤ)
    (s : CreateState) : CreateState ⊕ (CreateEnd × CreateState) → Prop
  | ended (ret : CreateEnd) (s' : CreateState) : ret ≠ .created → ret ≠ .overflow →
      TurnOk env rnd vecSend nValue s (.inr (ret,s'))
  | overflow (s' : CreateState) : s'.nFeeRet = s.nFeeRet →
      selectCoins env (rnd s.nTurn).select (nValue+s.nFeeRet) = none →
      TurnOk env rnd vecSend nValue s (.inr (.overflow,s'))
  | again (s' : CreateState) : s.nFeeRet ≤ s'.nFeeRet →
      s'.wtxNew.getSerializeSize < maxStandardTxSize → s'.nFeeRet < requiredFee env s'.wtxNew →
      TurnOk env rnd vecSend nValue s
        (.inl { s' with nFeeRet := requiredFee env s'.wtxNew, nTurn := s'.nTurn+1 })
  | created (s' : CreateState) (setCoins : Finset Coin) : Balanced env vecSend s' setCoins →
      requiredFee env s'.wtxNew ≤ s'.nFeeRet →
      TurnOk env rnd vecSend nValue s (.inr (.created,s'))

theorem fillVin_prevouts {setCoins : Finset Coin}
    (havailable : ∀ coin ∈ setCoins, coin ∈ (availableCoins env true).map COutput.coin) :
    (fillVin env (setOrder env setCoins)).map CTxIn.prevout =
      (setOrder env setCoins).map fun coin => ⟨coin.1, coin.2⟩ := by
  rw [fillVin, List.map_map]
  refine List.map_congr_left fun coin hcoin => ?_
  obtain ⟨output,hout,rfl⟩ := List.mem_map.mp (havailable coin ((Finset.mem_sort _).mp hcoin))
  exact congrArg (COutPoint.mk · _) (env.mapWallet.hash_eq _ (mem_keys_of_available hout))

theorem finishTurn_ok {draws : TurnRandom} {setCoins : Finset Coin} {s s' : CreateState}
    (havailable : ∀ coin ∈ setCoins, coin ∈ (availableCoins env true).map COutput.coin)
    (hbalance : ∑ coin ∈ setCoins, coinValue env.mapWallet.wtx coin =
      (s'.wtxNew.vout.map CTxOut.nValue).sum+s'.nFeeRet)
    (houtputs : Outputs env.fees vecSend s'.reservekey s'.wtxNew.vout)
    (hfee : s.nFeeRet ≤ s'.nFeeRet) :
    TurnOk env rnd vecSend nValue s (finishTurn env draws (setOrder env setCoins) s') := by
  obtain ⟨hvout,hvin⟩ := signInputs_same env draws.signSignature (setOrder env setCoins) 0
    { s'.wtxNew with vin := fillVin env (setOrder env setCoins) }
  rw [finishTurn]
  generalize signInputs env draws.signSignature (setOrder env setCoins) 0
    { s'.wtxNew with vin := fillVin env (setOrder env setCoins) } = signed at hvout hvin ⊢
  obtain ⟨fSigned,wtxNew⟩ := signed
  dsimp only at hvout hvin ⊢
  split_ifs with hsigned hsize hshort
  · exact TurnOk.ended _ _ CreateEnd.noConfusion CreateEnd.noConfusion
  · exact TurnOk.ended _ _ CreateEnd.noConfusion CreateEnd.noConfusion
  · exact TurnOk.again { s' with wtxNew := wtxNew } hfee (not_le.mp hsize) hshort
  · refine TurnOk.created { s' with wtxNew := wtxNew } setCoins ⟨?_,havailable,?_,?_⟩
      (not_lt.mp hshort)
    · exact hvin.trans (fillVin_prevouts havailable)
    · rw [hbalance, hvout]
    · rw [hvout]
      exact houtputs

theorem createTurn_ok (env : SpendEnv) (rnd : ℕ → TurnRandom)
    (hvalue : nValue = ((payees vecSend).map CTxOut.nValue).sum) (s : CreateState) :
    TurnOk env rnd vecSend nValue s (createTurn env rnd vecSend nValue s) := by
  rw [createTurn]
  cases hpay : payeeOutputs env.fees vecSend [] with
  | mk fPaid vout =>
  cases fPaid with
  | false => exact TurnOk.ended _ _ CreateEnd.noConfusion CreateEnd.noConfusion
  | true =>
  obtain rfl : vout = payees vecSend := payeeOutputs_eq hpay
  dsimp only
  rw [Bool.not_true, if_neg Bool.false_ne_true]
  cases hselect : selectCoins env (rnd s.nTurn).select (nValue+s.nFeeRet) with
  | none => exact TurnOk.overflow _ rfl hselect
  | some found =>
  obtain ⟨ok,setCoins,nValueIn⟩ := found
  cases ok with
  | false => exact TurnOk.ended _ _ CreateEnd.noConfusion CreateEnd.noConfusion
  | true =>
  have hcoins := selectCoins_found hselect
  have hreached := hcoins.reached
  have hchange : 0 ≤ nValueIn-nValue-s.nFeeRet := by omega
  obtain ⟨hmoved,hfee,hpos,hleast⟩ := moveToFee_ok env.fees s.nFeeRet hchange
  dsimp only
  generalize moveToFee env.fees s.nFeeRet (nValueIn-nValue-s.nFeeRet) = moved at *
  cases hkey : addChange env (rnd s.nTurn).position moved.2 { s with
      nFeeRet := moved.1, wtxNew := { s.wtxNew with vin := [], vout := payees vecSend } } with
  | mk fKey s' =>
  cases fKey with
  | false => exact TurnOk.ended _ _ CreateEnd.noConfusion CreateEnd.noConfusion
  | true =>
  -- what comes in is the payees, the fee and the change
  have hadded := addChange_ok hkey rfl hpos hleast
  have htotal := hadded.total
  refine finishTurn_ok hcoins.available ?_ hadded.outputs (hfee.trans hadded.fee)
  rw [hcoins.sum, htotal]
  change nValueIn = ((payees vecSend).map CTxOut.nValue).sum+moved.1+moved.2
  omega

theorem createTurn_again (hvalue : nValue = ((payees vecSend).map CTxOut.nValue).sum)
    {s s' : CreateState} (h : createTurn env rnd vecSend nValue s = .inl s') :
    0 ≤ s'.nFeeRet ∧ feesLeft env s'.nFeeRet < feesLeft env s.nFeeRet := by
  have hturn := createTurn_ok env rnd hvalue s
  rw [h] at hturn
  cases hturn with
  | again t hfee hsize hshort =>
    refine ⟨?_,feesLeft_lt hsize (hfee.trans_lt hshort)⟩
    rw [requiredFee_eq]
    exact feeAt_nonneg env _

/-- The loop ends, a transaction that is created is balanced and pays its fee, and without change no
key of the pool is held; the coins cannot be summed up only where the target leaves 63 bits. -/
theorem created_transaction_balances (env : SpendEnv) (rnd : ℕ → TurnRandom)
    (vecSend : List (CScript × ℤ)) (start : CreateState) (hfee : 0 ≤ env.nTransactionFee) :
    ∃ ret s, createTransaction env rnd vecSend start = some (ret,s) ∧
      (ret = .created → ∃ setCoins, Balanced env vecSend s setCoins ∧
        max (env.nTransactionFee*(1+((s.wtxNew.getSerializeSize/1000 : ℕ) : ℤ)))
          (s.wtxNew.getMinFee env.fees 1 false .send) ≤ s.nFeeRet) ∧
      (ret = .overflow →
        int64Max < ((payees vecSend).map CTxOut.nValue).sum+s.nFeeRet+cent) := by
  rw [createTransaction]
  cases hsum : sumAmounts vecSend 0 with
  | none => exact ⟨_,_,rfl,CreateEnd.noConfusion,CreateEnd.noConfusion⟩
  | some nValue =>
    dsimp only
    split_ifs with hbad
    · exact ⟨_,_,rfl,CreateEnd.noConfusion,CreateEnd.noConfusion⟩
    have hvalue : nValue = ((payees vecSend).map CTxOut.nValue).sum := by
      rw [sumAmounts_eq hsum, zero_add]
    have hpos : 0 ≤ nValue := by
      by_contra hneg
      exact hbad (Or.inr (not_le.mp hneg))
    -- every turn asks for a larger fee, and there is one fee for each thousand bytes
    obtain ⟨⟨ret,s⟩,hrun⟩ := turnLoop_halts (createTurn env rnd vecSend nValue)
      (I := fun s => 0 ≤ s.nFeeRet) (fun s => feesLeft env s.nFeeRet)
      (fun _ _ _ hturn => createTurn_again hvalue hturn)
      (show (0 : ℤ) ≤ ({ start with nTurn := 0, nFeeRet := env.nTransactionFee } :
        CreateState).nFeeRet from hfee) (Nat.lt_succ_of_le (feesLeft_le env env.nTransactionFee))
    obtain ⟨last,hturns,hlast⟩ := turnLoop_eq_some hrun
    have hnonneg : 0 ≤ last.nFeeRet :=
      hturns.induct (I := fun s => 0 ≤ s.nFeeRet) hfee fun _ _ _ hturn =>
        (createTurn_again hvalue hturn).1
    have hok := createTurn_ok env rnd hvalue last
    refine ⟨ret,s,hrun,?_⟩
    rw [hlast] at hok
    cases hok with
    | ended _ _ hcreated hoverflow =>
      exact ⟨fun h => absurd h hcreated,fun h => absurd h hoverflow⟩
    | overflow _ hsame hnone =>
      refine ⟨CreateEnd.noConfusion,fun _ => ?_⟩
      rw [hsame, ← hvalue]
      exact selectCoins_overflow (by omega) hnone
    | created _ setCoins hbalanced hpaid =>
      exact ⟨fun _ => ⟨setCoins,hbalanced,hpaid⟩,CreateEnd.noConfusion⟩

end Turn

section Examples

/-- A wallet with one confirmed coin. -/
def testSpendEnv : SpendEnv where
  mapWallet :=
    { txHash := fun _ => 7
      keys := [7]
      wtx := fun _ => ⟨⟨1, [⟨⟨1, 0⟩, [], 0⟩], [⟨coin, []⟩], 0⟩, [], 10, true, true, false⟩
      nodup := List.nodup_singleton 7
      hash_eq := fun _ h => (List.mem_singleton.mp h).symm }
  setLockedCoins := []
  isMine _ := true
  addr := BitVec.toNat
  addr_inj _ _ h := BitVec.eq_of_toNat_eq h
  getID _ := List.replicate 20 0
  nTransactionFee := 0
  fees := defaultFees
  nTargetSize := 1

def testDraws (_ : ℕ) : TurnRandom := ⟨fun _ => testRandom, 1, fun _ _ _ => (true, List.replicate 107 0)⟩

def testPayees : List (CScript × ℤ) := [(List.replicate 25 0, 50*cent)]

def testCreate : CreateState := ⟨0, 0, ⟨1, [], [], 0⟩, CReserveKey.empty, emptyWallet⟩

/-- The first turn has no fee; the second one pays it. -/
theorem created_transaction_balances_retry : ∃ s setCoins,
    createTransaction testSpendEnv testDraws testPayees testCreate = some (.created,s) ∧
      Balanced testSpendEnv testPayees s setCoins := by
  obtain ⟨ret,s,hcall,hcreated,-⟩ :=
    created_transaction_balances testSpendEnv testDraws testPayees testCreate (le_refl 0)
  have hret : (createTransaction testSpendEnv testDraws testPayees testCreate).map Prod.fst =
      some .created := by
    decide +kernel
  rw [hcall] at hret
  obtain rfl : ret = .created := Option.some.inj hret
  obtain ⟨setCoins,hbalanced,-⟩ := hcreated rfl
  exact ⟨s,setCoins,hcall,hbalanced⟩

end Examples
end Candypool.Wallet
