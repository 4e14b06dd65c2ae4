import Candypool.Core.Transaction
import Mathlib.Algebra.Order.Floor.Ring
import Mathlib.Data.Rat.Floor
import Mathlib.Tactic.Linarith

/-! Payouts: what the users are owed is a table of the database, and what they are paid goes out on
the chain. A database statement that throws leaves the database as it was, but takes nothing back
that was sent. Amounts of the database are rationals in place of doubles. -/
namespace Candypool.Pool
open Candypool.Core

structure WalletRow where
  user_id : ℕ
  amount : ℚ
  payoutadress : String
  deriving DecidableEq, Repr

/-- The table `wallet`, with its unique key. -/
structure WalletTable where
  rows : List WalletRow
  unique : (rows.map WalletRow.user_id).Nodup

structure JournalRow where
  user : ℕ
  value : ℚ
  deriving DecidableEq, Repr

/-- The database, and two totals that no code reads: what went out on the chain for a user, in the
smallest unit, and what the wallet row of a user was credited. -/
structure PayState where
  wallet : WalletTable
  journal : List JournalRow
  instant_payout_queue : List ℕ
  sent : ℕ → ℤ
  credited : ℕ → ℚ

namespace WalletTable

/-- The rows of one user. -/
def ofUser (t : WalletTable) (user : ℕ) : List WalletRow := t.rows.filter (·.user_id = user)

/-- `UPDATE` of the amount of one user. -/
def update (t : WalletTable) (user : ℕ) (amount : ℚ → ℚ) : WalletTable where
  rows := t.rows.map fun row =>
    if row.user_id = user then { row with amount := amount row.amount } else row
  unique := by
    have hids : (t.rows.map fun row => if row.user_id = user then
        { row with amount := amount row.amount } else row).map WalletRow.user_id =
        t.rows.map WalletRow.user_id := by
      rw [List.map_map]
      apply List.map_congr_left
      intro row _
      dsimp only [Function.comp]
      split_ifs <;> rfl
    rw [hids]
    exact t.unique

def balance (t : WalletTable) (user : ℕ) : ℚ := ((t.ofUser user).map WalletRow.amount).sum

end WalletTable

/-- The outcomes of one `xptServer_payOut` call: which statements go through, and what the node's
wallet says. There is no balance if the wallet is null. -/
structure PayOutIO where
  select : Bool
  getBalance : Option ℤ
  nFeeRequired : ℤ
  nTransactionFee : ℤ
  sendMoney : Bool
  insert : Bool
  update : Bool

/-- The return value, or an exception that the callers do not catch. -/
inductive PayOutResult
  | success
  | failure
  | jsonRpcError
  deriving DecidableEq, Repr

/-- `none` is the exception for an invalid amount. -/
def amountFromValue (dAmount : ℚ) : Option ℤ :=
  if dAmount ≤ 0 ∨ dAmount > 21000000 then none
  else
    let nAmount := ⌊dAmount*coin+1/2⌋
    if moneyRange nAmount then some nAmount else none

/-- Whether the coins are sent. -/
def sendMoneyToDestination (io : PayOutIO) (balance nValue : ℤ) : Bool :=
  if nValue ≤ 0 then false
  else if nValue+io.nTransactionFee > balance then false
  else io.sendMoney

/-- The outcomes of one round. The calls of the first loop are counted, those of the second are
counted for each entry of the queue. -/
structure PayWalletIO where
  selectWallets : Bool
  payOut : ℕ → PayOutIO
  selectQueue : Bool
  selectWallet : ℕ → Bool
  instantPayOut : ℕ → ℕ → PayOutIO
  dropInstant : ℕ → ℕ → Bool

/-- A loop over rows, which an exception ends. -/
def forRows {α : Type} (body : ℕ → α → PayState → Bool × PayState) :
    ℕ → List α → PayState → Bool × PayState
  | _, [], s => (true, s)
  | i, row :: rows, s => match body i row s with
    | (true, s) => forRows body (i+1) rows s
    | (false, s) => (false, s)

section Defs
variable (isValid : String → Bool)

/-- The first part of `xptServer_payOut`, up to the point where the coins are on the chain. -/
def preparePayOut (io : PayOutIO) (user_id : ℕ) (s : PayState) :
    Except PayOutResult (WalletRow × ℤ) :=
  if !io.select then .error .failure
  else match s.wallet.ofUser user_id with
    | [wallet] =>
      if wallet.payoutadress = "" then .error .failure
      else if !isValid wallet.payoutadress then .error .failure
      -- minimum is 0.02 XPM
      else if wallet.amount < 1/50 then .error .failure
      else match io.getBalance, amountFromValue wallet.amount with
        | none, _ => .error .failure
        | some _, none => .error .jsonRpcError
        | some balance, some nAmount =>
          if nAmount > balance then .error .failure
          else if !sendMoneyToDestination io balance (nAmount-io.nFeeRequired) then .error .failure
          else .ok (wallet, nAmount-io.nFeeRequired)
    | _ => .error .failure

def PayState.send (s : PayState) (user : ℕ) (nAmount : ℤ) : PayState :=
  { s with sent := Function.update s.sent user (s.sent user+nAmount) }

def payOut (io : PayOutIO) (user_id : ℕ) (s : PayState) : PayOutResult × PayState :=
  match preparePayOut isValid io user_id s with
  | .error result => (result, s)
  | .ok (wallet, nAmount) =>
    let s := s.send user_id nAmount
    -- mark in journal
    if !io.insert then (.failure, s)
    else
      let s := { s with journal := s.journal ++ [⟨wallet.user_id, -wallet.amount⟩] }
      -- update wallet
      if !io.update then (.failure, s)
      else (.success, { s with wallet := s.wallet.update wallet.user_id fun _ => 0 })

/-- One turn of the loop over the wallets with more than 3 XPM. -/
def thresholdTurn (io : PayWalletIO) (i : ℕ) (wallet : WalletRow) (s : PayState) : Bool × PayState :=
  match payOut isValid (io.payOut i) wallet.user_id s with
  | (.jsonRpcError, s) => (false, s)
  | (_, s) => (true, s)

/-- One turn of the loop over the wallets of a user in the queue. -/
def instantTurn (io : PayWalletIO) (i j : ℕ) (wallet : WalletRow) (s : PayState) :
    Bool × PayState :=
  match payOut isValid (io.instantPayOut i j) wallet.user_id s with
  | (.jsonRpcError, s) => (false, s)
  | (_, s) =>
    -- remove from queue
    if !io.dropInstant i j then (false, s)
    else (true, { s with
      instant_payout_queue := s.instant_payout_queue.filter (· ≠ wallet.user_id) })

/-- One turn of the loop over the queue. -/
def queueTurn (io : PayWalletIO) (i : ℕ) (user : ℕ) (s : PayState) : Bool × PayState :=
  if !io.selectWallet i then (false, s)
  else forRows (instantTurn isValid io i) 0
    ((s.wallet.ofUser user).filter fun row => 1/50 ≤ row.amount ∧ row.payoutadress ≠ "") s

/-- The wallets of the first loop. -/
def overThreshold (s : PayState) : List WalletRow :=
  s.wallet.rows.filter fun row => 3 ≤ row.amount ∧ row.payoutadress ≠ ""

/-- One round. Whether it got to its end. -/
def payWallet (io : PayWalletIO) (s : PayState) : Bool × PayState :=
  if !io.selectWallets then (false, s)
  else match forRows (thresholdTurn isValid io) 0 (overThreshold s) s with
    | (false, s) => (false, s)
    | (true, s) =>
      if !io.selectQueue then (false, s)
      else forRows (queueTurn isValid io) 0 s.instant_payout_queue s

/-- A round, a credit to a user's row, or a user that asks for an instant payout. -/
inductive PayOp
  | payWallet (io : PayWalletIO)
  | credit (user : ℕ) (value : ℚ)
  | requestInstant (user : ℕ)

def PayOp.exec (s : PayState) : PayOp → PayState
  | .payWallet io => (Pool.payWallet isValid io s).2
  | .credit user value =>
    if s.wallet.ofUser user = [] then s
    else { s with
      wallet := s.wallet.update user (·+value)
      credited := Function.update s.credited user (s.credited user+value) }
  | .requestInstant user => { s with instant_payout_queue := s.instant_payout_queue ++ [user] }

end Defs

section Loop
variable {α : Type} {body : ℕ → α → PayState → Bool × PayState}

/-- Every turn that the loop makes meets `P`. -/
def EachTurn (body : ℕ → α → PayState → Bool × PayState) (P : ℕ → α → PayState → Prop) :
    ℕ → List α → PayState → Prop
  | _, [], _ => True
  | i, row :: rows, s =>
    P i row s ∧ ((body i row s).1 = true → EachTurn body P (i+1) rows (body i row s).2)

/-- The rule of a loop over rows. -/
theorem forRows_rule {Q : PayState → Prop} {P : ℕ → α → PayState → Prop}
    (hbody : ∀ i row s, Q s → P i row s → Q (body i row s).2) {i : ℕ} {rows : List α} {s : PayState}
    (hQ : Q s) (heach : EachTurn body P i rows s) : Q (forRows body i rows s).2 := by
  induction rows generalizing i s with
  | nil => exact hQ
  | cons row rows ih =>
    obtain ⟨hP,hrest⟩ := heach
    have hstep := hbody i row s hQ hP
    rw [forRows]
    generalize body i row s = r at hrest hstep
    obtain ⟨goes,s1⟩ := r
    cases goes with
    | false => exact hstep
    | true => exact ih hstep (hrest rfl)

theorem eachTurn_of_forall {P : ℕ → α → PayState → Prop} (h : ∀ i row s, P i row s) {i : ℕ}
    {rows : List α} {s : PayState} : EachTurn body P i rows s := by
  induction rows generalizing i s with
  | nil => trivial
  | cons row rows ih => exact ⟨h i row s, fun _ => ih⟩

end Loop

section Condition
variable (isValid : String → Bool)

/-- After the coins are sent both statements go through, and the fee makes up for what the amount
was rounded up. -/
def Settles (io : PayOutIO) (user : ℕ) (s : PayState) : Prop :=
  ∀ wallet nAmount, preparePayOut isValid io user s = .ok (wallet,nAmount) →
    io.insert = true ∧ io.update = true ∧ (nAmount : ℚ) ≤ wallet.amount*coin

/-- The calls for an entry of the queue settle. -/
def QueueSettles (io : PayWalletIO) (i user : ℕ) (s : PayState) : Prop :=
  io.selectWallet i = true → EachTurn (instantTurn isValid io i)
    (fun j wallet s => Settles isValid (io.instantPayOut i j) wallet.user_id s) 0
    ((s.wallet.ofUser user).filter fun row => 1/50 ≤ row.amount ∧ row.payoutadress ≠ "") s

/-- All calls that a round makes settle. -/
def RoundSettles (io : PayWalletIO) (s : PayState) : Prop :=
  io.selectWallets = true →
    EachTurn (thresholdTurn isValid io)
      (fun i wallet s => Settles isValid (io.payOut i) wallet.user_id s) 0 (overThreshold s) s ∧
    ∀ s1, forRows (thresholdTurn isValid io) 0 (overThreshold s) s = (true,s1) →
      io.selectQueue = true →
      EachTurn (queueTurn isValid io) (QueueSettles isValid io) 0 s1.instant_payout_queue s1

/-- What a run has to meet: rounds settle, and a credit is not negative. -/
def PayOp.Meets (s : PayState) : PayOp → Prop
  | .payWallet io => RoundSettles isValid io s
  | .credit _ value => 0 ≤ value
  | .requestInstant _ => True

/-- The states that a sequence of rounds and credits can reach. -/
inductive PayRun (ok : PayState → PayOp → Prop) (start : PayState) : PayState → Prop
  | start : PayRun ok start start
  | step {s : PayState} (op : PayOp) (rest : PayRun ok start s) (meets : ok s op) :
      PayRun ok start (op.exec isValid s)

end Condition

/-- Nothing was sent so far, and what is in the table is what was credited. -/
structure Opened (s : PayState) : Prop where
  sent : ∀ user, s.sent user = 0
  credited : ∀ user, s.credited user = s.wallet.balance user
  nonneg : ∀ row ∈ s.wallet.rows, 0 ≤ row.amount

/-- What was sent and what is still owed was credited. -/
structure Covered (s : PayState) : Prop where
  total : ∀ user, (s.sent user : ℚ)+s.wallet.balance user*coin ≤ s.credited user*coin
  nonneg : ∀ row ∈ s.wallet.rows, 0 ≤ row.amount

section Table
variable {t : WalletTable} {user user' : ℕ} {amount : ℚ → ℚ}

theorem WalletTable.mem_ofUser {row : WalletRow} :
    row ∈ t.ofUser user ↔ row ∈ t.rows ∧ row.user_id = user := by
  rw [WalletTable.ofUser, List.mem_filter, decide_eq_true_eq]

/-- The key leaves at most one row for a user. -/
theorem WalletTable.ofUser_cases (t : WalletTable) (user : ℕ) :
    t.ofUser user = [] ∨ ∃ row, t.ofUser user = [row] := by
  have hnodup : ((t.ofUser user).map WalletRow.user_id).Nodup :=
    t.unique.sublist (List.filter_sublist.map _)
  have hsame : ∀ row ∈ t.ofUser user, row.user_id = user := fun row hrow =>
    (WalletTable.mem_ofUser.mp hrow).2
  cases hrows : t.ofUser user with
  | nil => exact Or.inl rfl
  | cons a rest =>
    refine Or.inr ⟨a, ?_⟩
    cases rest with
    | nil => rfl
    | cons b rest =>
      rw [hrows] at hnodup hsame
      have ha := hsame a List.mem_cons_self
      have hb := hsame b (List.mem_cons_of_mem _ List.mem_cons_self)
      rw [List.map_cons, List.map_cons, ha, hb, List.nodup_cons] at hnodup
      exact absurd List.mem_cons_self hnodup.1

theorem WalletTable.update_ofUser (t : WalletTable) (user user' : ℕ) (amount : ℚ → ℚ) :
    (t.update user amount).ofUser user' = if user' = user then
      (t.ofUser user').map fun row => { row with amount := amount row.amount }
    else t.ofUser user' := by
  rw [WalletTable.ofUser, WalletTable.ofUser]
  change (t.rows.map _).filter _ = _
  induction t.rows with
  | nil => split_ifs <;> rfl
  | cons row rows ih =>
    rw [List.map_cons]
    by_cases hrow : row.user_id = user'
    · by_cases huser : user' = user
      · rw [if_pos huser] at ih ⊢
        rw [if_pos (hrow.trans huser), List.filter_cons_of_pos (by simpa using hrow),
          List.filter_cons_of_pos (by simpa using hrow), List.map_cons, ih]
      · rw [if_neg huser] at ih ⊢
        rw [if_neg (by rw [hrow]; exact huser), List.filter_cons_of_pos (by simpa using hrow),
          List.filter_cons_of_pos (by simpa using hrow), ih]
    · rw [List.filter_cons_of_neg (by split_ifs <;> simpa using hrow),
        List.filter_cons_of_neg (by simpa using hrow), ih]

theorem WalletTable.balance_nil (h : t.ofUser user = []) : t.balance user = 0 := by
  rw [WalletTable.balance, h]
  rfl

theorem WalletTable.balance_row {row : WalletRow} (h : t.ofUser user = [row]) :
    t.balance user = row.amount := by
  rw [WalletTable.balance, h, List.map_singleton, List.sum_singleton]

theorem WalletTable.balance_update_ne (h : user' ≠ user) :
    (t.update user amount).balance user' = t.balance user' := by
  rw [WalletTable.balance, WalletTable.update_ofUser, if_neg h, WalletTable.balance]

theorem WalletTable.balance_update {row : WalletRow} (h : t.ofUser user = [row]) :
    (t.update user amount).balance user = amount row.amount := by
  rw [WalletTable.balance, WalletTable.update_ofUser, if_pos rfl, h]
  exact add_zero _

theorem WalletTable.update_nonneg (hamount : ∀ x, 0 ≤ x → 0 ≤ amount x)
    (h : ∀ row ∈ t.rows, 0 ≤ row.amount) : ∀ row ∈ (t.update user amount).rows, 0 ≤ row.amount := by
  intro row hrow
  obtain ⟨row',hrow',rfl⟩ := List.mem_map.mp hrow
  split_ifs
  · exact hamount _ (h row' hrow')
  · exact h row' hrow'

end Table

section Steps
variable {isValid : String → Bool} {s : PayState}

/-- What is sent is the amount of the one row of the user less the fee. -/
theorem preparePayOut_ok {io : PayOutIO} {user : ℕ} {wallet : WalletRow} {nAmount : ℤ}
    (h : preparePayOut isValid io user s = .ok (wallet,nAmount)) :
    s.wallet.ofUser user = [wallet] ∧
      ∃ n, amountFromValue wallet.amount = some n ∧ nAmount = n-io.nFeeRequired := by
  rw [preparePayOut] at h
  split_ifs at h
  split at h
  · rename_i row hrow
    split_ifs at h
    split at h
    · cases h
    · cases h
    · rename_i n _ hamount
      split_ifs at h
      obtain ⟨rfl,rfl⟩ := Prod.mk.inj (Except.ok.inj h)
      exact ⟨hrow, n, hamount, rfl⟩
  · cases h

/-- A fee of one unit makes up for the rounding. -/
theorem amountFromValue_fee {dAmount : ℚ} {nAmount nFee : ℤ} (h : amountFromValue dAmount = some nAmount)
    (hfee : 1 ≤ nFee) : ((nAmount-nFee : ℤ) : ℚ) ≤ dAmount*coin := by
  rw [amountFromValue] at h
  dsimp only at h
  split_ifs at h
  obtain rfl := Option.some.inj h
  have hfloor := Int.floor_le (dAmount*coin+1/2)
  have hfee' : (1 : ℚ) ≤ nFee := by exact_mod_cast hfee
  rw [Int.cast_sub]
  linarith

/-- A call with a fee settles if its statements go through. -/
theorem settles_of_fee {io : PayOutIO} (hinsert : io.insert = true) (hupdate : io.update = true)
    (hfee : 1 ≤ io.nFeeRequired) (user : ℕ) (s : PayState) : Settles isValid io user s := by
  intro wallet nAmount h
  obtain ⟨-,n,hamount,rfl⟩ := preparePayOut_ok h
  exact ⟨hinsert, hupdate, amountFromValue_fee hamount hfee⟩

/-- A call that settles keeps the books. -/
theorem payOut_covered {io : PayOutIO} {user : ℕ} (h : Covered s) (hsettles : Settles isValid io user s) :
    Covered (payOut isValid io user s).2 := by
  rw [payOut]
  cases hprepare : preparePayOut isValid io user s with
  | error result => exact h
  | ok payment =>
    obtain ⟨wallet,nAmount⟩ := payment
    obtain ⟨hinsert,hupdate,hle⟩ := hsettles wallet nAmount hprepare
    obtain ⟨hrow,-⟩ := preparePayOut_ok hprepare
    have hid : wallet.user_id = user := by
      have hmem : wallet ∈ s.wallet.ofUser user := by
        rw [hrow]
        exact List.mem_singleton_self wallet
      exact (WalletTable.mem_ofUser.mp hmem).2
    dsimp only
    rw [hinsert, hupdate, hid, Bool.not_true, if_neg Bool.false_ne_true, if_neg Bool.false_ne_true]
    constructor
    · intro user'
      have htotal := h.total user'
      change ((Function.update s.sent user (s.sent user+nAmount) user' : ℤ) : ℚ)+
        (s.wallet.update user fun _ => 0).balance user'*coin ≤ s.credited user'*coin
      by_cases huser : user' = user
      · rw [huser] at htotal ⊢
        rw [WalletTable.balance_row hrow] at htotal
        rw [Function.update_self, WalletTable.balance_update hrow, Int.cast_add]
        linarith
      · rw [Function.update_of_ne huser, WalletTable.balance_update_ne huser]
        exact htotal
    · exact WalletTable.update_nonneg (fun _ _ => le_rfl) h.nonneg

theorem thresholdTurn_covered {io : PayWalletIO} (i : ℕ) (wallet : WalletRow) (s : PayState)
    (h : Covered s) (hsettles : Settles isValid (io.payOut i) wallet.user_id s) :
    Covered (thresholdTurn isValid io i wallet s).2 := by
  have hpay := payOut_covered h hsettles
  rw [thresholdTurn]
  generalize payOut isValid (io.payOut i) wallet.user_id s = r at hpay
  obtain ⟨result,s1⟩ := r
  cases result <;> exact hpay

theorem instantTurn_covered {io : PayWalletIO} (i j : ℕ) (wallet : WalletRow) (s : PayState)
    (h : Covered s) (hsettles : Settles isValid (io.instantPayOut i j) wallet.user_id s) :
    Covered (instantTurn isValid io i j wallet s).2 := by
  have hpay := payOut_covered h hsettles
  rw [instantTurn]
  generalize payOut isValid (io.instantPayOut i j) wallet.user_id s = r at hpay
  obtain ⟨result,s1⟩ := r
  cases result
  case jsonRpcError => exact hpay
  all_goals
    dsimp only
    split_ifs
    · exact hpay
    · exact ⟨hpay.total, hpay.nonneg⟩

theorem queueTurn_covered {io : PayWalletIO} (i user : ℕ) (s : PayState) (h : Covered s)
    (hsettles : QueueSettles isValid io i user s) : Covered (queueTurn isValid io i user s).2 := by
  rw [queueTurn]
  by_cases hselect : io.selectWallet i = true
  · rw [hselect, Bool.not_true, if_neg Bool.false_ne_true]
    exact forRows_rule (fun j wallet s hs => instantTurn_covered i j wallet s hs) h (hsettles hselect)
  · rw [if_pos (by simpa using hselect)]
    exact h

theorem payWallet_covered {io : PayWalletIO} (h : Covered s) (hsettles : RoundSettles isValid io s) :
    Covered (payWallet isValid io s).2 := by
  rw [payWallet]
  by_cases hselect : io.selectWallets = true
  swap
  · rw [if_pos (by simpa using hselect)]
    exact h
  obtain ⟨hthreshold,hqueue⟩ := hsettles hselect
  have hfirst := forRows_rule (fun i wallet s hs => thresholdTurn_covered i wallet s hs) h hthreshold
  rw [hselect, Bool.not_true, if_neg Bool.false_ne_true]
  generalize forRows (thresholdTurn isValid io) 0 (overThreshold s) s = r at hfirst hqueue
  obtain ⟨goes,s1⟩ := r
  cases goes with
  | false => exact hfirst
  | true =>
    dsimp only
    by_cases hselect' : io.selectQueue = true
    · rw [hselect', Bool.not_true, if_neg Bool.false_ne_true]
      exact forRows_rule (fun i user s hs => queueTurn_covered i user s hs) hfirst
        (hqueue s1 rfl hselect')
    · rw [if_pos (by simpa using hselect')]
      exact hfirst

theorem PayOp.exec_covered {op : PayOp} (h : Covered s) (hmeets : op.Meets isValid s) :
    Covered (op.exec isValid s) := by
  cases op with
  | payWallet io => exact payWallet_covered h hmeets
  | credit user value =>
    have hvalue : 0 ≤ value := hmeets
    rw [PayOp.exec]
    split_ifs with hnone
    · exact h
    obtain ⟨row,hrow⟩ := (s.wallet.ofUser_cases user).resolve_left hnone
    constructor
    · intro user'
      have htotal := h.total user'
      change (s.sent user' : ℚ)+(s.wallet.update user (·+value)).balance user'*coin ≤
        Function.update s.credited user (s.credited user+value) user'*coin
      by_cases huser : user' = user
      · rw [huser] at htotal ⊢
        rw [WalletTable.balance_row hrow] at htotal
        rw [Function.update_self, WalletTable.balance_update hrow]
        linarith
      · rw [Function.update_of_ne huser, WalletTable.balance_update_ne huser]
        exact htotal
    · exact WalletTable.update_nonneg (fun x hx => add_nonneg hx hvalue) h.nonneg
  | requestInstant user => exact ⟨h.total, h.nonneg⟩

end Steps

/-- In every run of rounds and credits in which a call that has sent coins also writes both tables,
no user is sent more than was credited. -/
theorem no_user_paid_twice (isValid : String → Bool) (start s : PayState) (hstart : Opened start)
    (h : PayRun isValid (PayOp.Meets isValid) start s) (user : ℕ) :
    (s.sent user : ℚ) ≤ s.credited user*coin := by
  have hcovered : Covered s := by
    induction h with
    | start =>
      refine ⟨fun user => ?_, hstart.nonneg⟩
      rw [hstart.sent, hstart.credited, Int.cast_zero, zero_add]
    | step op _ hmeets ih => exact PayOp.exec_covered ih hmeets
  have hbalance : 0 ≤ s.wallet.balance user := by
    rcases s.wallet.ofUser_cases user with hnone | ⟨row,hrow⟩
    · rw [WalletTable.balance_nil hnone]
    · rw [WalletTable.balance_row hrow]
      apply hcovered.nonneg row
      have hmem : row ∈ s.wallet.ofUser user := by
        rw [hrow]
        exact List.mem_singleton_self row
      exact (WalletTable.mem_ofUser.mp hmem).1
  have hcoin : (0 : ℚ) ≤ s.wallet.balance user*coin :=
    mul_nonneg hbalance (by norm_num [coin])
  have htotal := hcovered.total user
  linarith

section Examples

/-- Every address is valid. -/
def anyAddress : String → Bool := fun _ => true

/-- A call in which everything goes through, with a fee of 0.01 XPM. -/
def goodPayOut : PayOutIO := ⟨true, some 100000000000, cent, 0, true, true, true⟩

/-- The update of the wallet row throws. -/
def lostUpdate : PayOutIO := { goodPayOut with update := false }

def goodRound : PayWalletIO :=
  ⟨true, fun _ => goodPayOut, true, fun _ => true, fun _ _ => goodPayOut, fun _ _ => true⟩

/-- The call of the first loop loses its update, the one for the queue does not. -/
def lostRound : PayWalletIO := { goodRound with payOut := fun _ => lostUpdate }

def oneRow : List WalletRow := [⟨7, 0, "AXqdBcdfbTNmqG"⟩]

def payStart : PayState := ⟨⟨oneRow, by decide⟩, [], [], fun _ => 0, fun _ => 0⟩

/-- User 7 is credited 5 XPM and asks for an instant payout, then there is one round. -/
def payState1 : PayState := PayOp.exec anyAddress payStart (.credit 7 5)
def payState2 : PayState := PayOp.exec anyAddress payState1 (.requestInstant 7)
def goodState : PayState := PayOp.exec anyAddress payState2 (.payWallet goodRound)
def lostState : PayState := PayOp.exec anyAddress payState2 (.payWallet lostRound)

theorem payStart_opened : Opened payStart := by
  refine ⟨fun _ => rfl, fun user => ?_, ?_⟩
  · change 0 = payStart.wallet.balance user
    rcases payStart.wallet.ofUser_cases user with hnone | ⟨row,hrow⟩
    · rw [WalletTable.balance_nil hnone]
    · rw [WalletTable.balance_row hrow]
      have hmem : row ∈ payStart.wallet.ofUser user := by
        rw [hrow]
        exact List.mem_singleton_self row
      rw [List.mem_singleton.mp (WalletTable.mem_ofUser.mp hmem).1]
  · intro row hrow
    rw [List.mem_singleton.mp hrow]

theorem goodRound_settles (s : PayState) : RoundSettles anyAddress goodRound s := by
  have hcall : ∀ user s, Settles anyAddress goodPayOut user s :=
    settles_of_fee rfl rfl (by decide)
  intro _
  refine ⟨eachTurn_of_forall fun i (wallet : WalletRow) s => hcall wallet.user_id s, fun s1 _ _ => ?_⟩
  exact eachTurn_of_forall fun i user s _ => eachTurn_of_forall fun j (wallet : WalletRow) s =>
    hcall wallet.user_id s

/-- The user is paid once in the round, the balance less the fee. -/
theorem no_user_paid_twice_round :
    goodState.sent 7 = 499000000 ∧ (goodState.sent 7 : ℚ) ≤ goodState.credited 7*coin := by
  have hrun : PayRun anyAddress (PayOp.Meets anyAddress) payStart goodState := by
    refine PayRun.step (.payWallet goodRound) (PayRun.step (.requestInstant 7)
      (PayRun.step (.credit 7 5) PayRun.start ?_) trivial) (goodRound_settles payState2)
    change (0 : ℚ) ≤ 5
    norm_num
  exact ⟨by decide +kernel, no_user_paid_twice anyAddress payStart goodState payStart_opened hrun 7⟩

/-- The update of the wallet row throws after the coins were sent, and the queue of the same round
pays the user again. -/
theorem user_paid_twice : Opened payStart ∧
    PayRun anyAddress (fun _ op => ∀ user value, op = .credit user value → 0 ≤ value) payStart
      lostState ∧
    lostState.credited 7 = 5 ∧ lostState.sent 7 = 998000000 ∧
    ¬ (lostState.sent 7 : ℚ) ≤ lostState.credited 7*coin := by
  refine ⟨payStart_opened, ?_, by decide +kernel, by decide +kernel, by decide +kernel⟩
  refine PayRun.step (.payWallet lostRound) (PayRun.step (.requestInstant 7)
    (PayRun.step (.credit 7 5) PayRun.start ?_) ?_) ?_
  · intro user value heq
    obtain ⟨-,rfl⟩ := PayOp.credit.inj heq
    norm_num
  · intro user value heq
    cases heq
  · intro user value heq
    cases heq

end Examples

end Candypool.Pool
