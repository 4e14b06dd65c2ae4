import Candypool.Core.Transaction
import Candypool.Wallet.BestSubset
import Mathlib.Algebra.BigOperators.Group.Finset.Basic
import Mathlib.Data.List.Sort

/-! The wallet's choice of coins for a payment. Sums of coin values are taken to fit an `int64`; the
sum of the target and a cent, which no coin bounds, is checked. -/
namespace Candypool.Wallet
open Candypool.Prime Candypool.Core Candypool.Lib

/-- A transaction of the wallet, with what the chain and the keys say of it. -/
structure CWalletTx where
  tx : CTransaction
  vfSpent : List Bool
  nDepth : ℤ
  isFinal : Bool
  isConfirmed : Bool
  isFromMe : Bool

structure COutput where
  tx : WtxPtr
  i : ℕ
  nDepth : ℤ
  deriving DecidableEq, Repr

def COutput.coin (output : COutput) : Coin := (output.tx,output.i)

def int64Max : ℤ := 2^63-1

/-- A sum that leaves the range of an `int64` is undefined. -/
def int64Add (a b : ℤ) : Option ℤ :=
  if -int64Max-1 ≤ a+b ∧ a+b ≤ int64Max then some (a+b) else none

section Select
variable (wtx : WtxPtr → CWalletTx)

/-- `pcoin->vout[i].nValue`. -/
def coinValue (coin : Coin) : ℤ := ((wtx coin.1).tx.vout.getD coin.2 CTxOut.null).nValue

/-- An output with the confirmations that are asked of it. -/
def COutput.eligible (nConfMine nConfTheirs : ℤ) (output : COutput) : Bool :=
  !decide (output.nDepth < if (wtx output.tx).isFromMe then nConfMine else nConfTheirs)

structure Gathered where
  coinLowestLarger : ℤ × Option Coin
  vValue : List (ℤ × Coin)
  nTotalLower : ℤ

def Gathered.start : Gathered := ⟨(int64Max,none), [], 0⟩

/-- The loop over the coins, which a coin of just the target value ends. -/
def gatherCoins (nTargetValue nConfMine nConfTheirs : ℤ) :
    List COutput → Gathered → Option ((ℤ × Coin) ⊕ Gathered)
  | [], g => some (.inr g)
  | output :: vCoins, g =>
    if output.eligible wtx nConfMine nConfTheirs then
      let n := coinValue wtx output.coin
      if n = nTargetValue then some (.inl (n,output.coin))
      else (int64Add nTargetValue cent).bind fun nUpper =>
        if n < nUpper then
          gatherCoins nTargetValue nConfMine nConfTheirs vCoins
            { g with vValue := g.vValue ++ [(n,output.coin)], nTotalLower := g.nTotalLower+n }
        else if n < g.coinLowestLarger.1 then
          gatherCoins nTargetValue nConfMine nConfTheirs vCoins
            { g with coinLowestLarger := (n,some output.coin) }
        else gatherCoins nTargetValue nConfMine nConfTheirs vCoins g
    else gatherCoins nTargetValue nConfMine nConfTheirs vCoins g

/-- What a call draws at random: the order of the coins, the bits of the two calls of the solver, and
the order of equal values, which `std::sort` leaves open. -/
structure SelectRandom where
  shuffle : List COutput → List COutput
  shuffle_perm : ∀ vCoins, (shuffle vCoins).Perm vCoins
  sort : List (ℤ × Coin) → List (ℤ × Coin)
  sort_perm : ∀ vValue, (sort vValue).Perm vValue
  sort_desc : ∀ vValue, (sort vValue).Pairwise fun coin coin' => coin'.1 ≤ coin.1
  bit : ℕ → ℕ → ℕ → Bool

/-- The loop that inserts coins into `setCoinsRet` and adds them to `nValueRet`. -/
def takeCoins (vValue : List (ℤ × Coin)) : Finset Coin × ℤ :=
  ((vValue.map Prod.snd).toFinset, (vValue.map Prod.fst).sum)

/-- `CWallet::SelectCoinsMinConf`, with `setCoinsRet` and `nValueRet`. -/
def selectCoinsMinConf (rnd : SelectRandom) (nTargetValue nConfMine nConfTheirs : ℤ)
    (vCoins : List COutput) : Option (Bool × Finset Coin × ℤ) :=
  (gatherCoins wtx nTargetValue nConfMine nConfTheirs (rnd.shuffle vCoins) Gathered.start).bind
    fun
    | .inl coin => some (true, takeCoins [coin])
    | .inr g =>
      if g.nTotalLower = nTargetValue then some (true, takeCoins g.vValue)
      else if g.nTotalLower < nTargetValue then
        match g.coinLowestLarger.2 with
        | none => some (false, takeCoins [])
        | some coin => some (true, takeCoins [(g.coinLowestLarger.1,coin)])
      else
        let vValue := rnd.sort g.vValue
        (int64Add nTargetValue cent).bind fun nUpper =>
        (approximateBestSubset (rnd.bit 0) vValue g.nTotalLower nTargetValue 1000).bind fun best =>
        (if best.2 ≠ nTargetValue ∧ g.nTotalLower ≥ nUpper then
          approximateBestSubset (rnd.bit 1) vValue g.nTotalLower nUpper 1000
        else some best).map fun (vfBest,nBest) =>
          match g.coinLowestLarger.2 with
          | some coin =>
            -- a bigger coin beats a subset that misses the target by less than a cent
            if (nBest ≠ nTargetValue ∧ nBest < nUpper) ∨ g.coinLowestLarger.1 ≤ nBest then
              (true, takeCoins [(g.coinLowestLarger.1,coin)])
            else (true, takeCoins (selected vfBest vValue))
          | none => (true, takeCoins (selected vfBest vValue))

/-- The coins with enough confirmations, with their values. -/
def eligibleCoins (nConfMine nConfTheirs : ℤ) (vCoins : List COutput) : List (ℤ × Coin) :=
  (vCoins.filter (COutput.eligible wtx nConfMine nConfTheirs)).map
    fun output => (coinValue wtx output.coin,output.coin)

end Select

section Gather
variable {wtx : WtxPtr → CWalletTx} {nTargetValue nConfMine nConfTheirs : ℤ}

/-- What the loop over the coins has after the coins `coins`. -/
structure GatherOk (nTargetValue : ℤ) (coins : List (ℤ × Coin)) (g : Gathered) : Prop where
  vValue : g.vValue = coins.filter fun coin => coin.1 < nTargetValue+cent
  lower : (g.vValue.map Prod.fst).sum = g.nTotalLower
  larger : ∀ coin, g.coinLowestLarger.2 = some coin →
    (g.coinLowestLarger.1,coin) ∈ coins ∧ nTargetValue+cent ≤ g.coinLowestLarger.1
  -- no coin is as large as the mark that the search for the lowest one starts with
  missing : g.coinLowestLarger.2 = none → g.coinLowestLarger.1 = int64Max ∧
    ∀ coin ∈ coins, nTargetValue+cent ≤ coin.1 → int64Max ≤ coin.1

theorem GatherOk.start (nTargetValue : ℤ) : GatherOk nTargetValue [] Gathered.start where
  vValue := rfl
  lower := rfl
  larger coin h := by cases h
  missing _ := ⟨rfl,fun coin hcoin => absurd hcoin List.not_mem_nil⟩

section Turn
variable {coins : List (ℤ × Coin)} {g : Gathered} {n : ℤ} {coin : Coin}

theorem GatherOk.lower_turn (hg : GatherOk nTargetValue coins g) (hlt : n < nTargetValue+cent) :
    GatherOk nTargetValue (coins ++ [(n,coin)])
      { g with vValue := g.vValue ++ [(n,coin)], nTotalLower := g.nTotalLower+n } where
  vValue := by
    rw [List.filter_append, ← hg.vValue, List.filter_singleton, decide_eq_true hlt]
    rfl
  lower := by rw [List.map_append, List.sum_append, hg.lower, List.map_singleton, List.sum_singleton]
  larger c hc := by
    obtain ⟨hmem,hle⟩ := hg.larger c hc
    exact ⟨List.mem_append_left _ hmem,hle⟩
  missing hnone := by
    obtain ⟨hmax,hall⟩ := hg.missing hnone
    refine ⟨hmax,fun c hc hle => ?_⟩
    rcases List.mem_append.mp hc with hold | hnew
    · exact hall c hold hle
    · obtain rfl := List.mem_singleton.mp hnew
      exact absurd hle (not_le.mpr hlt)

theorem GatherOk.skip (hg : GatherOk nTargetValue coins g) (hle : nTargetValue+cent ≤ n) :
    (coins ++ [(n,coin)]).filter (fun c => decide (c.1 < nTargetValue+cent)) = g.vValue := by
  rw [List.filter_append, ← hg.vValue, List.filter_singleton, decide_eq_false (not_lt.mpr hle),
    cond_false, List.append_nil]

theorem GatherOk.larger_turn (hg : GatherOk nTargetValue coins g) (hle : nTargetValue+cent ≤ n) :
    GatherOk nTargetValue (coins ++ [(n,coin)]) { g with coinLowestLarger := (n,some coin) } where
  vValue := (hg.skip hle).symm
  lower := hg.lower
  larger c hc := by
    obtain rfl := Option.some.inj hc
    exact ⟨List.mem_append_right _ (List.mem_singleton.mpr rfl),hle⟩
  missing hnone := by cases hnone

theorem GatherOk.passed_turn (hg : GatherOk nTargetValue coins g) (hle : nTargetValue+cent ≤ n)
    (hlarge : g.coinLowestLarger.1 ≤ n) : GatherOk nTargetValue (coins ++ [(n,coin)]) g where
  vValue := (hg.skip hle).symm
  lower := hg.lower
  larger c hc := by
    obtain ⟨hmem,hbound⟩ := hg.larger c hc
    exact ⟨List.mem_append_left _ hmem,hbound⟩
  missing hnone := by
    obtain ⟨hmax,hall⟩ := hg.missing hnone
    refine ⟨hmax,fun c hc hbound => ?_⟩
    rcases List.mem_append.mp hc with hold | hnew
    · exact hall c hold hbound
    · obtain rfl := List.mem_singleton.mp hnew
      exact hmax ▸ hlarge

end Turn

theorem int64Add_eq_some {a b c : ℤ} (h : int64Add a b = some c) : c = a+b := by
  rw [int64Add] at h
  split_ifs at h
  exact (Option.some.inj h).symm

/-- What the loop over the coins leaves, when `coins` were looked at before. -/
structure GatherLeft (nTargetValue : ℤ) (coins : List (ℤ × Coin)) (r : (ℤ × Coin) ⊕ Gathered) :
    Prop where
  single : ∀ coin, r = .inl coin → coin.1 = nTargetValue ∧ coin ∈ coins
  all : ∀ g, r = .inr g → GatherOk nTargetValue coins g

theorem gatherCoins_left {vCoins : List COutput} {coins : List (ℤ × Coin)} {g : Gathered}
    {r : (ℤ × Coin) ⊕ Gathered} (hg : GatherOk nTargetValue coins g)
    (h : gatherCoins wtx nTargetValue nConfMine nConfTheirs vCoins g = some r) :
    GatherLeft nTargetValue (coins ++ eligibleCoins wtx nConfMine nConfTheirs vCoins) r := by
  induction vCoins generalizing coins g with
  | nil =>
    obtain rfl := Option.some.inj h
    refine ⟨fun coin hr => (by cases hr),fun g' hr => ?_⟩
    obtain rfl := Sum.inr.inj hr
    rw [show eligibleCoins wtx nConfMine nConfTheirs [] = [] from rfl, List.append_nil]
    exact hg
  | cons output vCoins ih =>
    rw [gatherCoins] at h
    by_cases heligible : output.eligible wtx nConfMine nConfTheirs = true
    · have hcons : coins ++ eligibleCoins wtx nConfMine nConfTheirs (output :: vCoins) =
          (coins ++ [(coinValue wtx output.coin,output.coin)]) ++
            eligibleCoins wtx nConfMine nConfTheirs vCoins := by
        rw [eligibleCoins, List.filter_cons_of_pos heligible, List.append_assoc]
        rfl
      rw [if_pos heligible] at h
      rw [hcons]
      dsimp only at h
      generalize coinValue wtx output.coin = n at h ⊢
      -- the single coin, or one of the three turns of the loop
      by_cases hexact : n = nTargetValue
      · rw [if_pos hexact] at h
        obtain rfl := Option.some.inj h
        refine ⟨fun coin hr => ?_,fun g' hr => (by cases hr)⟩
        obtain rfl := Sum.inl.inj hr
        exact ⟨hexact,List.mem_append_left _ (List.mem_append_right _ (List.mem_singleton.mpr rfl))⟩
      · rw [if_neg hexact] at h
        obtain ⟨nUpper,hupper,h⟩ := Option.bind_eq_some_iff.mp h
        obtain rfl := int64Add_eq_some hupper
        split_ifs at h with hlt hless
        · exact ih (hg.lower_turn hlt) h
        · exact ih (hg.larger_turn (not_lt.mp hlt)) h
        · exact ih (hg.passed_turn (not_lt.mp hlt) (not_lt.mp hless)) h
    · have hskip : eligibleCoins wtx nConfMine nConfTheirs (output :: vCoins) =
          eligibleCoins wtx nConfMine nConfTheirs vCoins := by
        rw [eligibleCoins, List.filter_cons_of_neg heligible]
        rfl
      -- `continue`: neither the list nor the state changes
      rw [if_neg heligible] at h
      rw [hskip]
      exact ih hg h

theorem gatherCoins_isSome (wtx : WtxPtr → CWalletTx) (nConfMine nConfTheirs : ℤ) {nUpper : ℤ}
    (hupper : int64Add nTargetValue cent = some nUpper) (vCoins : List COutput) (g : Gathered) :
    ∃ r, gatherCoins wtx nTargetValue nConfMine nConfTheirs vCoins g = some r := by
  induction vCoins generalizing g with
  | nil => exact ⟨_,rfl⟩
  | cons output vCoins ih =>
    rw [gatherCoins, hupper]
    dsimp only [Option.bind_some]
    split_ifs
    · exact ⟨_,rfl⟩
    · exact ih _
    · exact ih _
    · exact ih _
    · exact ih _

end Gather

section Sound
variable {wtx : WtxPtr → CWalletTx} {nTargetValue nConfMine nConfTheirs : ℤ} {vCoins : List COutput}

/-- The coins a successful call returns. -/
structure Chosen (wtx : WtxPtr → CWalletTx) (nTargetValue nConfMine nConfTheirs : ℤ)
    (vCoins : List COutput) (setCoinsRet : Finset Coin) (nValueRet : ℤ) (chosen : List (ℤ × Coin)) :
    Prop where
  subperm : chosen.Subperm (eligibleCoins wtx nConfMine nConfTheirs vCoins)
  set : setCoinsRet = (chosen.map Prod.snd).toFinset
  sum : nValueRet = (chosen.map Prod.fst).sum
  reached : nTargetValue ≤ nValueRet

theorem eligibleCoins_perm {vCoins' : List COutput} (h : vCoins'.Perm vCoins) :
    (eligibleCoins wtx nConfMine nConfTheirs vCoins').Perm
      (eligibleCoins wtx nConfMine nConfTheirs vCoins) :=
  (h.filter _).map _

theorem eligibleCoins_value {coin : ℤ × Coin}
    (h : coin ∈ eligibleCoins wtx nConfMine nConfTheirs vCoins) : coin.1 = coinValue wtx coin.2 := by
  obtain ⟨output,-,rfl⟩ := List.mem_map.mp h
  rfl

/-- What a call returns: coins that reach the target, or `false` where all it looked at are too few. -/
structure SelectOk (wtx : WtxPtr → CWalletTx) (nTargetValue nConfMine nConfTheirs : ℤ)
    (vCoins : List COutput) (out : Bool × Finset Coin × ℤ) : Prop where
  found : out.1 = true → ∃ chosen,
    Chosen wtx nTargetValue nConfMine nConfTheirs vCoins out.2.1 out.2.2 chosen
  short : out.1 = false →
    (∀ coin ∈ eligibleCoins wtx nConfMine nConfTheirs vCoins, coin.1 < int64Max) →
    ((eligibleCoins wtx nConfMine nConfTheirs vCoins).map Prod.fst).sum < nTargetValue

theorem SelectOk.of_sublist {vCoins' : List COutput} (hperm : vCoins'.Perm vCoins)
    {chosen : List (ℤ × Coin)}
    (hsub : chosen.Subperm (eligibleCoins wtx nConfMine nConfTheirs vCoins'))
    (hreached : nTargetValue ≤ (chosen.map Prod.fst).sum) :
    SelectOk wtx nTargetValue nConfMine nConfTheirs vCoins (true, takeCoins chosen) where
  found _ := ⟨chosen,hsub.trans (eligibleCoins_perm hperm).subperm,rfl,rfl,hreached⟩
  short h := by cases h

theorem SelectOk.of_larger {vCoins' : List COutput} (hperm : vCoins'.Perm vCoins) {g : Gathered}
    (hg : GatherOk nTargetValue (eligibleCoins wtx nConfMine nConfTheirs vCoins') g) {coin : Coin}
    (hcoin : g.coinLowestLarger.2 = some coin) :
    SelectOk wtx nTargetValue nConfMine nConfTheirs vCoins
      (true, takeCoins [(g.coinLowestLarger.1,coin)]) := by
  obtain ⟨hmem,hbound⟩ := hg.larger coin hcoin
  have hcent : (0 : ℤ) ≤ cent := by decide
  refine SelectOk.of_sublist hperm (List.singleton_subperm_iff.mpr hmem) ?_
  rw [List.map_singleton, List.sum_singleton]
  omega

/-- Without a larger coin all coins are among the smaller ones. -/
theorem SelectOk.of_short {vCoins' : List COutput} (hperm : vCoins'.Perm vCoins) {g : Gathered}
    (hg : GatherOk nTargetValue (eligibleCoins wtx nConfMine nConfTheirs vCoins') g)
    (hnone : g.coinLowestLarger.2 = none) (hshort : g.nTotalLower < nTargetValue) :
    SelectOk wtx nTargetValue nConfMine nConfTheirs vCoins (false, takeCoins []) where
  found h := by cases h
  short _ hmax := by
    have hcoins : (eligibleCoins wtx nConfMine nConfTheirs vCoins').Perm
        (eligibleCoins wtx nConfMine nConfTheirs vCoins) := eligibleCoins_perm hperm
    have hall : g.vValue = eligibleCoins wtx nConfMine nConfTheirs vCoins' := by
      rw [hg.vValue, List.filter_eq_self]
      intro coin hcoin
      rw [decide_eq_true_eq]
      by_contra hlarge
      exact absurd (hmax coin (hcoins.mem_iff.mp hcoin))
        (not_lt.mpr ((hg.missing hnone).2 coin hcoin (not_lt.mp hlarge)))
    rw [← (hcoins.map Prod.fst).sum_eq, ← hall, hg.lower]
    exact hshort

/-- The flags of the solver select a set that reaches the target. -/
theorem SelectOk.of_flags {vCoins' : List COutput} (hperm : vCoins'.Perm vCoins) {g : Gathered}
    (hg : GatherOk nTargetValue (eligibleCoins wtx nConfMine nConfTheirs vCoins') g)
    {vValue : List (ℤ × Coin)} (hsort : vValue.Perm g.vValue) {vfBest : List Bool}
    (hreached : nTargetValue ≤ flaggedSum vfBest vValue) :
    SelectOk wtx nTargetValue nConfMine nConfTheirs vCoins
      (true, takeCoins (selected vfBest vValue)) := by
  refine SelectOk.of_sublist hperm ?_ hreached
  have hlower : g.vValue.Subperm (eligibleCoins wtx nConfMine nConfTheirs vCoins') := by
    rw [hg.vValue]
    exact List.filter_sublist.subperm
  exact ((selected_sublist vfBest vValue).subperm.trans hsort.subperm).trans hlower

theorem selectCoinsMinConf_ok {rnd : SelectRandom} {out : Bool × Finset Coin × ℤ}
    (h : selectCoinsMinConf wtx rnd nTargetValue nConfMine nConfTheirs vCoins = some out) :
    SelectOk wtx nTargetValue nConfMine nConfTheirs vCoins out := by
  have hperm := rnd.shuffle_perm vCoins
  have hcent : (0 : ℤ) ≤ cent := by decide
  obtain ⟨r,hgather,h⟩ := Option.bind_eq_some_iff.mp h
  have hleft := gatherCoins_left (GatherOk.start nTargetValue) hgather
  rw [List.nil_append] at hleft
  cases r with
  | inl coin =>
    obtain ⟨hvalue,hmem⟩ := hleft.single coin rfl
    obtain rfl := Option.some.inj h
    refine SelectOk.of_sublist hperm (List.singleton_subperm_iff.mpr hmem) ?_
    rw [List.map_singleton, List.sum_singleton, hvalue]
  | inr g =>
    have hg := hleft.all g rfl
    dsimp only at h
    split_ifs at h with hall hshort
    · obtain rfl := Option.some.inj h
      refine SelectOk.of_sublist hperm (hg.vValue ▸ List.filter_sublist.subperm) ?_
      rw [hg.lower, hall]
    · cases hcoin : g.coinLowestLarger.2 with
      | none =>
        rw [hcoin] at h
        obtain rfl := Option.some.inj h
        exact SelectOk.of_short hperm hg hcoin hshort
      | some coin =>
        rw [hcoin] at h
        obtain rfl := Option.some.inj h
        exact SelectOk.of_larger hperm hg hcoin
    · -- the stochastic subset, for the target or for a cent more
      have hsort := rnd.sort_perm g.vValue
      have hsum : ((rnd.sort g.vValue).map Prod.fst).sum = g.nTotalLower :=
        (hsort.map Prod.fst).sum_eq.trans hg.lower
      obtain ⟨nUpper,hupper,h⟩ := Option.bind_eq_some_iff.mp h
      obtain rfl := int64Add_eq_some hupper
      obtain ⟨best,hbest,h⟩ := Option.bind_eq_some_iff.mp h
      obtain ⟨last,hlast,rfl⟩ := Option.map_eq_some_iff.mp h
      have hreached : nTargetValue ≤ flaggedSum last.1 (rnd.sort g.vValue) := by
        split_ifs at hlast with hagain
        -- the second call has the higher target
        · have hmore := approximateBestSubset_reached hsum hagain.2 hlast
          omega
        · obtain rfl := Option.some.inj hlast
          exact approximateBestSubset_reached hsum (by omega) hbest
      cases hcoin : g.coinLowestLarger.2 with
      | none => exact SelectOk.of_flags hperm hg hsort hreached
      | some coin =>
        dsimp only
        split_ifs
        · exact SelectOk.of_larger hperm hg hcoin
        · exact SelectOk.of_flags hperm hg hsort hreached

theorem selectCoinsMinConf_isSome (wtx : WtxPtr → CWalletTx) (rnd : SelectRandom)
    (nConfMine nConfTheirs : ℤ) (vCoins : List COutput) (htarget : 0 ≤ nTargetValue)
    (hupper : nTargetValue+cent ≤ int64Max) :
    ∃ out, selectCoinsMinConf wtx rnd nTargetValue nConfMine nConfTheirs vCoins = some out := by
  have hcent : (0 : ℤ) ≤ cent := by decide
  have hmax : (0 : ℤ) ≤ int64Max := by decide
  have hadd : int64Add nTargetValue cent = some (nTargetValue+cent) := if_pos ⟨by omega,hupper⟩
  obtain ⟨r,hgather⟩ := gatherCoins_isSome wtx nConfMine nConfTheirs hadd (rnd.shuffle vCoins)
    Gathered.start
  rw [selectCoinsMinConf, hgather, Option.bind_some]
  cases r with
  | inl coin => exact ⟨_,rfl⟩
  | inr g =>
    dsimp only
    split_ifs
    · exact ⟨_,rfl⟩
    · cases g.coinLowestLarger.2 with
      | none => exact ⟨_,rfl⟩
      | some coin => exact ⟨_,rfl⟩
    · obtain ⟨best,hbest⟩ := approximateBestSubset_isSome (rnd.bit 0) (rnd.sort g.vValue)
        g.nTotalLower nTargetValue 1000
      obtain ⟨more,hmore⟩ := approximateBestSubset_isSome (rnd.bit 1) (rnd.sort g.vValue)
        g.nTotalLower (nTargetValue+cent) 1000
      rw [hadd, Option.bind_some, hbest, Option.bind_some, hmore]
      split_ifs
      · exact ⟨_,rfl⟩
      · exact ⟨_,rfl⟩

theorem eligibleCoins_nodup (hdistinct : (vCoins.map COutput.coin).Nodup) :
    ((eligibleCoins wtx nConfMine nConfTheirs vCoins).map Prod.snd).Nodup := by
  rw [eligibleCoins, List.map_map]
  exact hdistinct.sublist (List.filter_sublist.map _)

/-- Distinct coins are inserted once each, so the set has the sum that was added up. -/
theorem Chosen.set_sum {setCoinsRet : Finset Coin} {nValueRet : ℤ} {chosen : List (ℤ × Coin)}
    (h : Chosen wtx nTargetValue nConfMine nConfTheirs vCoins setCoinsRet nValueRet chosen)
    (hdistinct : (vCoins.map COutput.coin).Nodup) :
    setCoinsRet ⊆ ((eligibleCoins wtx nConfMine nConfTheirs vCoins).map Prod.snd).toFinset ∧
      ∑ coin ∈ setCoinsRet, coinValue wtx coin = nValueRet := by
  obtain ⟨l,hperm,hsub⟩ := h.subperm
  have hcoins := hsub.map Prod.snd
  have hnodup : (chosen.map Prod.snd).Nodup :=
    (hperm.map Prod.snd).nodup_iff.mp ((eligibleCoins_nodup hdistinct).sublist hcoins)
  rw [h.set, h.sum]
  constructor
  · intro coin hcoin
    rw [List.mem_toFinset] at hcoin ⊢
    exact hcoins.subset ((hperm.map Prod.snd).mem_iff.mpr hcoin)
  · rw [List.sum_toFinset _ hnodup, List.map_map]
    refine congrArg List.sum (List.map_congr_left fun coin hcoin => ?_)
    exact (eligibleCoins_value (h.subperm.subset hcoin)).symm

end Sound

section Examples

/-- Shuffling changes nothing, and every bit is set. -/
def testRandom : SelectRandom where
  shuffle := id
  shuffle_perm vCoins := List.Perm.refl vCoins
  sort vValue := vValue.insertionSort (Order.Preimage Prod.fst (· ≥ ·))
  sort_perm vValue := List.perm_insertionSort _ vValue
  sort_desc vValue := List.pairwise_insertionSort (Order.Preimage Prod.fst (· ≥ ·)) vValue
  bit _ _ _ := true

end Examples

end Candypool.Wallet
