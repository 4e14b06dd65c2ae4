import Candypool.Script.Solver
import Candypool.Wallet.CreateTransaction
import Candypool.Wallet.GroupingHeap

/-! `GetAddressGroupings`: which addresses of the wallet have been used together. -/
namespace Candypool.Wallet
open Candypool.Prime Candypool.Core Candypool.Script Candypool.Lib

/-- What the wallet knows of keys and scripts; `hash160` is the hash of their IDs. -/
structure KeyStore where
  hash160 : Valtype → BitVec 160
  haveKey : BitVec 160 → Bool
  mapScripts : AList fun _ : BitVec 160 => CScript

namespace KeyStore

/-- `HaveKeys`. -/
def haveKeys (keystore : KeyStore) (pubkeys : List Valtype) : ℕ :=
  pubkeys.countP fun pubkey => keystore.haveKey (keystore.hash160 pubkey)

def isMineLoop (keystore : KeyStore) : ℕ → CScript → Bool
  | 0, _ => false
  | fuel+1, scriptPubKey =>
    match solver scriptPubKey with
    | (true,.pubkey,vSolutions) => keystore.haveKey (keystore.hash160 (vSolutions.headD []))
    | (true,.pubkeyhash,vSolutions) =>
      keystore.haveKey (BitVec.ofNat 160 (littleEndian (vSolutions.headD [])))
    | (true,.scripthash,vSolutions) =>
      match keystore.mapScripts.lookup (BitVec.ofNat 160 (littleEndian (vSolutions.headD []))) with
      | none => false
      | some subscript => isMineLoop keystore fuel subscript
    | (true,.multisig,vSolutions) =>
      let keys := vSolutions.tail.dropLast
      keystore.haveKeys keys == keys.length
    | _ => false

/-- `IsMine` of a script. A recursion that ends does not meet a script of the key store twice. -/
def isMine (keystore : KeyStore) (scriptPubKey : CScript) : Bool :=
  isMineLoop keystore (keystore.mapScripts.keys.length+1) scriptPubKey

/-- `IsMine` of a destination. -/
def isMineDestination (keystore : KeyStore) : CTxDestination → Bool
  | .noDestination => false
  | .keyID id => keystore.haveKey id
  | .scriptID id => (keystore.mapScripts.lookup id).isSome

end KeyStore

/-- The parts of the wallet that the groupings read. -/
structure GroupingEnv where
  mapWallet : WalletTxs
  keystore : KeyStore
  mapAddressBook : List CTxDestination

section Grouping
variable (env : GroupingEnv)

def prevOut (txin : CTxIn) : CTxOut :=
  (env.mapWallet.wtx txin.prevout.hash).tx.vout.getD txin.prevout.n CTxOut.null

/-- `IsMine` of an input. -/
def isMineInput (txin : CTxIn) : Bool :=
  if env.mapWallet.keys.contains txin.prevout.hash then
    let prev := env.mapWallet.wtx txin.prevout.hash
    if txin.prevout.n < prev.tx.vout.length then env.keystore.isMine (prevOut env txin).scriptPubKey
    else false
  else false

def destination (txout : CTxOut) : Option CTxDestination :=
  extractDestination env.keystore.hash160 txout.scriptPubKey

def isChange (txout : CTxOut) : Bool :=
  match destination env txout with
  | some address => env.keystore.isMineDestination address && !decide (address ∈ env.mapAddressBook)
  | none => false

/-- The loop over the inputs, with the grouping and `any_mine`. -/
def groupInputs : List CTxIn → Finset CTxDestination → Bool → Finset CTxDestination × Bool
  | [], grouping, any_mine => (grouping,any_mine)
  | txin :: vin, grouping, any_mine =>
    if !isMineInput env txin then groupInputs vin grouping any_mine
    else
      match destination env (prevOut env txin) with
      | none => groupInputs vin grouping any_mine
      | some address => groupInputs vin (insert address grouping) true

def groupChange : List CTxOut → Finset CTxDestination → Finset CTxDestination
  | [], grouping => grouping
  | txout :: vout, grouping =>
    if isChange env txout then
      match destination env txout with
      | none => groupChange vout grouping
      | some txoutAddr => groupChange vout (insert txoutAddr grouping)
    else groupChange vout grouping

/-- The inputs of a transaction with its change. -/
def inputGrouping (tx : CTransaction) : Finset CTxDestination :=
  let (grouping,any_mine) := groupInputs env tx.vin ∅ false
  if any_mine then groupChange env tx.vout grouping else grouping

/-- The groupings of a transaction: its inputs with its change, and each of its own outputs. -/
def txGroupings (tx : CTransaction) : List (Finset CTxDestination) :=
  let grouping := inputGrouping env tx
  (if grouping.card > 0 then [grouping] else []) ++
    tx.vout.filterMap fun txout =>
      if env.keystore.isMine txout.scriptPubKey then (destination env txout).map fun address => {address}
      else none

/-- The order of the destinations: first the type, then the value. -/
def destinationKey : CTxDestination → ℕ
  | .noDestination => 0
  | .keyID id => 2^160+id.toNat
  | .scriptID id => 2*2^160+id.toNat

/-- Sets are compared element by element. -/
def groupingLe (grouping grouping' : Finset CTxDestination) : Prop :=
  (grouping.image destinationKey).sort (· ≤ ·) ≤ (grouping'.image destinationKey).sort (· ≤ ·)

instance : DecidableRel groupingLe := fun grouping grouping' =>
  inferInstanceAs (Decidable ((grouping.image destinationKey).sort (· ≤ ·) ≤
    (grouping'.image destinationKey).sort (· ≤ ·)))

/-- `groupings`, in its order. -/
def groupings : List (Finset CTxDestination) :=
  (env.mapWallet.keys.flatMap fun hash => txGroupings env (env.mapWallet.wtx hash).tx).dedup.insertionSort
    groupingLe

/-- What is returned, with the groups that are still on the heap. -/
def getAddressGroupings (malloc : Malloc CTxDestination) :
    Option (Finset (Finset CTxDestination) × GroupHeap CTxDestination) := do
  let s ← mergeAll malloc (groupings env) ⟨∅,∅,fun _ => none⟩
  collectGroups (s.uniqueGroupings.sort (· ≤ ·)) s.heap ∅

def OwnOutput (address : CTxDestination) : Prop :=
  ∃ hash ∈ env.mapWallet.keys, ∃ txout ∈ (env.mapWallet.wtx hash).tx.vout,
    env.keystore.isMine txout.scriptPubKey = true ∧ destination env txout = some address

def OwnInput (tx : CTransaction) (address : CTxDestination) : Prop :=
  ∃ txin ∈ tx.vin, isMineInput env txin = true ∧ destination env (prevOut env txin) = some address

def Change (tx : CTransaction) (address : CTxDestination) : Prop :=
  ∃ txout ∈ tx.vout, isChange env txout = true ∧ destination env txout = some address

/-- The addresses that a transaction with an own input links: its own inputs and its change. -/
def Links (tx : CTransaction) (address : CTxDestination) : Prop :=
  OwnInput env tx address ∨ (∃ txin ∈ tx.vin, isMineInput env txin = true) ∧ Change env tx address

/-- The same, where an own input has to have an address. -/
def LinksAddresses (tx : CTransaction) (address : CTxDestination) : Prop :=
  OwnInput env tx address ∨ (∃ address', OwnInput env tx address') ∧ Change env tx address

/-- The sets are the connected components of the addresses that are own outputs or linked by a
transaction. -/
structure AreComponents (links : CTransaction → CTxDestination → Prop)
    (ret : Finset (Finset CTxDestination)) : Prop where
  nonempty : ∀ grouping ∈ ret, grouping.Nonempty
  disjoint : ∀ grouping ∈ ret, ∀ grouping' ∈ ret, grouping ≠ grouping' → Disjoint grouping grouping'
  covers : ∀ a, (∃ grouping ∈ ret, a ∈ grouping) ↔
    OwnOutput env a ∨ ∃ hash ∈ env.mapWallet.keys, links (env.mapWallet.wtx hash).tx a
  connected : ∀ a b, (∃ grouping ∈ ret, a ∈ grouping) → (∃ grouping ∈ ret, b ∈ grouping) →
    ((∃ grouping ∈ ret, a ∈ grouping ∧ b ∈ grouping) ↔
      Relation.EqvGen (fun a b => ∃ hash ∈ env.mapWallet.keys,
        links (env.mapWallet.wtx hash).tx a ∧ links (env.mapWallet.wtx hash).tx b) a b)

end Grouping

section Groups
variable {env : GroupingEnv} {tx : CTransaction}

variable (env) in
theorem groupInputs_spec (vin : List CTxIn) (grouping : Finset CTxDestination) (any_mine : Bool) :
    (∀ a, a ∈ (groupInputs env vin grouping any_mine).1 ↔ a ∈ grouping ∨
      ∃ txin ∈ vin, isMineInput env txin = true ∧ destination env (prevOut env txin) = some a) ∧
    ((groupInputs env vin grouping any_mine).2 = true ↔ any_mine = true ∨ ∃ a,
      ∃ txin ∈ vin, isMineInput env txin = true ∧ destination env (prevOut env txin) = some a) := by
  -- `any_mine` is set with the first address found, so the two parts go through together
  induction vin generalizing grouping any_mine with
  | nil => simp [groupInputs]
  | cons txin vin ih =>
    rw [groupInputs]
    cases hmine : isMineInput env txin with
    | false => simpa [hmine] using ih grouping any_mine
    | true =>
      cases hdest : destination env (prevOut env txin) with
      -- an own input without an address is passed over
      | none => simpa [hmine, hdest] using ih grouping any_mine
      | some address =>
        obtain ⟨hmem,hany⟩ := ih (insert address grouping) true
        constructor
        · intro a
          simp only [Bool.not_true, Bool.false_eq_true, if_false, hmem, Finset.mem_insert,
            List.exists_mem_cons_iff, hmine, hdest, true_and, Option.some_inj, eq_comm (a := address),
            or_assoc, or_left_comm]
        · simp only [Bool.not_true, Bool.false_eq_true, if_false, hany, true_or, true_iff]
          exact Or.inr ⟨address, txin, List.mem_cons_self, hmine, hdest⟩

theorem mem_groupChange (vout : List CTxOut) (grouping : Finset CTxDestination) (a : CTxDestination) :
    a ∈ groupChange env vout grouping ↔ a ∈ grouping ∨
      ∃ txout ∈ vout, isChange env txout = true ∧ destination env txout = some a := by
  induction vout generalizing grouping with
  | nil => simp [groupChange]
  | cons txout vout ih =>
    rw [groupChange]
    split_ifs with hchange
    -- a change output without an address is passed over
    · cases hdest : destination env txout with
      | none => simpa [hchange, hdest] using ih grouping
      | some address =>
        simp only [ih, Finset.mem_insert, List.exists_mem_cons_iff, hchange, hdest, true_and,
          Option.some_inj, eq_comm (a := address), or_assoc, or_left_comm]
    · simpa [hchange] using ih grouping

/-- The grouping of the inputs and the change has the addresses that the transaction links. -/
theorem mem_inputGrouping (a : CTxDestination) : a ∈ inputGrouping env tx ↔ LinksAddresses env tx a := by
  obtain ⟨hmem,hany⟩ := groupInputs_spec env tx.vin ∅ false
  have hmem' : a ∈ (groupInputs env tx.vin ∅ false).1 ↔ OwnInput env tx a := by
    rw [hmem, OwnInput]
    simp
  have hany' : (groupInputs env tx.vin ∅ false).2 = true ↔ ∃ address, OwnInput env tx address := by
    rw [hany]
    simp only [Bool.false_eq_true, false_or, OwnInput]
  rw [LinksAddresses, inputGrouping]
  -- the change is added only where an own input was found
  dsimp only
  split_ifs with h
  · rw [mem_groupChange, hmem', and_iff_right (hany'.mp h)]
    rfl
  · rw [hmem', or_iff_left]
    rintro ⟨hown,-⟩
    exact h (hany'.mpr hown)

/-- The groupings of a transaction. -/
theorem mem_txGroupings (grouping : Finset CTxDestination) : grouping ∈ txGroupings env tx ↔
    (grouping.Nonempty ∧ ∀ a, a ∈ grouping ↔ LinksAddresses env tx a) ∨
      ∃ txout ∈ tx.vout, env.keystore.isMine txout.scriptPubKey = true ∧
        ∃ a, destination env txout = some a ∧ grouping = {a} := by
  rw [txGroupings, List.mem_append]
  refine or_congr ?_ ?_
  · constructor
    · intro h
      split_ifs at h with hcard
      · rw [List.mem_singleton.mp h]
        exact ⟨Finset.card_pos.mp hcard, mem_inputGrouping⟩
      · cases h
    · rintro ⟨hne,hmem⟩
      -- two groupings with the same members are one `Finset`
      have heq : grouping = inputGrouping env tx := by
        ext a
        rw [hmem, mem_inputGrouping]
      rw [← heq, if_pos (Finset.card_pos.mpr hne)]
      exact List.mem_singleton_self grouping
  · rw [List.mem_filterMap]
    refine exists_congr fun txout => and_congr_right fun _ => ?_
    cases env.keystore.isMine txout.scriptPubKey <;> simp [eq_comm]

theorem mem_groupings (grouping : Finset CTxDestination) : grouping ∈ groupings env ↔
    ∃ hash ∈ env.mapWallet.keys, grouping ∈ txGroupings env (env.mapWallet.wtx hash).tx := by
  rw [groupings, (List.perm_insertionSort _ _).mem_iff, List.mem_dedup, List.mem_flatMap]

/-- The addresses of the groupings. -/
theorem covered_iff (a : CTxDestination) : (∃ grouping ∈ groupings env, a ∈ grouping) ↔
    OwnOutput env a ∨ ∃ hash ∈ env.mapWallet.keys, LinksAddresses env (env.mapWallet.wtx hash).tx a := by
  constructor
  · rintro ⟨grouping,hgrouping,ha⟩
    obtain ⟨hash,hhash,hmem⟩ := (mem_groupings grouping).mp hgrouping
    rcases (mem_txGroupings grouping).mp hmem with ⟨-,hlinks⟩ | ⟨txout,htxout,hmine,a',hdest,rfl⟩
    · exact Or.inr ⟨hash, hhash, (hlinks a).mp ha⟩
    · rw [Finset.mem_singleton.mp ha]
      exact Or.inl ⟨hash, hhash, txout, htxout, hmine, hdest⟩
  · rintro (⟨hash,hhash,txout,htxout,hmine,hdest⟩ | ⟨hash,hhash,hlinks⟩)
    · refine ⟨{a}, (mem_groupings _).mpr ⟨hash, hhash, ?_⟩, Finset.mem_singleton_self a⟩
      exact (mem_txGroupings _).mpr (Or.inr ⟨txout, htxout, hmine, a, hdest, rfl⟩)
    · have ha := (mem_inputGrouping a).mpr hlinks
      refine ⟨_, (mem_groupings _).mpr ⟨hash, hhash, ?_⟩, ha⟩
      exact (mem_txGroupings _).mpr (Or.inl ⟨⟨a, ha⟩, mem_inputGrouping⟩)

/-- What joins two addresses is a chain of transactions: a grouping of one output joins nothing. -/
theorem joined_iff (a b : CTxDestination) : Joined (groupings env) a b ↔
    Relation.EqvGen (fun a b => ∃ hash ∈ env.mapWallet.keys,
      LinksAddresses env (env.mapWallet.wtx hash).tx a ∧
        LinksAddresses env (env.mapWallet.wtx hash).tx b) a b := by
  constructor
  · intro h
    refine (Relation.EqvGen.is_equivalence _).eqvGen_iff.mp (Relation.EqvGen.mono ?_ a b h)
    rintro a b ⟨grouping,hgrouping,ha,hb⟩
    obtain ⟨hash,hhash,hmem⟩ := (mem_groupings grouping).mp hgrouping
    rcases (mem_txGroupings grouping).mp hmem with ⟨-,hlinks⟩ | ⟨txout,-,-,a',-,rfl⟩
    · exact Relation.EqvGen.rel a b ⟨hash, hhash, (hlinks a).mp ha, (hlinks b).mp hb⟩
    · rw [Finset.mem_singleton.mp ha, Finset.mem_singleton.mp hb]
      exact Relation.EqvGen.refl a'
  · apply Relation.EqvGen.mono
    rintro a b ⟨hash,hhash,ha,hb⟩
    have ha := (mem_inputGrouping a).mpr ha
    refine ⟨_, (mem_groupings _).mpr ⟨hash, hhash, ?_⟩, ha, (mem_inputGrouping b).mpr hb⟩
    exact (mem_txGroupings _).mpr (Or.inl ⟨⟨a, ha⟩, mem_inputGrouping⟩)

theorem groupings_nonempty : ∀ grouping ∈ groupings env, grouping.Nonempty := by
  intro grouping hgrouping
  obtain ⟨hash,hhash,hmem⟩ := (mem_groupings grouping).mp hgrouping
  rcases (mem_txGroupings grouping).mp hmem with ⟨hne,-⟩ | ⟨txout,-,-,a,-,rfl⟩
  · exact hne
  · exact Finset.singleton_nonempty a

/-- The merge loop and the last loop follow and delete every pointer once, nothing is left on the heap,
and the result is the components of the groupings. -/
theorem getAddressGroupings_spec (env : GroupingEnv) (malloc : Malloc CTxDestination) :
    ∃ ret heap, getAddressGroupings env malloc = some (ret,heap) ∧ (∀ p, p ∉ heap) ∧
      Components (groupings env) ret := by
  obtain ⟨s,P,hmerge,hrep,hcomp⟩ := represents_empty.mergeAll malloc [] (groupings env) components_nil
    groupings_nonempty
  obtain ⟨ret,heap,hcollect,hret,hheap⟩ := collectGroups_spec (s.uniqueGroupings.sort (· ≤ ·))
    (Finset.sort_nodup _ _) s.heap (fun p hp => (hrep.unique p).mp ((Finset.mem_sort _).mp hp)) ∅
  have hretP : ret = P := by
    ext k
    rw [hret, hrep.groups, or_iff_right (Finset.notMem_empty k)]
    refine exists_congr fun p => and_iff_right_of_imp fun hk => ?_
    rw [Finset.mem_sort, hrep.unique, GroupHeap.mem_iff]
    exact ⟨k, hk⟩
  subst hretP
  refine ⟨ret, heap, ?_, fun p hp => ?_, hcomp.congr fun grouping => by simp⟩
  · rw [getAddressGroupings, hmerge, Option.bind_eq_bind, Option.bind_some, hcollect]
  · obtain ⟨hlive,hnot⟩ := (hheap p).mp hp
    exact hnot ((Finset.mem_sort _).mpr ((hrep.unique p).mpr hlive))

end Groups

/-- The groupings are the connected components of the addresses that are own outputs or linked by a
transaction. -/
theorem address_groupings_components (env : GroupingEnv) (malloc : Malloc CTxDestination) :
    ∃ ret heap, getAddressGroupings env malloc = some (ret,heap) ∧ (∀ p, p ∉ heap) ∧
      AreComponents env (LinksAddresses env) ret := by
  obtain ⟨ret,heap,hrun,hheap,hcomp⟩ := getAddressGroupings_spec env malloc
  have hcovers (a : CTxDestination) : (∃ grouping ∈ ret, a ∈ grouping) ↔
      ∃ grouping ∈ groupings env, a ∈ grouping := by
    constructor
    · rintro ⟨grouping,hgrouping,ha⟩
      exact hcomp.covered grouping hgrouping a ha
    · rintro ⟨grouping,hgrouping,ha⟩
      obtain ⟨k,hk,hsub⟩ := hcomp.contains grouping hgrouping
      exact ⟨k, hk, hsub ha⟩
  refine ⟨ret, heap, hrun, hheap, ?_⟩
  constructor
  · exact hcomp.nonempty
  · intro grouping hgrouping grouping' hgrouping' hne
    rw [Finset.disjoint_left]
    exact fun a ha ha' => hne (hcomp.disjoint grouping hgrouping grouping' hgrouping' a ha ha')
  · intro a
    rw [hcovers, covered_iff]
  · intro a b ha _
    rw [hcomp.same_iff ((hcovers a).mp ha), joined_iff]

section Sample

/-- Four keys of the wallet; an ID is the first byte of its key. -/
def sampleKeyStore : KeyStore := ⟨fun pubkey => BitVec.ofNat 160 (pubkey.headD 0).toNat,
  fun id => decide (2 ≤ id.toNat ∧ id.toNat ≤ 5), ∅⟩

def sampleMultisig : CScript :=
  0x52 :: 33 :: (List.replicate 33 2 ++ 33 :: (List.replicate 33 3 ++ [0x52,0xae]))

def samplePubKeyHash (id : UInt8) : CScript :=
  [0x76,0xa9,20] ++ id :: (List.replicate 19 0 ++ [0x88,0xac])

/-- A transaction that pays two of the keys together. -/
def sampleFunding : CTransaction := ⟨1, [], [⟨10, sampleMultisig⟩], 0⟩

/-- Its output is spent to the two others. -/
def sampleSpending : CTransaction :=
  ⟨1, [⟨⟨1,0⟩, [], 0⟩], [⟨5, samplePubKeyHash 4⟩, ⟨5, samplePubKeyHash 5⟩], 0⟩

def sampleGroupingEnv : GroupingEnv where
  mapWallet :=
    { txHash := fun tx => if tx.vin.isEmpty then 1 else 2
      keys := [1,2]
      wtx := fun hash => ⟨if hash = 1 then sampleFunding else sampleSpending, [], 0, true, true, true⟩
      nodup := by decide
      hash_eq := by
        intro hash hhash
        rcases List.mem_pair.mp hhash with rfl | rfl <;> rfl }
  keystore := sampleKeyStore
  mapAddressBook := []

def nextPointer : Malloc CTxDestination where
  new _ heap := heap.keys.sum+1
  fresh _ heap h := by
    have hle := List.le_sum_of_mem (AList.mem_keys.mp h)
    omega

/-- Change that comes from an input without an address is not grouped. -/
theorem change_of_multisig_apart :
    ¬∀ (env : GroupingEnv) (malloc : Malloc CTxDestination), ∃ ret heap,
      getAddressGroupings env malloc = some (ret,heap) ∧ AreComponents env (Links env) ret := by
  intro hall
  obtain ⟨ret,heap,hrun,hclaim⟩ := hall sampleGroupingEnv nextPointer
  obtain ⟨ret',heap',hrun',-,hcomp⟩ := getAddressGroupings_spec sampleGroupingEnv nextPointer
  obtain ⟨rfl,-⟩ := Prod.mk.inj (Option.some.inj (hrun.symm.trans hrun'))
  -- every grouping has one address
  have hfunding : txGroupings sampleGroupingEnv sampleFunding = [] := by decide +kernel
  have hspending : txGroupings sampleGroupingEnv sampleSpending = [{.keyID 4},{.keyID 5}] := by
    decide +kernel
  have hsingle : ∀ grouping ∈ groupings sampleGroupingEnv, ∃ a, grouping = {a} := by
    intro grouping hgrouping
    obtain ⟨hash,hhash,hmem⟩ := (mem_groupings grouping).mp hgrouping
    rcases List.mem_pair.mp hhash with rfl | rfl
    · rw [show (sampleGroupingEnv.mapWallet.wtx 1).tx = sampleFunding from rfl, hfunding] at hmem
      cases hmem
    · rw [show (sampleGroupingEnv.mapWallet.wtx 2).tx = sampleSpending from rfl, hspending] at hmem
      rcases List.mem_pair.mp hmem with rfl | rfl
      · exact ⟨_, rfl⟩
      · exact ⟨_, rfl⟩
  have hsame : ∀ a b, Joined (groupings sampleGroupingEnv) a b → a = b := by
    intro a b hjoin
    refine eq_equivalence.eqvGen_iff.mp (Relation.EqvGen.mono ?_ a b hjoin)
    rintro a b ⟨grouping,hgrouping,ha,hb⟩
    obtain ⟨c,rfl⟩ := hsingle grouping hgrouping
    rw [Finset.mem_singleton.mp ha, Finset.mem_singleton.mp hb]
  -- and both addresses are change of a transaction with an own input
  have hmine : ∃ txin ∈ sampleSpending.vin, isMineInput sampleGroupingEnv txin = true :=
    ⟨_, List.mem_singleton_self _, by decide +kernel⟩
  have hfour : Links sampleGroupingEnv sampleSpending (.keyID 4) :=
    Or.inr ⟨hmine, _, List.mem_cons_self, by decide +kernel, by decide +kernel⟩
  have hfive : Links sampleGroupingEnv sampleSpending (.keyID 5) :=
    Or.inr ⟨hmine, _, List.mem_cons_of_mem _ (List.mem_singleton_self _), by decide +kernel,
      by decide +kernel⟩
  have hkey : (2 : WtxPtr) ∈ sampleGroupingEnv.mapWallet.keys := by
    exact List.mem_cons_of_mem _ (List.mem_singleton_self _)
  obtain ⟨grouping,hgrouping,ha,hb⟩ := (hclaim.connected _ _
    ((hclaim.covers _).mpr (Or.inr ⟨2, hkey, hfour⟩))
    ((hclaim.covers _).mpr (Or.inr ⟨2, hkey, hfive⟩))).mpr
      (Relation.EqvGen.rel _ _ ⟨2, hkey, hfour, hfive⟩)
  have heq := hsame _ _ (hcomp.joined grouping hgrouping _ ha _ hb)
  exact absurd heq (by decide)

end Sample

end Candypool.Wallet
