import Candypool.Core.Serialize
import Mathlib.Data.List.Infix

/-! Alerts: messages signed with the alert key, which cancel each other by number. The number `INT_MAX`
is kept for the alert that tells that the key is compromised. -/
namespace Candypool.Net
open Candypool.Prime Candypool.Core

/-- `std::numeric_limits<int>::max()`. -/
def maxInt : ℤ := 2147483647

structure CUnsignedAlert where
  nVersion : ℤ
  nRelayUntil : ℤ
  nExpiration : ℤ
  nID : ℤ
  nCancel : ℤ
  setCancel : List ℤ
  nMinVer : ℤ
  nMaxVer : ℤ
  setSubVer : List (List UInt8)
  nPriority : ℤ
  strComment : List UInt8
  strStatusBar : List UInt8
  strReserved : List UInt8
  deriving DecidableEq, Repr

/-- An alert whose signature was checked: the fields are read from the message. -/
structure CAlert extends CUnsignedAlert where
  vchMsg : List UInt8
  vchSig : List UInt8
  deriving DecidableEq, Repr

section Format

def serializeInt (size : ℕ) (v : ℤ) : List UInt8 := numberBytes size (v % 256^size).toNat

/-- A signed number of `size` bytes. -/
def unserializeInt (size : ℕ) : Unserializer ℤ := fun bytes =>
  (unserializeNumber size bytes).map fun (v,rest) => ((v : ℤ).bmod (256^size), rest)

def serializeString (str : List UInt8) : List UInt8 := writeCompactSize str.length ++ str

def unserializeString : Unserializer (List UInt8) := fun bytes => do
  let (nSize,rest) ← readCompactSize bytes
  if rest.length < nSize then none else some (rest.take nSize, rest.drop nSize)

def serializeUnsignedAlert (alert : CUnsignedAlert) : List UInt8 :=
  serializeInt 4 alert.nVersion ++ serializeInt 8 alert.nRelayUntil ++
    serializeInt 8 alert.nExpiration ++ serializeInt 4 alert.nID ++ serializeInt 4 alert.nCancel ++
    serializeVector (serializeInt 4) alert.setCancel ++ serializeInt 4 alert.nMinVer ++
    serializeInt 4 alert.nMaxVer ++ serializeVector serializeString alert.setSubVer ++
    serializeInt 4 alert.nPriority ++ serializeString alert.strComment ++
    serializeString alert.strStatusBar ++ serializeString alert.strReserved

/-- A set is read as the list of its elements, which may repeat. -/
def unserializeUnsignedAlert : Unserializer CUnsignedAlert := fun bytes => do
  let (nVersion,rest) ← unserializeInt 4 bytes
  let (nRelayUntil,rest) ← unserializeInt 8 rest
  let (nExpiration,rest) ← unserializeInt 8 rest
  let (nID,rest) ← unserializeInt 4 rest
  let (nCancel,rest) ← unserializeInt 4 rest
  let (setCancel,rest) ← unserializeVector (unserializeInt 4) rest
  let (nMinVer,rest) ← unserializeInt 4 rest
  let (nMaxVer,rest) ← unserializeInt 4 rest
  let (setSubVer,rest) ← unserializeVector unserializeString rest
  let (nPriority,rest) ← unserializeInt 4 rest
  let (strComment,rest) ← unserializeString rest
  let (strStatusBar,rest) ← unserializeString rest
  let (strReserved,rest) ← unserializeString rest
  some (⟨nVersion, nRelayUntil, nExpiration, nID, nCancel, setCancel, nMinVer, nMaxVer, setSubVer,
    nPriority, strComment, strStatusBar, strReserved⟩, rest)

end Format

namespace CAlert

def isInEffect (alert : CAlert) (nAdjustedTime : ℤ) : Bool :=
  decide (nAdjustedTime < alert.nExpiration)

/-- `alert.Cancels(other)`. -/
def cancels (alert : CAlert) (nAdjustedTime : ℤ) (other : CAlert) : Bool :=
  alert.isInEffect nAdjustedTime &&
    (decide (other.nID ≤ alert.nCancel) || alert.setCancel.contains other.nID)

end CAlert

/-- "URGENT: Alert key compromised, upgrade required". -/
def urgentText : List UInt8 := "URGENT: Alert key compromised, upgrade required".toList.map
  fun c => UInt8.ofNat c.toNat

/-- The form that is prescribed for an alert with the number `INT_MAX`. -/
def CAlert.isPredefined (alert : CAlert) : Bool :=
  decide (alert.nExpiration = maxInt ∧ alert.nCancel = maxInt-1 ∧ alert.nMinVer = 0 ∧
    alert.nMaxVer = maxInt ∧ alert.setSubVer = [] ∧ alert.nPriority = maxInt ∧
    alert.strStatusBar = urgentText)

/-- What `ProcessAlert` asks of the alert alone. -/
def CAlert.admissible (alert : CAlert) (nAdjustedTime : ℤ) : Bool :=
  alert.isInEffect nAdjustedTime && (decide (alert.nID ≠ maxInt) || alert.isPredefined)

/-- `mapAlerts`: the alerts with their hashes. -/
abbrev AlertMap := List (Uint256 × CAlert)

/-- One call of `ProcessAlert`, and the clock at that time. -/
structure AlertCall where
  nAdjustedTime : ℤ
  vchMsg : List UInt8
  vchSig : List UInt8
  deriving DecidableEq, Repr

section Process
variable (verify : List UInt8 → List UInt8 → Bool) (hash : List UInt8 → Uint256)

/-- `CheckSignature`: the fields are read from a message that the alert key has signed. -/
def checkSignature (vchMsg vchSig : List UInt8) : Option CAlert :=
  if verify vchMsg vchSig then
    (unserializeUnsignedAlert vchMsg).map fun (alert,_) => ⟨alert, vchMsg, vchSig⟩
  else none

/-- The loop that drops the alerts `alert` cancels and those that have expired. -/
def cancelPrevious (alert : CAlert) (nAdjustedTime : ℤ) (mapAlerts : AlertMap) : AlertMap :=
  mapAlerts.filter fun item =>
    !alert.cancels nAdjustedTime item.2 && item.2.isInEffect nAdjustedTime

/-- `mapAlerts.insert`, which keeps an entry that is there. -/
def insertAlert (mapAlerts : AlertMap) (alert : CAlert) : AlertMap :=
  if mapAlerts.any fun item => item.1 == hash alert.vchMsg then mapAlerts
  else mapAlerts ++ [(hash alert.vchMsg, alert)]

/-- The map after `ProcessAlert`. What is cancelled is gone also when the alert is then refused. -/
def processAlert (mapAlerts : AlertMap) (call : AlertCall) : AlertMap :=
  match checkSignature verify call.vchMsg call.vchSig with
  | none => mapAlerts
  | some alert =>
    if alert.admissible call.nAdjustedTime then
      let mapAlerts := cancelPrevious alert call.nAdjustedTime mapAlerts
      if mapAlerts.any fun item => item.2.cancels call.nAdjustedTime alert then mapAlerts
      else insertAlert hash mapAlerts alert
    else mapAlerts

def processAlerts (mapAlerts : AlertMap) (calls : List AlertCall) : AlertMap :=
  calls.foldl (processAlert verify hash) mapAlerts

end Process

/-- The alert with this message is in the map. -/
def Holds (mapAlerts : AlertMap) (vchMsg : List UInt8) : Prop :=
  ∃ item ∈ mapAlerts, item.2.vchMsg = vchMsg

instance (mapAlerts : AlertMap) (vchMsg : List UInt8) : Decidable (Holds mapAlerts vchMsg) :=
  inferInstanceAs (Decidable (∃ item ∈ mapAlerts, item.2.vchMsg = vchMsg))

section Entries
variable {verify : List UInt8 → List UInt8 → Bool} {hash : List UInt8 → Uint256}

/-- The fields of an alert are those of its message. -/
def CAlert.FromMessage (alert : CAlert) : Prop :=
  ∃ rest, unserializeUnsignedAlert alert.vchMsg = some (alert.toCUnsignedAlert, rest)

/-- Every entry was read from its message. -/
def MapOk (mapAlerts : AlertMap) : Prop := ∀ item ∈ mapAlerts, item.2.FromMessage

theorem fields_of_message {alert alert' : CAlert} (h : alert.FromMessage) (h' : alert'.FromMessage)
    (hmsg : alert.vchMsg = alert'.vchMsg) : alert.toCUnsignedAlert = alert'.toCUnsignedAlert := by
  obtain ⟨rest,hread⟩ := h
  obtain ⟨rest',hread'⟩ := h'
  rw [hmsg, hread'] at hread
  exact (Prod.mk.inj (Option.some.inj hread)).1.symm

theorem checkSignature_eq {vchMsg vchSig : List UInt8} {alert : CAlert}
    (h : checkSignature verify vchMsg vchSig = some alert) :
    alert.vchMsg = vchMsg ∧ alert.FromMessage := by
  rw [checkSignature] at h
  split_ifs at h
  obtain ⟨⟨fields,rest⟩,hread,rfl⟩ := Option.map_eq_some_iff.mp h
  exact ⟨rfl, rest, hread⟩

theorem unserializeInt_le {bytes rest : List UInt8} {v : ℤ}
    (h : unserializeInt 4 bytes = some (v, rest)) : v ≤ maxInt := by
  obtain ⟨⟨n,rest'⟩,-,heq⟩ := Option.map_eq_some_iff.mp h
  rw [← (Prod.mk.inj heq).1, maxInt]
  have hlt := Int.bmod_lt (x := (n : ℤ)) (m := 256^4) (by decide)
  omega

/-- No number and no bound is above `INT_MAX`. -/
theorem nID_nCancel_le {alert : CAlert} (h : alert.FromMessage) :
    alert.nID ≤ maxInt ∧ alert.nCancel ≤ maxInt := by
  obtain ⟨rest,hread⟩ := h
  obtain ⟨_,-,hread⟩ := Option.bind_eq_some_iff.mp hread
  obtain ⟨_,-,hread⟩ := Option.bind_eq_some_iff.mp hread
  obtain ⟨_,-,hread⟩ := Option.bind_eq_some_iff.mp hread
  obtain ⟨⟨nID,_⟩,hnID,hread⟩ := Option.bind_eq_some_iff.mp hread
  obtain ⟨⟨nCancel,_⟩,hnCancel,hread⟩ := Option.bind_eq_some_iff.mp hread
  obtain ⟨_,-,hread⟩ := Option.bind_eq_some_iff.mp hread
  obtain ⟨_,-,hread⟩ := Option.bind_eq_some_iff.mp hread
  obtain ⟨_,-,hread⟩ := Option.bind_eq_some_iff.mp hread
  obtain ⟨_,-,hread⟩ := Option.bind_eq_some_iff.mp hread
  obtain ⟨_,-,hread⟩ := Option.bind_eq_some_iff.mp hread
  obtain ⟨_,-,hread⟩ := Option.bind_eq_some_iff.mp hread
  obtain ⟨_,-,hread⟩ := Option.bind_eq_some_iff.mp hread
  obtain ⟨_,-,hread⟩ := Option.bind_eq_some_iff.mp hread
  have hfields := (Prod.mk.inj (Option.some.inj hread)).1
  rw [← congrArg CUnsignedAlert.nID hfields, ← congrArg CUnsignedAlert.nCancel hfields]
  exact ⟨unserializeInt_le hnID, unserializeInt_le hnCancel⟩

/-- What a call does: nothing, or the alert cancels and is then refused or inserted. -/
theorem processAlert_cases (mapAlerts : AlertMap) (call : AlertCall) :
    (processAlert verify hash mapAlerts call = mapAlerts ∧
      ∀ alert, checkSignature verify call.vchMsg call.vchSig = some alert →
        alert.admissible call.nAdjustedTime = false) ∨
    ∃ alert, checkSignature verify call.vchMsg call.vchSig = some alert ∧
      alert.admissible call.nAdjustedTime = true ∧
      processAlert verify hash mapAlerts call =
        if (cancelPrevious alert call.nAdjustedTime mapAlerts).any
            fun item => item.2.cancels call.nAdjustedTime alert then
          cancelPrevious alert call.nAdjustedTime mapAlerts
        else insertAlert hash (cancelPrevious alert call.nAdjustedTime mapAlerts) alert := by
  rw [processAlert]
  cases hcheck : checkSignature verify call.vchMsg call.vchSig with
  | none => exact Or.inl ⟨rfl, fun _ h => by cases h⟩
  | some alert =>
    dsimp only
    cases hadm : alert.admissible call.nAdjustedTime with
    | false =>
      refine Or.inl ⟨rfl, ?_⟩
      intro alert' h
      rw [← Option.some.inj h]
      exact hadm
    | true => exact Or.inr ⟨alert, rfl, hadm, rfl⟩

theorem mem_insertAlert {mapAlerts : AlertMap} {alert : CAlert} {item : Uint256 × CAlert}
    (h : item ∈ insertAlert hash mapAlerts alert) : item ∈ mapAlerts ∨ item.2 = alert := by
  rw [insertAlert] at h
  split_ifs at h
  · exact Or.inl h
  · rcases List.mem_append.mp h with hin | hnew
    · exact Or.inl hin
    · rw [List.mem_singleton.mp hnew]
      exact Or.inr rfl

theorem subset_insertAlert (mapAlerts : AlertMap) (alert : CAlert) :
    mapAlerts ⊆ insertAlert hash mapAlerts alert := by
  rw [insertAlert]
  split_ifs
  · exact List.Subset.refl _
  · exact List.subset_append_left _ _

theorem MapOk.process {mapAlerts : AlertMap} (h : MapOk mapAlerts) (call : AlertCall) :
    MapOk (processAlert verify hash mapAlerts call) := by
  rcases processAlert_cases mapAlerts call with ⟨heq,-⟩ | ⟨alert,hcheck,-,heq⟩
  · rw [heq]
    exact h
  · have hkept : MapOk (cancelPrevious alert call.nAdjustedTime mapAlerts) :=
      fun item hmem => h item (List.mem_of_mem_filter hmem)
    rw [heq]
    intro item hmem
    split_ifs at hmem
    · exact hkept item hmem
    · rcases mem_insertAlert hmem with hin | hnew
      · exact hkept item hin
      · rw [hnew]
        exact (checkSignature_eq hcheck).2

theorem MapOk.processAll {mapAlerts : AlertMap} (h : MapOk mapAlerts) (calls : List AlertCall) :
    MapOk (processAlerts verify hash mapAlerts calls) := by
  induction calls generalizing mapAlerts with
  | nil => exact h
  | cons call calls ih => exact ih (h.process call)

end Entries

section KeyAlert
variable {verify : List UInt8 → List UInt8 → Bool} {hash : List UInt8 → Uint256}
  {key : CAlert} {mapAlerts : AlertMap}

/-- The alert that tells that the key is compromised: the reserved number and the prescribed form. -/
structure CAlert.IsKeyAlert (alert : CAlert) : Prop where
  nID : alert.nID = maxInt
  predefined : alert.isPredefined = true
  fromMessage : alert.FromMessage

theorem CAlert.IsKeyAlert.nCancel (h : key.IsKeyAlert) : key.nCancel = maxInt-1 :=
  (of_decide_eq_true h.predefined).2.1

theorem CAlert.IsKeyAlert.isInEffect (h : key.IsKeyAlert) {nAdjustedTime : ℤ}
    (hnow : nAdjustedTime < maxInt) : key.isInEffect nAdjustedTime = true := by
  apply decide_eq_true
  rw [(of_decide_eq_true h.predefined).1]
  exact hnow

/-- An alert spares the key alert when it is refused for itself, is the key alert again, or names
`INT_MAX` neither as its bound nor in its set. -/
def AlertCall.Spares (verify : List UInt8 → List UInt8 → Bool) (call : AlertCall) (key : CAlert) :
    Prop :=
  ∀ alert, checkSignature verify call.vchMsg call.vchSig = some alert →
    alert.admissible call.nAdjustedTime = true → call.vchMsg = key.vchMsg ∨
      (alert.nCancel ≠ maxInt ∧ maxInt ∉ alert.setCancel)

/-- The key alert stays among the alerts that are not cancelled when it is not cancelled itself. -/
theorem holds_cancelPrevious (hok : MapOk mapAlerts) (hkey : key.IsKeyAlert) (alert : CAlert)
    {nAdjustedTime : ℤ} (hnow : nAdjustedTime < maxInt) :
    Holds (cancelPrevious alert nAdjustedTime mapAlerts) key.vchMsg ↔
      Holds mapAlerts key.vchMsg ∧ alert.cancels nAdjustedTime key = false := by
  have hsame : ∀ item ∈ mapAlerts, item.2.vchMsg = key.vchMsg →
      alert.cancels nAdjustedTime item.2 = alert.cancels nAdjustedTime key ∧
        item.2.isInEffect nAdjustedTime = true := by
    intro item hmem hmsg
    have hfields := fields_of_message (hok item hmem) hkey.fromMessage hmsg
    refine ⟨?_, ?_⟩
    · rw [CAlert.cancels, CAlert.cancels, congrArg CUnsignedAlert.nID hfields]
    · rw [CAlert.isInEffect, congrArg CUnsignedAlert.nExpiration hfields]
      exact hkey.isInEffect hnow
  constructor
  · rintro ⟨item,hmem,hmsg⟩
    obtain ⟨hin,hkept⟩ := List.mem_filter.mp hmem
    refine ⟨⟨item, hin, hmsg⟩, ?_⟩
    rw [← (hsame item hin hmsg).1]
    simpa using (Bool.and_eq_true_iff.mp hkept).1
  · rintro ⟨⟨item,hin,hmsg⟩,hspared⟩
    refine ⟨item, List.mem_filter.mpr ⟨hin, ?_⟩, hmsg⟩
    rw [(hsame item hin hmsg).1, hspared, (hsame item hin hmsg).2]
    rfl

theorem cancels_key_iff (hkey : key.IsKeyAlert) {alert : CAlert} {nAdjustedTime : ℤ}
    (hle : alert.nCancel ≤ maxInt) (heffect : alert.isInEffect nAdjustedTime = true) :
    alert.cancels nAdjustedTime key = false ↔
      alert.nCancel ≠ maxInt ∧ maxInt ∉ alert.setCancel := by
  rw [CAlert.cancels, heffect, hkey.nID, Bool.true_and, Bool.or_eq_false_iff,
    decide_eq_false_iff_not]
  apply and_congr
  · omega
  · simp

theorem holds_insertAlert {vchMsg : List UInt8} (h : Holds mapAlerts vchMsg) (alert : CAlert) :
    Holds (insertAlert hash mapAlerts alert) vchMsg := by
  obtain ⟨item,hmem,hmsg⟩ := h
  exact ⟨item, subset_insertAlert mapAlerts alert hmem, hmsg⟩

/-- A key alert that cancels itself cancels all others. -/
theorem cancelPrevious_of_self (hok : MapOk mapAlerts) (hkey : key.IsKeyAlert) {alert : CAlert}
    {nAdjustedTime : ℤ} (hfields : alert.toCUnsignedAlert = key.toCUnsignedAlert)
    (hself : alert.cancels nAdjustedTime key = true) :
    cancelPrevious alert nAdjustedTime mapAlerts = [] := by
  apply List.filter_eq_nil_iff.mpr
  intro item hmem hkept
  have hle := (nID_nCancel_le (hok item hmem)).1
  have hcancel : alert.nCancel = maxInt-1 := by
    rw [congrArg CUnsignedAlert.nCancel hfields]
    exact hkey.nCancel
  rw [CAlert.cancels, Bool.and_eq_true, hkey.nID, hcancel] at hself
  have hset : alert.setCancel.contains maxInt = true := by simpa using hself.2
  have hcancels : alert.cancels nAdjustedTime item.2 = true := by
    rw [CAlert.cancels, hself.1, hcancel, Bool.true_and, Bool.or_eq_true]
    rcases lt_or_eq_of_le hle with hlt | heq
    · exact Or.inl (decide_eq_true (by omega))
    · rw [heq]
      exact Or.inr hset
  simp [hcancels] at hkept

/-- A call keeps the key alert in the map exactly when it spares it. -/
theorem holds_process_iff (hok : MapOk mapAlerts) (hkey : key.IsKeyAlert)
    (hin : Holds mapAlerts key.vchMsg) {call : AlertCall} (hnow : call.nAdjustedTime < maxInt) :
    Holds (processAlert verify hash mapAlerts call) key.vchMsg ↔ call.Spares verify key := by
  rcases processAlert_cases mapAlerts call with ⟨heq,hrefused⟩ | ⟨alert,hcheck,hadm,heq⟩
  · rw [heq]
    constructor
    · intro _ alert hcheck hadm
      rw [hrefused alert hcheck] at hadm
      cases hadm
    · exact fun _ => hin
  obtain ⟨hmsg,hfrom⟩ := checkSignature_eq hcheck
  have heffect : alert.isInEffect call.nAdjustedTime = true := (Bool.and_eq_true_iff.mp hadm).1
  have hspared := cancels_key_iff hkey (nID_nCancel_le hfrom).2 heffect
  have hkept := holds_cancelPrevious hok hkey alert hnow
  rw [heq]
  cases hcancels : alert.cancels call.nAdjustedTime key with
  | false =>
    -- the key alert is not touched, whatever becomes of the new one
    have hstays := hkept.mpr ⟨hin, hcancels⟩
    constructor
    · intro _ alert' hcheck' _
      rw [hcheck] at hcheck'
      rw [← Option.some.inj hcheck']
      exact Or.inr (hspared.mp hcancels)
    · intro _
      split_ifs
      · exact hstays
      · exact holds_insertAlert hstays alert
  | true =>
    by_cases hsame : call.vchMsg = key.vchMsg
    · -- the key alert again: it cancels every entry and is put back
      have hfields := fields_of_message hfrom hkey.fromMessage (hmsg.trans hsame)
      constructor
      · intro _ alert' _ _
        exact Or.inl hsame
      · intro _
        rw [cancelPrevious_of_self hok hkey hfields hcancels]
        exact ⟨(hash alert.vchMsg, alert), by simp [insertAlert], hmsg.trans hsame⟩
    · have hgone : ¬ Holds (cancelPrevious alert call.nAdjustedTime mapAlerts) key.vchMsg := by
        rw [hkept, hcancels]
        exact fun h => Bool.false_ne_true h.2.symm
      constructor
      · intro hholds
        exfalso
        split_ifs at hholds
        · exact hgone hholds
        · obtain ⟨item,hmem,hitem⟩ := hholds
          rcases mem_insertAlert hmem with hold | hnew
          · exact hgone ⟨item, hold, hitem⟩
          · rw [hnew] at hitem
            exact hsame (hmsg.symm.trans hitem)
      · intro hspares
        exfalso
        rcases hspares alert hcheck hadm with h | h
        · exact hsame h
        · rw [hspared.mpr h] at hcancels
          cases hcancels

/-- The map before the key alert is submitted lets it in when the alert is there already and does not
cancel itself, or when no alert that it leaves cancels it or has its hash. -/
def Admits (hash : List UInt8 → Uint256) (mapAlerts : AlertMap) (key : CAlert) (nAdjustedTime : ℤ) :
    Prop :=
  (Holds mapAlerts key.vchMsg ∧ key.cancels nAdjustedTime key = false) ∨
    ∀ item ∈ mapAlerts, key.cancels nAdjustedTime item.2 = false →
      item.2.isInEffect nAdjustedTime = true →
        item.2.cancels nAdjustedTime key = false ∧ item.1 ≠ hash key.vchMsg

/-- The key alert is in the map after it was submitted exactly when the map lets it in. -/
theorem holds_submit_iff (hok : MapOk mapAlerts) (hkey : key.IsKeyAlert) {call : AlertCall}
    (hcheck : checkSignature verify call.vchMsg call.vchSig = some key)
    (hnow : call.nAdjustedTime < maxInt) :
    Holds (processAlert verify hash mapAlerts call) key.vchMsg ↔
      Admits hash mapAlerts key call.nAdjustedTime := by
  have hadm : key.admissible call.nAdjustedTime = true := by
    rw [CAlert.admissible, hkey.isInEffect hnow, hkey.predefined, Bool.or_true, Bool.and_true]
  have hkept := holds_cancelPrevious hok hkey key hnow
  have hmem : ∀ item, item ∈ cancelPrevious key call.nAdjustedTime mapAlerts ↔ item ∈ mapAlerts ∧
      key.cancels call.nAdjustedTime item.2 = false ∧
        item.2.isInEffect call.nAdjustedTime = true := by
    intro item
    rw [cancelPrevious, List.mem_filter, Bool.and_eq_true, Bool.not_eq_true']
  have hstep : processAlert verify hash mapAlerts call =
      if (cancelPrevious key call.nAdjustedTime mapAlerts).any
          fun item => item.2.cancels call.nAdjustedTime key then
        cancelPrevious key call.nAdjustedTime mapAlerts
      else insertAlert hash (cancelPrevious key call.nAdjustedTime mapAlerts) key := by
    rw [processAlert, hcheck]
    exact if_pos hadm
  rw [hstep, Admits, ← hkept]
  constructor
  -- the message was there before, or no alert that stays stands against it
  · intro hholds
    split_ifs at hholds with hcancelled
    · exact Or.inl hholds
    rw [insertAlert] at hholds
    split_ifs at hholds with hhash
    · exact Or.inl hholds
    refine Or.inr ?_
    intro item hin hspared heffect
    have hitem := (hmem item).mpr ⟨hin, hspared, heffect⟩
    refine ⟨?_, ?_⟩
    · rw [← Bool.not_eq_true]
      exact fun h => hcancelled (List.any_eq_true.mpr ⟨item, hitem, h⟩)
    · exact fun h => hhash (List.any_eq_true.mpr ⟨item, hitem, beq_iff_eq.mpr h⟩)
  · rintro (hstays | hfree)
    · split_ifs
      · exact hstays
      · exact holds_insertAlert hstays key
    · have hnone : ∀ item ∈ cancelPrevious key call.nAdjustedTime mapAlerts,
          item.2.cancels call.nAdjustedTime key = false ∧ item.1 ≠ hash key.vchMsg := by
        intro item hitem
        obtain ⟨hin,hspared,heffect⟩ := (hmem item).mp hitem
        exact hfree item hin hspared heffect
      rw [if_neg, insertAlert, if_neg]
      · exact ⟨_, List.mem_append_right _ (List.mem_singleton_self _), rfl⟩
      · intro h
        obtain ⟨item,hitem,heq⟩ := List.any_eq_true.mp h
        exact (hnone item hitem).2 (beq_iff_eq.mp heq)
      · intro h
        obtain ⟨item,hitem,heq⟩ := List.any_eq_true.mp h
        rw [(hnone item hitem).1] at heq
        cases heq

/-- From its submission on, the key alert is in the map after every call exactly when the map let it
in and every later call spares it. -/
theorem key_alert_kept_iff (hkey : key.IsKeyAlert) (before after : List AlertCall) {call : AlertCall}
    (hcheck : checkSignature verify call.vchMsg call.vchSig = some key)
    (hnow : ∀ later ∈ call :: after, later.nAdjustedTime < maxInt) :
    (∀ done, done <+: after →
      Holds (processAlerts verify hash [] (before ++ call :: done)) key.vchMsg) ↔
      Admits hash (processAlerts verify hash [] before) key call.nAdjustedTime ∧
        ∀ later ∈ after, later.Spares verify key := by
  have hrun : ∀ done, processAlerts verify hash [] (before ++ call :: done) =
      processAlerts verify hash
        (processAlert verify hash (processAlerts verify hash [] before) call) done :=
    fun done => List.foldl_append
  have hok : MapOk (processAlerts verify hash [] before) :=
    MapOk.processAll (fun item hmem => by cases hmem) before
  have hnow' : ∀ later ∈ after, later.nAdjustedTime < maxInt :=
    fun later hmem => hnow later (List.mem_cons_of_mem _ hmem)
  have hsubmit : Holds (processAlert verify hash (processAlerts verify hash [] before) call)
      key.vchMsg ↔ Admits hash (processAlerts verify hash [] before) key call.nAdjustedTime :=
    holds_submit_iff hok hkey hcheck (hnow call List.mem_cons_self)
  have hok' : MapOk (processAlert verify hash (processAlerts verify hash [] before) call) :=
    hok.process call
  simp only [hrun]
  rw [← hsubmit]
  generalize processAlert verify hash (processAlerts verify hash [] before) call = start at hok' ⊢
  clear hsubmit hrun hnow
  -- the calls are taken one by one; each keeps the alert exactly when it spares it
  induction after generalizing start with
  | nil =>
    constructor
    · exact fun h => ⟨h [] List.prefix_rfl, fun later hmem => by cases hmem⟩
    · rintro ⟨hin,-⟩ done hdone
      rw [List.prefix_nil.mp hdone]
      exact hin
  | cons later after ih =>
    have hstep : Holds start key.vchMsg → (Holds (processAlert verify hash start later) key.vchMsg ↔
        later.Spares verify key) :=
      fun hin => holds_process_iff hok' hkey hin (hnow' later List.mem_cons_self)
    have htail := ih (fun call hmem => hnow' call (List.mem_cons_of_mem _ hmem))
      (processAlert verify hash start later) (hok'.process later)
    rw [List.forall_mem_cons]
    constructor
    · intro h
      have hin := h [] (List.nil_prefix)
      have hrest := htail.mp fun done hdone => h (later :: done) (List.cons_prefix_cons.mpr ⟨rfl, hdone⟩)
      exact ⟨hin, (hstep hin).mp hrest.1, hrest.2⟩
    · rintro ⟨hin,hspares,hall⟩ done hdone
      cases done with
      | nil => exact hin
      | cons first done =>
        obtain ⟨rfl,hdone'⟩ := List.cons_prefix_cons.mp hdone
        exact htail.mpr ⟨(hstep hin).mpr hspares, hall⟩ done hdone'

end KeyAlert

section Samples

def keyFields : CUnsignedAlert :=
  ⟨1, maxInt, maxInt, maxInt, maxInt-1, [], 0, maxInt, [], maxInt, [], urgentText, []⟩

/-- An alert with another number may name `INT_MAX` as its bound. -/
def overrideFields : CUnsignedAlert :=
  ⟨1, maxInt, maxInt, 1, maxInt, [], 0, maxInt, [], 0, [], [], []⟩

/-- The call with the alert of these fields, signed with one byte. -/
def signedCall (fields : CUnsignedAlert) : AlertCall :=
  ⟨1400000000, serializeUnsignedAlert fields, [0x30]⟩

/-- Signatures of one byte stand for those made with the alert key. -/
def verifySample (_ vchSig : List UInt8) : Bool := vchSig == [0x30]

def hashSample (vchMsg : List UInt8) : Uint256 := BitVec.ofNat 256 (littleEndian vchMsg)

def keyAlert : CAlert := ⟨keyFields, serializeUnsignedAlert keyFields, [0x30]⟩

theorem keyAlert_isKeyAlert : keyAlert.IsKeyAlert where
  nID := rfl
  predefined := by decide +kernel
  fromMessage := by
    have hread : unserializeUnsignedAlert (serializeUnsignedAlert keyFields) = some (keyFields, []) := by
      decide +kernel
    exact ⟨[], hread⟩

theorem key_alert_kept_sample :
    (∀ done, done <+: [signedCall keyFields] →
      Holds (processAlerts verifySample hashSample [] ([] ++ signedCall keyFields :: done))
        keyAlert.vchMsg) ↔
      Admits hashSample (processAlerts verifySample hashSample [] []) keyAlert 1400000000 ∧
        ∀ later ∈ [signedCall keyFields], later.Spares verifySample keyAlert :=
  key_alert_kept_iff keyAlert_isKeyAlert [] [signedCall keyFields] (by decide +kernel) (by decide)

/-- An ordinary alert with the bound `INT_MAX` takes the key alert out of the map. -/
theorem key_alert_overridden :
    Holds (processAlerts verifySample hashSample [] [signedCall keyFields]) keyAlert.vchMsg ∧
      ¬ Holds (processAlerts verifySample hashSample []
        [signedCall keyFields, signedCall overrideFields]) keyAlert.vchMsg := by
  decide +kernel

end Samples

end Candypool.Net
