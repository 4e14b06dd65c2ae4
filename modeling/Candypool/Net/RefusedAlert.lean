import Candypool.Net.Alert

/-! What `ProcessAlert` leaves behind when it returns `false`. -/
namespace Candypool.Net
open Candypool.Prime Candypool.Core

section Refused
variable (verify : List UInt8 → List UInt8 → Bool) (hash : List UInt8 → Uint256)

/-- What `ProcessAlert` returns. -/
def processAlertResult (mapAlerts : AlertMap) (call : AlertCall) : Bool :=
  match checkSignature verify call.vchMsg call.vchSig with
  | none => false
  | some alert =>
    if alert.admissible call.nAdjustedTime then
      let mapAlerts := cancelPrevious alert call.nAdjustedTime mapAlerts
      if mapAlerts.any fun item => item.2.cancels call.nAdjustedTime alert then false else true
    else false

/-- No alert of the map cancels another one. -/
def Quiet (nAdjustedTime : ℤ) (mapAlerts : AlertMap) : Prop :=
  ∀ item ∈ mapAlerts, ∀ other ∈ mapAlerts, item.1 ≠ other.1 →
    item.2.cancels nAdjustedTime other.2 = false

/-- After the call no alert cancels another one, and a refused alert has left exactly what has not
expired. -/
def RefusalChangesNothing (mapAlerts : AlertMap) (call : AlertCall) : Prop :=
  Quiet call.nAdjustedTime (processAlert verify hash mapAlerts call) ∧
    (processAlertResult verify mapAlerts call = false → ∀ item,
      item ∈ processAlert verify hash mapAlerts call ↔
        item ∈ mapAlerts ∧ item.2.isInEffect call.nAdjustedTime = true)

/-- The alert fails a check that does not look at the map. -/
def AlertCall.FailsAlone (call : AlertCall) : Prop :=
  ∀ alert, checkSignature verify call.vchMsg call.vchSig = some alert →
    alert.admissible call.nAdjustedTime = false

/-- A stored alert in effect cancels the new one and is not cancelled by it. -/
def CancelledBy (mapAlerts : AlertMap) (alert : CAlert) (nAdjustedTime : ℤ) : Prop :=
  ∃ item ∈ mapAlerts, item.2.isInEffect nAdjustedTime = true ∧
    alert.cancels nAdjustedTime item.2 = false ∧ item.2.cancels nAdjustedTime alert = true

/-- An alert that fails alone finds no expired alert in the map, and one that is cancelled itself
cancels no stored alert that is in effect. -/
def Harmless (mapAlerts : AlertMap) (call : AlertCall) : Prop :=
  (call.FailsAlone verify → ∀ item ∈ mapAlerts, item.2.isInEffect call.nAdjustedTime = true) ∧
    ∀ alert, checkSignature verify call.vchMsg call.vchSig = some alert →
      alert.admissible call.nAdjustedTime = true → CancelledBy mapAlerts alert call.nAdjustedTime →
        ∀ item ∈ mapAlerts, item.2.isInEffect call.nAdjustedTime = true →
          alert.cancels call.nAdjustedTime item.2 = false

end Refused

section Proof
variable {verify : List UInt8 → List UInt8 → Bool} {hash : List UInt8 → Uint256}
  {mapAlerts : AlertMap} {call : AlertCall} {alert : CAlert} {nAdjustedTime : ℤ}

theorem mem_cancelPrevious {item : Uint256 × CAlert} :
    item ∈ cancelPrevious alert nAdjustedTime mapAlerts ↔ item ∈ mapAlerts ∧
      alert.cancels nAdjustedTime item.2 = false ∧ item.2.isInEffect nAdjustedTime = true := by
  simp only [cancelPrevious, List.mem_filter, Bool.and_eq_true, Bool.not_eq_true']

theorem any_cancels_iff : ((cancelPrevious alert nAdjustedTime mapAlerts).any
    fun item => item.2.cancels nAdjustedTime alert) = true ↔
      CancelledBy mapAlerts alert nAdjustedTime := by
  rw [List.any_eq_true]
  constructor
  · intro h
    obtain ⟨item,hmem,hcancels⟩ := h
    obtain ⟨hin,hspared,heffect⟩ := mem_cancelPrevious.mp hmem
    exact ⟨item, hin, heffect, hspared, hcancels⟩
  · intro h
    obtain ⟨item,hin,heffect,hspared,hcancels⟩ := h
    exact ⟨item, mem_cancelPrevious.mpr ⟨hin, hspared, heffect⟩, hcancels⟩

theorem Quiet.cancelPrevious (h : Quiet nAdjustedTime mapAlerts) (alert : CAlert) :
    Quiet nAdjustedTime (cancelPrevious alert nAdjustedTime mapAlerts) := by
  intro item hitem other hother hne
  exact h item (mem_cancelPrevious.mp hitem).1 other (mem_cancelPrevious.mp hother).1 hne

/-- A new alert that no alert left in the map cancels may join them. -/
theorem Quiet.insertAlert (h : Quiet nAdjustedTime mapAlerts)
    (hnot : ¬ CancelledBy mapAlerts alert nAdjustedTime) :
    Quiet nAdjustedTime
      (insertAlert hash (Net.cancelPrevious alert nAdjustedTime mapAlerts) alert) := by
  have hkept := h.cancelPrevious alert
  rw [Net.insertAlert]
  split_ifs
  · exact hkept
  have hold : ∀ item ∈ Net.cancelPrevious alert nAdjustedTime mapAlerts,
      item.2.cancels nAdjustedTime alert = false := by
    intro item hmem
    obtain ⟨hin,hspared,heffect⟩ := mem_cancelPrevious.mp hmem
    rw [← Bool.not_eq_true]
    intro hcancels
    exact hnot ⟨item, hin, heffect, hspared, hcancels⟩
  intro item hitem other hother hne
  rcases List.mem_append.mp hitem with hitem | hitem <;>
    rcases List.mem_append.mp hother with hother | hother
  · exact hkept item hitem other hother hne
  · rw [List.mem_singleton.mp hother]
    exact hold item hitem
  · rw [List.mem_singleton.mp hitem]
    exact (mem_cancelPrevious.mp hother).2.1
  · rw [List.mem_singleton.mp hitem, List.mem_singleton.mp hother] at hne
    exact absurd rfl hne

theorem processAlertResult_of_failsAlone (h : call.FailsAlone verify) :
    processAlertResult verify mapAlerts call = false := by
  rw [processAlertResult]
  cases hcheck : checkSignature verify call.vchMsg call.vchSig with
  | none => rfl
  | some alert =>
    dsimp only
    rw [h alert hcheck]
    rfl

theorem processAlertResult_of_admissible
    (hcheck : checkSignature verify call.vchMsg call.vchSig = some alert)
    (hadm : alert.admissible call.nAdjustedTime = true) :
    processAlertResult verify mapAlerts call = false ↔
      CancelledBy mapAlerts alert call.nAdjustedTime := by
  rw [← any_cancels_iff, processAlertResult, hcheck]
  dsimp only
  rw [if_pos hadm]
  cases (cancelPrevious alert call.nAdjustedTime mapAlerts).any
      fun item => item.2.cancels call.nAdjustedTime alert with
  | false => simp
  | true => simp

/-- For every map in which no alert cancels another one and every alert, signed or not: a refused alert
changes nothing but for what has expired exactly when it is harmless. -/
theorem refused_alert_changes_nothing_iff (hquiet : Quiet call.nAdjustedTime mapAlerts) :
    RefusalChangesNothing verify hash mapAlerts call ↔ Harmless verify mapAlerts call := by
  rcases @processAlert_cases verify hash mapAlerts call with ⟨heq,hfails⟩ | ⟨alert,hcheck,hadm,heq⟩
  · -- the map is not reached
    have hresult : processAlertResult verify mapAlerts call = false :=
      processAlertResult_of_failsAlone hfails
    rw [RefusalChangesNothing, heq]
    constructor
    · intro h
      refine ⟨fun _ item hmem => ((h.2 hresult item).mp hmem).2, ?_⟩
      intro alert hcheck hadm
      rw [hfails alert hcheck] at hadm
      cases hadm
    · intro h
      refine ⟨hquiet, fun _ item => ⟨fun hmem => ⟨hmem, h.1 hfails item hmem⟩, And.left⟩⟩
  have hresult := @processAlertResult_of_admissible verify mapAlerts call alert hcheck hadm
  have hreached : ¬ call.FailsAlone verify := by
    intro hfails
    rw [hfails alert hcheck] at hadm
    cases hadm
  by_cases hcancelled : CancelledBy mapAlerts alert call.nAdjustedTime
  · -- the map has lost what the refused alert cancels
    rw [if_pos (any_cancels_iff.mpr hcancelled)] at heq
    rw [RefusalChangesNothing, heq]
    constructor
    · intro h
      refine ⟨fun hfails => absurd hfails hreached, ?_⟩
      intro alert' hcheck' _ _ item hmem heffect
      rw [hcheck] at hcheck'
      rw [← Option.some.inj hcheck']
      exact (mem_cancelPrevious.mp ((h.2 (hresult.mpr hcancelled) item).mpr ⟨hmem, heffect⟩)).2.1
    · intro h
      have hspared := h.2 alert hcheck hadm hcancelled
      refine ⟨hquiet.cancelPrevious alert, fun _ item => ?_⟩
      rw [mem_cancelPrevious]
      constructor
      · intro hkept
        exact ⟨hkept.1, hkept.2.2⟩
      · intro hkept
        exact ⟨hkept.1, hspared item hkept.1 hkept.2, hkept.2⟩
  · -- the alert is accepted
    rw [if_neg (mt any_cancels_iff.mp hcancelled)] at heq
    have haccepted : Harmless verify mapAlerts call := by
      refine ⟨fun hfails => absurd hfails hreached, ?_⟩
      intro alert' hcheck' _ hcancelled'
      rw [hcheck] at hcheck'
      rw [← Option.some.inj hcheck'] at hcancelled'
      exact absurd hcancelled' hcancelled
    apply iff_of_true _ haccepted
    rw [RefusalChangesNothing, heq]
    exact ⟨hquiet.insertAlert hcancelled, fun hfalse => absurd (hresult.mp hfalse) hcancelled⟩

end Proof

/-- An ordinary alert that cancels the alerts of a set. -/
def setFields (nID : ℤ) (setCancel : List ℤ) : CUnsignedAlert :=
  ⟨1, maxInt, maxInt, nID, 0, setCancel, 0, maxInt, [], 0, [], [], []⟩

/-- The entry of an alert that was accepted before. -/
def storedAlert (fields : CUnsignedAlert) : Uint256 × CAlert :=
  (hashSample (serializeUnsignedAlert fields), ⟨fields, serializeUnsignedAlert fields, [0x30]⟩)

/-- The theorem at an alert that no stored alert cancels. -/
theorem refused_alert_changes_nothing_sample :
    RefusalChangesNothing verifySample hashSample [storedAlert (setFields 3 [])]
        (signedCall (setFields 7 [3])) ↔
      Harmless verifySample [storedAlert (setFields 3 [])] (signedCall (setFields 7 [3])) := by
  apply refused_alert_changes_nothing_iff
  intro item hitem other hother hne
  rw [List.mem_singleton.mp hitem, List.mem_singleton.mp hother] at hne
  exact absurd rfl hne

/-- Alert 5 has cancelled alert 7, which still cancels alert 3. -/
theorem cancelled_alert_cancels :
    Quiet 1400000000 [storedAlert (setFields 5 [7]), storedAlert (setFields 3 [])] ∧
      processAlertResult verifySample [storedAlert (setFields 5 [7]), storedAlert (setFields 3 [])]
        (signedCall (setFields 7 [3])) = false ∧
      ¬ RefusalChangesNothing verifySample hashSample
        [storedAlert (setFields 5 [7]), storedAlert (setFields 3 [])]
        (signedCall (setFields 7 [3])) := by
  have hresult : processAlertResult verifySample
      [storedAlert (setFields 5 [7]), storedAlert (setFields 3 [])]
      (signedCall (setFields 7 [3])) = false := by decide +kernel
  have hquiet : ∀ item ∈ [storedAlert (setFields 5 [7]), storedAlert (setFields 3 [])],
      ∀ other ∈ [storedAlert (setFields 5 [7]), storedAlert (setFields 3 [])], item.1 ≠ other.1 →
        item.2.cancels 1400000000 other.2 = false := by decide +kernel
  refine ⟨hquiet, hresult, fun h => ?_⟩
  have hgone : storedAlert (setFields 3 []) ∉ processAlert verifySample hashSample
      [storedAlert (setFields 5 [7]), storedAlert (setFields 3 [])]
      (signedCall (setFields 7 [3])) := by decide +kernel
  have heffect : (storedAlert (setFields 3 [])).2.isInEffect 1400000000 = true := by decide
  exact hgone ((h.2 hresult _).mpr ⟨List.mem_cons_of_mem _ (List.mem_singleton_self _), heffect⟩)

end Candypool.Net
