import Mathlib.Data.List.AList
import Mathlib.Data.Finset.Sort
import Mathlib.Data.Fintype.Basic
import Mathlib.Data.Int.ConditionallyCompleteOrder

/-! The address manager. A failed assertion, or an access out of range, ends a call without a state;
`GetRandInt` takes its numbers from a stream. -/
namespace Candypool.Net

def addrmanTriedBucketCount : ℕ := 64
def addrmanTriedBucketSize : ℕ := 64
def addrmanNewBucketCount : ℕ := 256
def addrmanNewBucketSize : ℕ := 64
def addrmanNewBucketsPerAddress : ℤ := 4
def addrmanTriedEntriesInspectOnEvict : ℕ := 4
def addrmanHorizonDays : ℤ := 30
def addrmanRetries : ℤ := 3
def addrmanMaxFailures : ℤ := 10
def addrmanMinFailDays : ℤ := 7
def addrmanGetaddrMaxPct : ℕ := 23
def addrmanGetaddrMax : ℕ := 2500

/-- The bytes of an address, in network order. -/
abbrev CNetAddr := Vector UInt8 16

structure CService where
  ip : CNetAddr
  port : BitVec 16
  deriving DecidableEq

structure CAddress extends CService where
  nServices : BitVec 64
  nTime : BitVec 32
  deriving DecidableEq

structure CAddrInfo extends CAddress where
  source : CNetAddr
  nLastSuccess : BitVec 64
  nLastTry : BitVec 64
  nAttempts : BitVec 32
  nRefCount : ℤ
  fInTried : Bool
  nRandomPos : ℤ
  deriving DecidableEq

/-- `CAddrInfo(addr, source)`. -/
def CAddrInfo.init (addr : CAddress) (source : CNetAddr) : CAddrInfo where
  toCAddress := addr
  source := source
  nLastSuccess := 0
  nLastTry := 0
  nAttempts := 0
  nRefCount := 0
  fInTried := false
  nRandomPos := -1

/-- The hashes that choose the buckets, and the address classes. -/
structure AddrEnv where
  triedHash : List UInt8 → CService → ℕ
  newHash : List UInt8 → CNetAddr → CNetAddr → ℕ
  isRoutable : CNetAddr → Bool

abbrev TriedBucket := Fin addrmanTriedBucketCount
abbrev NewBucket := Fin addrmanNewBucketCount

def AddrEnv.getTriedBucket (env : AddrEnv) (nKey : List UInt8) (addr : CService) : TriedBucket :=
  ⟨env.triedHash nKey addr % addrmanTriedBucketCount, Nat.mod_lt _ (by decide)⟩

def AddrEnv.getNewBucket (env : AddrEnv) (nKey : List UInt8) (addr source : CNetAddr) : NewBucket :=
  ⟨env.newHash nKey addr source % addrmanNewBucketCount, Nat.mod_lt _ (by decide)⟩

def CAddrInfo.isTerrible (info : CAddrInfo) (nNow : ℤ) : Bool :=
  if info.nLastTry ≠ 0 ∧ info.nLastTry.toInt ≥ nNow-60 then false
  else if (info.nTime.toNat : ℤ) > nNow+10*60 then true
  else if info.nTime = 0 ∨ nNow-info.nTime.toNat > addrmanHorizonDays*86400 then true
  else if info.nLastSuccess = 0 ∧ info.nAttempts.toInt ≥ addrmanRetries then true
  else decide (nNow-info.nLastSuccess.toInt > addrmanMinFailDays*86400 ∧
    info.nAttempts.toInt ≥ addrmanMaxFailures)

structure CAddrMan where
  nKey : List UInt8
  nIdCount : ℤ
  mapInfo : AList fun _ : ℤ => CAddrInfo
  mapAddr : CNetAddr → Option ℤ
  vRandom : List ℤ
  nTried : ℤ
  vvTried : TriedBucket → List ℤ
  nNew : ℤ
  vvNew : NewBucket → Finset ℤ

def CAddrMan.empty (nKey : List UInt8) : CAddrMan where
  nKey := nKey
  nIdCount := 0
  mapInfo := ∅
  mapAddr _ := none
  vRandom := []
  nTried := 0
  vvTried _ := []
  nNew := 0
  vvNew _ := ∅

namespace CAddrMan

def info? (am : CAddrMan) (n : ℤ) : Option CAddrInfo := am.mapInfo.lookup n

def setInfo (am : CAddrMan) (n : ℤ) (info : CAddrInfo) : CAddrMan :=
  { am with mapInfo := am.mapInfo.insert n info }

def find (am : CAddrMan) (addr : CNetAddr) : Option (ℤ × CAddrInfo) := do
  let nId ← am.mapAddr addr
  let info ← am.info? nId
  return (nId, info)

/-- `Create`, with the entry as it is kept. -/
def create (am : CAddrMan) (addr : CAddress) (source : CNetAddr) : CAddrMan :=
  let nId := am.nIdCount
  { am with
    nIdCount := nId+1
    mapInfo := am.mapInfo.insert nId
      { CAddrInfo.init addr source with nRandomPos := am.vRandom.length }
    mapAddr := Function.update am.mapAddr addr.ip (some nId)
    vRandom := am.vRandom ++ [nId] }

/-- An access to a vector; a negative place is beyond its end. -/
def at? {α : Type} (v : List α) (i : ℤ) : Option α := if 0 ≤ i then v[i.toNat]? else none

def swapRandom (am : CAddrMan) (nRndPos1 nRndPos2 : ℤ) : Option CAddrMan :=
  if nRndPos1 = nRndPos2 then some am
  else do
    let nId1 ← at? am.vRandom nRndPos1
    let nId2 ← at? am.vRandom nRndPos2
    let info1 ← am.info? nId1
    let info2 ← am.info? nId2
    let am := am.setInfo nId1 { info1 with nRandomPos := nRndPos2 }
    let am := am.setInfo nId2 { info2 with nRandomPos := nRndPos1 }
    return { am with vRandom := (am.vRandom.set nRndPos1.toNat nId2).set nRndPos2.toNat nId1 }

/-- What `ShrinkNew` does with the entry it takes out of a bucket: the last reference deletes it. -/
def dropReference (am : CAddrMan) (nUBucket : NewBucket) (n : ℤ) : Option CAddrMan := do
  let info ← am.info? n
  let info := { info with nRefCount := info.nRefCount-1 }
  let am := am.setInfo n info
  let am ← if info.nRefCount = 0 then do
      let am ← am.swapRandom info.nRandomPos ((am.vRandom.length : ℤ)-1)
      some { am with
        vRandom := am.vRandom.dropLast
        mapAddr := Function.update am.mapAddr info.ip none
        mapInfo := am.mapInfo.erase n
        nNew := am.nNew-1 }
    else some am
  return { am with
    vvNew := Function.update am.vvNew nUBucket ((am.vvNew nUBucket).erase n) }

/-- The first terrible entry of a bucket. -/
def findTerrible (am : CAddrMan) (nNow : ℤ) : List ℤ → Option (Option ℤ)
  | [] => some none
  | n :: vNew => do
    let info ← am.info? n
    if info.isTerrible nNow then return some n else findTerrible am nNow vNew

/-- The oldest of the entries at four random places. -/
def findOldest (am : CAddrMan) (picked : ℕ → Bool) : List ℤ → ℕ → Option ℤ → Option (Option ℤ)
  | [], _, nOldest => some nOldest
  | n :: vNew, nI, nOldest =>
    if picked nI then
      match nOldest with
      | none => findOldest am picked vNew (nI+1) (some n)
      | some oldest => do
        let info ← am.info? n
        let infoOldest ← am.info? oldest
        findOldest am picked vNew (nI+1)
          (some (if info.nTime < infoOldest.nTime then n else oldest))
    else findOldest am picked vNew (nI+1) nOldest

def shrinkNew (am : CAddrMan) (nNow : ℤ) (rand : ℕ → ℕ) (nUBucket : NewBucket) : Option CAddrMan := do
  let vNew := (am.vvNew nUBucket).sort (· ≤ ·)
  match ← am.findTerrible nNow vNew with
  | some n => am.dropReference nUBucket n
  | none =>
    let picked := fun nI => (List.range 4).any fun i => nI == rand i % vNew.length
    let nOldest ← am.findOldest picked vNew 0 none
    am.dropReference nUBucket (← nOldest)

/-- The shuffle of `SelectTried`; it keeps the place of the least recently tried entry. -/
def selectTriedLoop (am : CAddrMan) (rand : ℕ → ℕ) : ℕ → ℕ → List ℤ → Option (ℤ × ℕ) →
    Option (List ℤ × Option ℕ)
  | 0, _, vTried, oldest => some (vTried, oldest.map Prod.snd)
  | turns+1, i, vTried, oldest =>
    if i < vTried.length then do
      let nPos := rand i % (vTried.length-i)+i
      let nTemp ← vTried[nPos]?
      let first ← vTried[i]?
      let vTried := (vTried.set nPos first).set i nTemp
      match oldest with
      | none => selectTriedLoop am rand turns (i+1) vTried (some (nTemp,nPos))
      | some (nOldest,nOldestPos) => do
        let info ← am.info? nTemp
        let infoOldest ← am.info? nOldest
        selectTriedLoop am rand turns (i+1) vTried
          (if info.nLastSuccess.toInt < infoOldest.nLastSuccess.toInt then some (nTemp,nPos)
          else some (nOldest,nOldestPos))
    else some (vTried, oldest.map Prod.snd)

def selectTried (am : CAddrMan) (rand : ℕ → ℕ) (vTried : List ℤ) : Option (List ℤ × Option ℕ) :=
  am.selectTriedLoop rand addrmanTriedEntriesInspectOnEvict 0 vTried none

/-- In how many new buckets an entry is. -/
def newBucketsOf (am : CAddrMan) (n : ℤ) : ℕ :=
  (List.finRange addrmanNewBucketCount).countP fun b => decide (n ∈ am.vvNew b)

def makeTried (env : AddrEnv) (am : CAddrMan) (rand : ℕ → ℕ) (nId : ℤ) (nOrigin : NewBucket) :
    Option CAddrMan := do
  let info ← am.info? nId
  if nId ∉ am.vvNew nOrigin then none
  else
    -- remove the entry from all new buckets
    let info := { info with nRefCount := info.nRefCount-am.newBucketsOf nId }
    let am := { am.setInfo nId info with
      vvNew := fun b => (am.vvNew b).erase nId
      nNew := am.nNew-1 }
    if info.nRefCount ≠ 0 then none
    else
      let nKBucket := env.getTriedBucket am.nKey info.toCService
      let vTried := am.vvTried nKBucket
      -- first check whether there is place to just add it
      if vTried.length < addrmanTriedBucketSize then
        return { am.setInfo nId { info with fInTried := true } with
          vvTried := Function.update am.vvTried nKBucket (vTried ++ [nId])
          nTried := am.nTried+1 }
      else
        -- otherwise, find an item to evict
        let (vTried,nPos) ← am.selectTried rand vTried
        let nPos ← nPos
        let nOld ← vTried[nPos]?
        let infoOld ← am.info? nOld
        let nUBucket := env.getNewBucket am.nKey infoOld.ip infoOld.source
        let am := am.setInfo nOld { infoOld with fInTried := false, nRefCount := 1 }
        -- move it back there, or to the new bucket nId came from
        let nBack := if (am.vvNew nUBucket).card < addrmanNewBucketSize then nUBucket else nOrigin
        return { am.setInfo nId { info with fInTried := true } with
          vvNew := Function.update am.vvNew nBack (insert nOld (am.vvNew nBack))
          nNew := am.nNew+1
          vvTried := Function.update am.vvTried nKBucket (vTried.set nPos nId) }

def good (env : AddrEnv) (am : CAddrMan) (rand : ℕ → ℕ) (addr : CService) (nTime : BitVec 64) :
    Option CAddrMan :=
  match am.find addr.ip with
  | none => some am
  | some (nId,info) =>
    if info.toCService ≠ addr then some am
    else
      let info := { info with
        nLastSuccess := nTime, nLastTry := nTime, nTime := nTime.setWidth 32, nAttempts := 0 }
      let am := am.setInfo nId info
      if info.fInTried then some am
      else
        let nRnd := rand 4 % addrmanNewBucketCount
        match (List.finRange addrmanNewBucketCount).findSome? fun n =>
          let nB : NewBucket := ⟨(n+nRnd) % addrmanNewBucketCount, Nat.mod_lt _ (by decide)⟩
          if nId ∈ am.vvNew nB then some nB else none with
        | none => some am
        | some nUBucket => am.makeTried env rand nId nUBucket

/-- The entry of an address that was known before, after the update of its time, and whether to go on
to the buckets. -/
def refresh (info : CAddrInfo) (nAdjustedTime : ℤ) (rand : ℕ → ℕ) (addr : CAddress)
    (nTimePenalty : ℤ) : Bool × CAddrInfo :=
  let time : ℤ := addr.nTime.toNat
  let fCurrentlyOnline := nAdjustedTime-time < 24*60*60
  let nUpdateInterval : ℤ := if fCurrentlyOnline then 60*60 else 24*60*60
  let info := if addr.nTime ≠ 0 ∧ (info.nTime = 0 ∨
      (info.nTime.toNat : ℤ) < time-nUpdateInterval-nTimePenalty) then
    { info with nTime := BitVec.ofInt 32 (max 0 (time-nTimePenalty)) } else info
  let info := { info with nServices := info.nServices ||| addr.nServices }
  if addr.nTime = 0 ∨ (info.nTime ≠ 0 ∧ addr.nTime ≤ info.nTime) then (false, info)
  else if info.fInTried then (false, info)
  else if info.nRefCount = addrmanNewBucketsPerAddress then (false, info)
  else
    let nFactor := 2^info.nRefCount.toNat
    if nFactor > 1 ∧ rand 4 % nFactor ≠ 0 then (false, info) else (true, info)

/-- The end of `Add_`: the entry goes into the bucket of its source. -/
def addToBucket (env : AddrEnv) (am : CAddrMan) (nNow : ℤ) (rand : ℕ → ℕ) (nId : ℤ) (info : CAddrInfo)
    (source : CNetAddr) : Option CAddrMan :=
  let nUBucket := env.getNewBucket am.nKey info.ip source
  if nId ∈ am.vvNew nUBucket then some am
  else do
    let fFull := (am.vvNew nUBucket).card = addrmanNewBucketSize
    let am := am.setInfo nId { info with nRefCount := info.nRefCount+1 }
    let am ← if fFull then am.shrinkNew nNow rand nUBucket else some am
    return { am with vvNew := Function.update am.vvNew nUBucket (insert nId (am.vvNew nUBucket)) }

def add (env : AddrEnv) (am : CAddrMan) (nAdjustedTime : ℤ) (rand : ℕ → ℕ) (addr : CAddress)
    (source : CNetAddr) (nTimePenalty : ℤ) : Option (Bool × CAddrMan) :=
  if !env.isRoutable addr.ip then some (false, am)
  else match am.find addr.ip with
  | some (nId,info) =>
    let (fGoOn,info) := refresh info nAdjustedTime rand addr nTimePenalty
    let am := am.setInfo nId info
    if fGoOn then (am.addToBucket env nAdjustedTime rand nId info source).map (false, ·)
    else some (false, am)
  | none => do
    let nId := am.nIdCount
    let am := am.create addr source
    let info ← am.info? nId
    let info := { info with
      nTime := BitVec.ofInt 32 (max 0 ((info.nTime.toNat : ℤ)-nTimePenalty)) }
    let am := { am.setInfo nId info with nNew := am.nNew+1 }
    (am.addToBucket env nAdjustedTime rand nId info source).map (true, ·)

def attempt (am : CAddrMan) (addr : CService) (nTime : BitVec 64) : CAddrMan :=
  match am.find addr.ip with
  | none => am
  | some (nId,info) =>
    if info.toCService ≠ addr then am
    else am.setInfo nId { info with nLastTry := nTime, nAttempts := info.nAttempts+1 }

def connected (am : CAddrMan) (addr : CService) (nTime : BitVec 64) : CAddrMan :=
  match am.find addr.ip with
  | none => am
  | some (nId,info) =>
    if info.toCService ≠ addr then am
    else if nTime.toInt-info.nTime.toNat > 20*60 then
      am.setInfo nId { info with nTime := nTime.setWidth 32 }
    else am

/-- The random shuffle over the first elements of `vRandom`, and the addresses it collects. -/
def getAddrLoop (rand : ℕ → ℕ) : ℕ → ℕ → CAddrMan → Option (List CAddress × CAddrMan)
  | 0, _, am => some ([], am)
  | turns+1, n, am => do
    let nRndPos := rand n % (am.vRandom.length-n)+n
    let am ← am.swapRandom n nRndPos
    let nId ← am.vRandom[n]?
    let info ← am.info? nId
    let (vAddr,am) ← getAddrLoop rand turns (n+1) am
    return (info.toCAddress :: vAddr, am)

def getAddr (am : CAddrMan) (rand : ℕ → ℕ) : Option (List CAddress × CAddrMan) :=
  getAddrLoop rand (min (addrmanGetaddrMaxPct*am.vRandom.length/100) addrmanGetaddrMax) 0 am

section Check

/-- The loops of `Check_` over the tried buckets: `none` when an entry is not in the set. -/
def eraseTried : List ℤ → Finset ℤ → Option (Finset ℤ)
  | [], setTried => some setTried
  | n :: vTried, setTried =>
    if n ∈ setTried then eraseTried vTried (setTried.erase n) else none

/-- The same over the new buckets, where an entry goes when it was counted as often as it is
referred to. -/
def countNew : List ℤ → AList (fun _ : ℤ => ℤ) → Option (AList fun _ : ℤ => ℤ)
  | [], mapNew => some mapNew
  | n :: vNew, mapNew => do
    let nRefCount ← mapNew.lookup n
    countNew vNew (if nRefCount-1 = 0 then mapNew.erase n else mapNew.insert n (nRefCount-1))

/-- The checks of one entry. `mapAddr[info]` is 0 where there is none. -/
def checkInfo (am : CAddrMan) (n : ℤ) (info : CAddrInfo) : Option ℤ :=
  if info.fInTried ∧ info.nLastSuccess = 0 then some (-1)
  else if info.fInTried ∧ info.nRefCount ≠ 0 then some (-2)
  else if ¬info.fInTried ∧ (info.nRefCount < 0 ∨ info.nRefCount > addrmanNewBucketsPerAddress) then
    some (-3)
  else if ¬info.fInTried ∧ info.nRefCount = 0 then some (-4)
  else if (am.mapAddr info.ip).getD 0 ≠ n then some (-5)
  else if at? am.vRandom info.nRandomPos ≠ some n then some (-14)
  else if info.nLastTry.toInt < 0 then some (-6)
  else if info.nLastSuccess.toInt < 0 then some (-8)
  else none

/-- The ids in `mapInfo`, in their order. -/
def ids (am : CAddrMan) : List ℤ := am.mapInfo.keys.toFinset.sort (· ≤ ·)

/-- The entries that satisfy a condition. -/
def idsWith (am : CAddrMan) (p : CAddrInfo → Bool) : Finset ℤ :=
  am.mapInfo.keys.toFinset.filter fun n => (am.info? n).any p

def mapNew (am : CAddrMan) : AList fun _ : ℤ => ℤ :=
  (am.ids.filter fun n => n ∈ am.idsWith (!·.fInTried)).foldl
    (fun mapNew n => mapNew.insert n (((am.info? n).map CAddrInfo.nRefCount).getD 0)) ∅

/-- `Check_`. -/
def check (am : CAddrMan) : ℤ :=
  if (am.vRandom.length : ℤ) ≠ am.nTried+am.nNew then -7
  else match am.ids.findSome? fun n => (am.info? n).bind (am.checkInfo n) with
  | some code => code
  | none =>
    let setTried := am.idsWith (·.fInTried)
    let mapNew := am.mapNew
    if (setTried.card : ℤ) ≠ am.nTried then -9
    else if (mapNew.keys.length : ℤ) ≠ am.nNew then -10
    else match eraseTried ((List.finRange addrmanTriedBucketCount).flatMap am.vvTried) setTried with
    | none => -11
    | some setTried =>
      match countNew ((List.finRange addrmanNewBucketCount).flatMap fun b =>
        (am.vvNew b).sort (· ≤ ·)) mapNew with
      | none => -12
      | some mapNew => if setTried ≠ ∅ then -13 else if mapNew.keys ≠ [] then -15 else 0

end Check

end CAddrMan

/-- The calls on an address manager, with what each finds. -/
inductive AddrCall
  | add (nAdjustedTime : ℤ) (rand : ℕ → ℕ) (addr : CAddress) (source : CNetAddr) (nTimePenalty : ℤ)
  | good (rand : ℕ → ℕ) (addr : CService) (nTime : BitVec 64)
  | attempt (addr : CService) (nTime : BitVec 64)
  | connected (addr : CService) (nTime : BitVec 64)
  | getAddr (rand : ℕ → ℕ)

def AddrCall.exec (env : AddrEnv) (am : CAddrMan) : AddrCall → Option CAddrMan
  | .add nAdjustedTime rand addr source nTimePenalty =>
    (am.add env nAdjustedTime rand addr source nTimePenalty).map Prod.snd
  | .good rand addr nTime => am.good env rand addr nTime
  | .attempt addr nTime => some (am.attempt addr nTime)
  | .connected addr nTime => some (am.connected addr nTime)
  | .getAddr rand => (am.getAddr rand).map Prod.snd

/-- The times of the calls are positive. -/
def AddrCall.Positive : AddrCall → Prop
  | .good _ _ nTime => 0 < nTime.toInt
  | .attempt _ nTime => 0 < nTime.toInt
  | .connected _ nTime => 0 < nTime.toInt
  | _ => True

def AddrCall.execAll (env : AddrEnv) (am : CAddrMan) (calls : List AddrCall) : Option CAddrMan :=
  calls.foldlM (AddrCall.exec env) am

end Candypool.Net
