import Candypool.Net.Alert
import Candypool.Net.AddrMan
import Mathlib

/-! The file of the address manager. A fresh manager is read: what the reader finds in it is replaced
first. -/
namespace Candypool.Net
open Candypool.Core

/-- The two bytes of a port change places. -/
def htons (port : ℕ) : ℕ := port%256*256+port/256

def unserializeNetAddr : Unserializer CNetAddr := fun bytes =>
  if bytes.length < 16 then none
  else some (Vector.ofFn fun i => bytes.getD i 0, bytes.drop 16)

/-- `CAddrInfo()`. -/
def CAddrInfo.default : CAddrInfo :=
  CAddrInfo.init ⟨⟨Vector.replicate 16 0,0⟩,1,100000000⟩ (Vector.replicate 16 0)

/-- An entry as it is on disk; the version in front is the one of the file, which is 0. -/
def CAddrInfo.serialize (info : CAddrInfo) : List UInt8 :=
  serializeInt 4 0 ++ (numberBytes 4 info.nTime.toNat ++ (numberBytes 8 info.nServices.toNat ++
    (info.ip.toList ++ (numberBytes 2 (htons info.port.toNat) ++ (info.source.toList ++
      (numberBytes 8 info.nLastSuccess.toNat ++ numberBytes 4 info.nAttempts.toNat))))))

def unserializeAddrInfo : Unserializer CAddrInfo := fun bytes => do
  let (_,rest) ← unserializeInt 4 bytes
  let (nTime,rest) ← unserializeNumber 4 rest
  let (nServices,rest) ← unserializeNumber 8 rest
  let (ip,rest) ← unserializeNetAddr rest
  let (portN,rest) ← unserializeNumber 2 rest
  let (source,rest) ← unserializeNetAddr rest
  let (nLastSuccess,rest) ← unserializeNumber 8 rest
  let (nAttempts,rest) ← unserializeNumber 4 rest
  some ({ CAddrInfo.default with
    ip := ip
    port := BitVec.ofNat 16 (htons portN)
    nServices := BitVec.ofNat 64 nServices
    nTime := BitVec.ofNat 32 nTime
    source := source
    nLastSuccess := BitVec.ofNat 64 nLastSuccess
    nAttempts := BitVec.ofNat 32 nAttempts }, rest)

/-- The part of an entry that is on disk. -/
def CAddrInfo.stored (info : CAddrInfo) : CAddrInfo :=
  { info with nLastTry := 0, nRefCount := 0, fInTried := false, nRandomPos := -1 }

namespace CAddrMan

section Write

/-- `mapInfo`, in the order of the ids. -/
def entries (am : CAddrMan) : List (ℤ × CAddrInfo) :=
  am.ids.filterMap fun n => (am.info? n).map fun info => (n,info)

/-- The loop over the new entries: what it writes, and `mapUnkIds`, which is 0 where it has no entry. -/
def writeNew (nNew : ℤ) : List (ℤ × CAddrInfo) → ℤ → (ℤ → ℤ) → List UInt8 × (ℤ → ℤ)
  | [], _, mapUnkIds => ([], mapUnkIds)
  | (n,info) :: entries, nIds, mapUnkIds =>
    if nIds = nNew then ([], mapUnkIds)
    else
      let mapUnkIds := Function.update mapUnkIds n nIds
      if info.nRefCount ≠ 0 then
        let (bytes,mapUnkIds) := writeNew nNew entries (nIds+1) mapUnkIds
        (info.serialize ++ bytes, mapUnkIds)
      else writeNew nNew entries nIds mapUnkIds

def writeTried (nTried : ℤ) : List (ℤ × CAddrInfo) → ℤ → List UInt8
  | [], _ => []
  | (_,info) :: entries, nIds =>
    if nIds = nTried then []
    else if info.fInTried then info.serialize ++ writeTried nTried entries (nIds+1)
    else writeTried nTried entries nIds

/-! The ids of a bucket are written as numbers in their order. -/

local instance idsTrans : IsTrans ℤ (fun a b : ℤ => a ≤ b) := ⟨fun _ _ _ => le_trans⟩

local instance idsAntisymm : Std.Antisymm (fun a b : ℤ => a ≤ b) := ⟨fun _ _ => le_antisymm⟩

local instance idsTotal : Std.Total (fun a b : ℤ => a ≤ b) := ⟨le_total⟩

def writeBucket (mapUnkIds : ℤ → ℤ) (vNew : Finset ℤ) : List UInt8 :=
  serializeInt 4 vNew.card ++ (vNew.sort (· ≤ ·)).flatMap fun n => serializeInt 4 (mapUnkIds n)

/-- The ids of a bucket in the order of the file. -/
def bucketIds (vNew : Finset ℤ) : List ℤ := vNew.sort (· ≤ ·)

def serialize (am : CAddrMan) : List UInt8 :=
  let (newBytes,mapUnkIds) := writeNew am.nNew am.entries 0 fun _ => 0
  numberBytes 1 0 ++ (serializeString am.nKey ++ (serializeInt 4 am.nNew ++ (serializeInt 4 am.nTried ++
    (serializeInt 4 addrmanNewBucketCount ++ (newBytes ++ (writeTried am.nTried am.entries 0 ++
      (List.finRange addrmanNewBucketCount).flatMap fun b => writeBucket mapUnkIds (am.vvNew b)))))))

end Write

section Read
variable (env : AddrEnv)

/-- An entry gets an id, and a place at the end of the random order. -/
def append (am : CAddrMan) (n : ℤ) (info : CAddrInfo) : CAddrMan :=
  { am.setInfo n { info with nRandomPos := am.vRandom.length } with
    mapAddr := Function.update am.mapAddr info.ip (some n)
    vRandom := am.vRandom ++ [n] }

def readNewEntry (nUBuckets : ℤ) (am : CAddrMan) (n : ℤ) (info : CAddrInfo) : CAddrMan :=
  if nUBuckets ≠ addrmanNewBucketCount then
    let nUBucket := env.getNewBucket am.nKey info.ip info.source
    { am.append n { info with nRefCount := info.nRefCount+1 } with
      vvNew := Function.update am.vvNew nUBucket (insert n (am.vvNew nUBucket)) }
  else am.append n info

def readNew (nUBuckets : ℤ) : ℕ → ℤ → CAddrMan → Unserializer CAddrMan
  | 0, _, am, bytes => some (am, bytes)
  | turns+1, n, am, bytes => do
    let (info,rest) ← unserializeAddrInfo bytes
    readNew nUBuckets turns (n+1) (am.readNewEntry env nUBuckets n info) rest

/-- A tried entry goes into its bucket, or is lost if that is full. -/
def readTriedEntry (am : CAddrMan) (nLost : ℤ) (info : CAddrInfo) : CAddrMan × ℤ :=
  let nKBucket := env.getTriedBucket am.nKey info.toCService
  if (am.vvTried nKBucket).length < addrmanTriedBucketSize then
    ({ am.append am.nIdCount { info with fInTried := true } with
      vvTried := Function.update am.vvTried nKBucket (am.vvTried nKBucket ++ [am.nIdCount])
      nIdCount := am.nIdCount+1 }, nLost)
  else (am, nLost+1)

def readTried : ℕ → CAddrMan → ℤ → Unserializer (CAddrMan × ℤ)
  | 0, am, nLost, bytes => some ((am,nLost), bytes)
  | turns+1, am, nLost, bytes => do
    let (info,rest) ← unserializeAddrInfo bytes
    let (am,nLost) := am.readTriedEntry env nLost info
    readTried turns am nLost rest

/-- `mapInfo[nIndex]` makes an entry where there is none. -/
def readIndex (nUBuckets : ℤ) (b : NewBucket) (am : CAddrMan) (nIndex : ℤ) : CAddrMan :=
  let info := (am.info? nIndex).getD CAddrInfo.default
  if nUBuckets = addrmanNewBucketCount ∧ info.nRefCount < addrmanNewBucketsPerAddress then
    { am.setInfo nIndex { info with nRefCount := info.nRefCount+1 } with
      vvNew := Function.update am.vvNew b (insert nIndex (am.vvNew b)) }
  else am.setInfo nIndex info

def readIndices (nUBuckets : ℤ) (b : NewBucket) : ℕ → CAddrMan → Unserializer CAddrMan
  | 0, am, bytes => some (am, bytes)
  | turns+1, am, bytes => do
    let (nIndex,rest) ← unserializeInt 4 bytes
    readIndices nUBuckets b turns (am.readIndex nUBuckets b nIndex) rest

def readBuckets (nUBuckets : ℤ) : ℕ → ℕ → CAddrMan → Unserializer CAddrMan
  | 0, _, am, bytes => some (am, bytes)
  | turns+1, b, am, bytes =>
    if h : b < addrmanNewBucketCount then do
      let (nSize,rest) ← unserializeInt 4 bytes
      let (am,rest) ← readIndices nUBuckets ⟨b,h⟩ nSize.toNat am rest
      readBuckets nUBuckets turns (b+1) am rest
    else none

def unserialize : Unserializer CAddrMan := fun bytes => do
  let (_,rest) ← unserializeNumber 1 bytes
  let (nKey,rest) ← unserializeString rest
  let (nNew,rest) ← unserializeInt 4 rest
  let (nTried,rest) ← unserializeInt 4 rest
  let (nUBuckets,rest) ← unserializeInt 4 rest
  let am := { empty nKey with nNew := nNew, nTried := nTried }
  let (am,rest) ← readNew env nUBuckets am.nNew.toNat 0 am rest
  let am := { am with nIdCount := am.nNew }
  let ((am,nLost),rest) ← readTried env am.nTried.toNat am 0 rest
  let am := { am with nTried := am.nTried-nLost }
  readBuckets nUBuckets nUBuckets.toNat 0 am rest

end Read

end CAddrMan

section RoundTrip

theorem htons_htons {port : ℕ} (h : port < 2^16) : htons (htons port) = port := by
  rw [htons, htons]
  omega

theorem htons_lt {port : ℕ} (h : port < 2^16) : htons port < 2^16 := by
  rw [htons]
  omega

theorem unserializeInt_serialize {size : ℕ} {v : ℤ} (hlow : -(256^size : ℤ) ≤ 2*v)
    (hhigh : 2*v < 256^size) (rest : List UInt8) :
    unserializeInt size (serializeInt size v ++ rest) = some (v, rest) := by
  have hmodpos : (0 : ℤ) < 256^size := by positivity
  have hnonneg : 0 ≤ v % 256^size := Int.emod_nonneg v hmodpos.ne'
  have hlt : (v % 256^size).toNat < 256^size := by
    zify
    rw [Int.toNat_of_nonneg hnonneg]
    exact Int.emod_lt_of_pos v hmodpos
  rw [unserializeInt, serializeInt, unserializeNumber_numberBytes hlt, Option.map_some]
  dsimp only
  rw [Int.toNat_of_nonneg hnonneg]
  have hcast : (256 : ℤ)^size = ((256^size : ℕ) : ℤ) := by push_cast; rfl
  rw [hcast, Int.emod_bmod, Int.bmod_eq_of_le_mul_two]
  · rw [← hcast]
    omega
  · rw [← hcast]
    omega

theorem unserializeString_serialize {str : List UInt8} (h : str.length ≤ maxSize) (rest : List UInt8) :
    unserializeString (serializeString str ++ rest) = some (str, rest) := by
  rw [serializeString, List.append_assoc, unserializeString, readCompactSize_write h]
  simp

theorem unserializeNetAddr_toList (addr : CNetAddr) (rest : List UInt8) :
    unserializeNetAddr (addr.toList ++ rest) = some (addr, rest) := by
  have hlen : addr.toList.length = 16 := Vector.length_toList
  have hget : (Vector.ofFn fun i : Fin 16 => (addr.toList ++ rest).getD i 0) = addr := by
    apply Vector.ext
    intro i hi
    rw [Vector.getElem_ofFn, List.getD_append _ _ _ _ (by omega), List.getD_eq_getElem _ _ (by omega),
      Vector.getElem_toList]
  rw [unserializeNetAddr, if_neg (by rw [List.length_append]; omega), hget, List.drop_left' hlen]

/-- An entry comes back with what is on disk. -/
theorem unserializeAddrInfo_serialize (info : CAddrInfo) (rest : List UInt8) :
    unserializeAddrInfo (info.serialize ++ rest) = some (info.stored, rest) := by
  have hport := info.port.isLt
  have hnTime : info.nTime.toNat < 256^4 := lt_of_lt_of_eq info.nTime.isLt (by norm_num)
  have hnServices : info.nServices.toNat < 256^8 := lt_of_lt_of_eq info.nServices.isLt (by norm_num)
  have hnLastSuccess : info.nLastSuccess.toNat < 256^8 :=
    lt_of_lt_of_eq info.nLastSuccess.isLt (by norm_num)
  have hnAttempts : info.nAttempts.toNat < 256^4 := lt_of_lt_of_eq info.nAttempts.isLt (by norm_num)
  have hportBytes : htons info.port.toNat < 256^2 := htons_lt hport
  rw [CAddrInfo.serialize, unserializeAddrInfo]
  simp only [List.append_assoc]
  rw [unserializeInt_serialize (by norm_num) (by norm_num)]
  simp only [Option.bind_eq_bind, Option.bind_some, unserializeNumber_numberBytes hnTime,
    unserializeNumber_numberBytes hnServices, unserializeNetAddr_toList,
    unserializeNumber_numberBytes hportBytes, unserializeNumber_numberBytes hnLastSuccess,
    unserializeNumber_numberBytes hnAttempts, htons_htons hport, BitVec.ofNat_toNat, BitVec.setWidth_eq]
  rfl

end RoundTrip

end Candypool.Net
