import Candypool.Core.Transaction

/-! The wire format: numbers with the lowest byte first, compact sizes and vectors. A reader is given
the bytes that are left and returns what it leaves. -/
namespace Candypool.Core
open Candypool.Prime

/-- The bytes of a number in memory. -/
def numberBytes : ℕ → ℕ → List UInt8
  | 0, _ => []
  | size+1, v => UInt8.ofNat (v % 256) :: numberBytes size (v/256)

/-- `MAX_SIZE`. -/
def maxSize : ℕ := 0x02000000

def writeCompactSize (nSize : ℕ) : List UInt8 :=
  if nSize < 253 then numberBytes 1 nSize
  else if nSize ≤ 0xffff then numberBytes 1 253 ++ numberBytes 2 nSize
  else if nSize ≤ 0xffffffff then numberBytes 1 254 ++ numberBytes 4 nSize
  else numberBytes 1 255 ++ numberBytes 8 nSize

def serializeVector {α : Type} (serialize : α → List UInt8) (v : List α) : List UInt8 :=
  writeCompactSize v.length ++ v.flatMap serialize

def serializeUint256 (hash : Uint256) : List UInt8 := numberBytes 32 hash.toNat

abbrev Unserializer (α : Type) := List UInt8 → Option (α × List UInt8)

/-- A stream that ends before the number does throws. -/
def unserializeNumber (size : ℕ) : Unserializer ℕ := fun bytes =>
  if bytes.length < size then none else some (littleEndian (bytes.take size), bytes.drop size)

def unserializeUint256 : Unserializer Uint256 := fun bytes =>
  (unserializeNumber 32 bytes).map fun (v,rest) => (BitVec.ofNat 256 v, rest)

def readCompactSize : Unserializer ℕ := fun bytes => do
  let (chSize,rest) ← unserializeNumber 1 bytes
  let (nSizeRet,rest) ←
    if chSize < 253 then some (chSize,rest)
    else if chSize = 253 then unserializeNumber 2 rest
    else if chSize = 254 then unserializeNumber 4 rest
    else unserializeNumber 8 rest
  if nSizeRet > maxSize then none else some (nSizeRet,rest)

def unserializeItems {α : Type} (unserialize : Unserializer α) : ℕ → Unserializer (List α)
  | 0, bytes => some ([], bytes)
  | n+1, bytes => do
    let (item,rest) ← unserialize bytes
    let (items,rest) ← unserializeItems unserialize n rest
    some (item :: items, rest)

/-- The memory is claimed in steps of five megabytes, which leaves no trace in the result. -/
def unserializeVector {α : Type} (unserialize : Unserializer α) : Unserializer (List α) :=
  fun bytes => do
    let (nSize,rest) ← readCompactSize bytes
    unserializeItems unserialize nSize rest

section RoundTrip

theorem numberBytes_length (size v : ℕ) : (numberBytes size v).length = size := by
  induction size generalizing v with
  | zero => rfl
  | succ size ih => rw [numberBytes, List.length_cons, ih]

theorem writeCompactSize_length (nSize : ℕ) :
    (writeCompactSize nSize).length = getSizeOfCompactSize nSize := by
  rw [writeCompactSize, getSizeOfCompactSize]
  split_ifs <;> simp only [List.length_append, numberBytes_length]

/-- A number that fits comes back from its bytes. -/
theorem littleEndian_numberBytes {size v : ℕ} (h : v < 256^size) :
    littleEndian (numberBytes size v) = v := by
  induction size generalizing v with
  | zero =>
    rw [pow_zero] at h
    rw [numberBytes, littleEndian]
    omega
  | succ size ih =>
    rw [pow_succ] at h
    rw [numberBytes, littleEndian, ih (by omega), UInt8.toNat_ofNat']
    omega

theorem unserializeNumber_numberBytes {size v : ℕ} (h : v < 256^size) (rest : List UInt8) :
    unserializeNumber size (numberBytes size v ++ rest) = some (v, rest) := by
  have hlen := numberBytes_length size v
  rw [unserializeNumber, if_neg (by rw [List.length_append]; omega), List.take_left' hlen,
    List.drop_left' hlen, littleEndian_numberBytes h]

theorem unserializeUint256_serialize (hash : Uint256) (rest : List UInt8) :
    unserializeUint256 (serializeUint256 hash ++ rest) = some (hash, rest) := by
  have hlt : hash.toNat < 256^32 := lt_of_lt_of_eq hash.isLt (by norm_num)
  rw [unserializeUint256, serializeUint256, unserializeNumber_numberBytes hlt, Option.map_some]
  dsimp only
  rw [BitVec.ofNat_toNat, BitVec.setWidth_eq]

theorem readCompactSize_write {nSize : ℕ} (hmax : nSize ≤ maxSize) (rest : List UInt8) :
    readCompactSize (writeCompactSize nSize ++ rest) = some (nSize, rest) := by
  have hfit : nSize ≤ 0x02000000 := hmax
  have hcheck : ¬ nSize > maxSize := not_lt.mpr hmax
  have hhead : ∀ chSize : ℕ, chSize < 256 → ∀ bytes : List UInt8,
      unserializeNumber 1 (numberBytes 1 chSize ++ bytes) = some (chSize, bytes) :=
    fun chSize hlt bytes => unserializeNumber_numberBytes (by omega) bytes
  rw [writeCompactSize]
  split_ifs with hone htwo hfour
  · simp [readCompactSize, hhead nSize (by omega), hone, hcheck]
  · have htail := unserializeNumber_numberBytes (show nSize < 256^2 by omega) rest
    simp [readCompactSize, hhead 253, htail, hcheck]
  · have htail := unserializeNumber_numberBytes (show nSize < 256^4 by omega) rest
    simp [readCompactSize, hhead 254, htail, hcheck]
  · omega

/-- Items that come back each in the form `read` come back together. -/
theorem unserializeItems_flatMap_map {α : Type} {serialize : α → List UInt8}
    {unserialize : Unserializer α} (read : α → α) (items : List α)
    (hitem : ∀ item ∈ items, ∀ rest, unserialize (serialize item ++ rest) = some (read item, rest))
    (rest : List UInt8) :
    unserializeItems unserialize items.length (items.flatMap serialize ++ rest) =
      some (items.map read, rest) := by
  induction items with
  | nil => rfl
  | cons item items ih =>
    have hhead := hitem item List.mem_cons_self
    have htail := ih fun item hmem => hitem item (List.mem_cons_of_mem _ hmem)
    rw [List.flatMap_cons, List.append_assoc, List.length_cons, unserializeItems, hhead]
    simp [htail]

theorem unserializeVector_serialize_map {α : Type} {serialize : α → List UInt8}
    {unserialize : Unserializer α} (read : α → α) {items : List α}
    (hitem : ∀ item ∈ items, ∀ rest, unserialize (serialize item ++ rest) = some (read item, rest))
    (hmax : items.length ≤ maxSize) (rest : List UInt8) :
    unserializeVector unserialize (serializeVector serialize items ++ rest) =
      some (items.map read, rest) := by
  rw [serializeVector, List.append_assoc, unserializeVector, readCompactSize_write hmax]
  exact unserializeItems_flatMap_map read items hitem rest

theorem unserializeVector_serialize {α : Type} {serialize : α → List UInt8}
    {unserialize : Unserializer α}
    (hitem : ∀ item rest, unserialize (serialize item ++ rest) = some (item, rest))
    {items : List α} (hmax : items.length ≤ maxSize) (rest : List UInt8) :
    unserializeVector unserialize (serializeVector serialize items ++ rest) = some (items, rest) := by
  rw [unserializeVector_serialize_map id (fun item _ => hitem item) hmax, List.map_id]

end RoundTrip

end Candypool.Core
