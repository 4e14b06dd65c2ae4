import Candypool.Coins.Utxo

/-! Coin views. `CCoinsView` is the interface of main.h; a cache holds the entries that were
written through it over the answers of its base. Reading through a cache copies the entry of the
base into it, which no later answer shows (`getCoins_fetch`), so reads are pure functions. -/
namespace Candypool.Coins
open Candypool.Prime Candypool.Core

/-- Block index entries are named by the hash `mapBlockIndex` keeps them under. -/
abbrev BlockPtr := Uint256

class CoinStore (V : Type) where
  getCoins : V → Utxo
  setCoins : V → Uint256 → CCoins → V
  getCoins_setCoins : ∀ view txid coins,
    getCoins (setCoins view txid coins) = Function.update (getCoins view) txid (some coins)

export CoinStore (getCoins setCoins getCoins_setCoins)

/-- A store that also knows the block whose state it represents. -/
class CCoinsView (V : Type) extends CoinStore V where
  getBestBlock : V → Option BlockPtr
  setBestBlock : V → BlockPtr → V
  getBestBlock_setBestBlock : ∀ view pindex, getBestBlock (setBestBlock view pindex) = some pindex
  getBestBlock_setCoins : ∀ view txid coins,
    getBestBlock (setCoins view txid coins) = getBestBlock view
  getCoins_setBestBlock : ∀ view pindex, getCoins (setBestBlock view pindex) = getCoins view

export CCoinsView (getBestBlock setBestBlock getBestBlock_setBestBlock getBestBlock_setCoins
  getCoins_setBestBlock)

/-- A map of coins is its own store. -/
instance : CoinStore Utxo where
  getCoins u := u
  setCoins u txid coins := Function.update u txid (some coins)
  getCoins_setCoins _ _ _ := rfl

@[simp] theorem utxo_getCoins (u : Utxo) : getCoins u = u := rfl

/-- `CCoinsViewCache`: the answers of the base, and what was written over them. -/
structure CCoinsViewCache where
  base : Utxo
  baseBest : Option BlockPtr
  cacheCoins : Utxo
  pindexTip : Option BlockPtr

namespace CCoinsViewCache

def coinsOf (view : CCoinsViewCache) : Utxo := fun txid =>
  (view.cacheCoins txid).or (view.base txid)

def write (view : CCoinsViewCache) (txid : Uint256) (coins : CCoins) : CCoinsViewCache :=
  { view with cacheCoins := Function.update view.cacheCoins txid (some coins) }

/-- `FetchCoins` fills the cache from the base. -/
def fetch (view : CCoinsViewCache) (txid : Uint256) : CCoinsViewCache :=
  match view.cacheCoins txid, view.base txid with
  | none, some coins => view.write txid coins
  | _, _ => view

theorem coinsOf_write (view : CCoinsViewCache) (txid : Uint256) (coins : CCoins) :
    (view.write txid coins).coinsOf = Function.update view.coinsOf txid (some coins) := by
  ext1 txid'
  by_cases h : txid' = txid
  · simp [coinsOf, write, h]
  · simp [coinsOf, write, Function.update_of_ne h]

/-- The copy of a base entry in the cache answers as the base did. -/
theorem getCoins_fetch (view : CCoinsViewCache) (txid : Uint256) :
    (view.fetch txid).coinsOf = view.coinsOf := by
  rw [fetch]
  split
  · rename_i coins hcache hbase
    rw [coinsOf_write, Function.update_eq_self_iff, coinsOf, hcache, hbase]
    rfl
  · rfl

/-- A new cache over the answers of a base. -/
def ofBase (base : Utxo) (baseBest : Option BlockPtr) : CCoinsViewCache :=
  ⟨base, baseBest, fun _ => none, none⟩

/-- `BatchWrite` of a cache: the written entries replace those of the base. -/
def batchWrite (view : CCoinsViewCache) (mapCoins : Utxo) (pindex : Option BlockPtr) :
    CCoinsViewCache :=
  { view with
    cacheCoins := fun txid => (mapCoins txid).or (view.cacheCoins txid)
    pindexTip := pindex }

theorem coinsOf_batchWrite (view : CCoinsViewCache) (mapCoins : Utxo) (pindex : Option BlockPtr) :
    (view.batchWrite mapCoins pindex).coinsOf = fun txid => (mapCoins txid).or (view.coinsOf txid) := by
  ext1 txid
  simp only [coinsOf, batchWrite, Option.or_assoc]

end CCoinsViewCache

instance : CCoinsView CCoinsViewCache where
  getCoins := CCoinsViewCache.coinsOf
  setCoins := CCoinsViewCache.write
  getCoins_setCoins := CCoinsViewCache.coinsOf_write
  getBestBlock view := view.pindexTip.or view.baseBest
  setBestBlock view pindex := { view with pindexTip := some pindex }
  getBestBlock_setBestBlock _ _ := rfl
  getBestBlock_setCoins _ _ _ := rfl
  getCoins_setBestBlock _ _ := rfl

/-- What the coin database gives back for the version of a transaction: `VARINT` writes one byte
for a negative number. -/
def storedVersion (nVersion : ℤ) : ℤ := if nVersion < 0 then nVersion % 128 else nVersion

/-- The chainstate database: its entries and the hash under `'B'`. -/
structure CCoinsViewDB where
  coins : Utxo
  hashBestChain : Option Uint256

/-- `BatchWriteCoins` erases pruned entries and serializes the others. -/
def CCoinsViewDB.batchWrite (db : CCoinsViewDB) (mapCoins : Utxo) (pindex : Option BlockPtr) :
    CCoinsViewDB where
  coins := fun txid => match mapCoins txid with
    | none => db.coins txid
    | some coins =>
      if coins.isPruned then none else some { coins with nVersion := storedVersion coins.nVersion }
  hashBestChain := pindex.or db.hashBestChain

/-- An entry that went through the database. -/
theorem storedVersion_match (coins : CCoins) :
    CoinMatch coins { coins with nVersion := storedVersion coins.nVersion } := by
  refine ⟨rfl, rfl, rfl, fun h => ?_⟩
  change storedVersion coins.nVersion = coins.nVersion
  rw [storedVersion, if_neg (by omega)]

end Candypool.Coins
