import Candypool.Coins.MatchedViews

/-! A stack of coin caches over the chainstate database, down the `base` pointers. A read copies an
entry upwards through every layer, a call of `ConnectBlock` or `DisconnectBlock` writes to the top
layer, and `Flush` hands the entries of a layer to the one below. -/
namespace Candypool.Coins
open Candypool.Prime Candypool.Core

/-- A database, or a `CCoinsViewCache` on a base. -/
inductive Layers
  | db (view : CCoinsViewDB)
  | cache (base : Layers) (cacheCoins : Utxo) (pindexTip : Option BlockPtr)

namespace Layers
variable (inIndex : BlockPtr → Bool)

/-- What `GetCoins` finds. -/
def coinsOf : Layers → Utxo
  | db view => view.coins
  | cache base cacheCoins _ => fun txid => (cacheCoins txid).or (base.coinsOf txid)

/-- What `GetBestBlock` answers; the database only knows blocks that are keys of `mapBlockIndex`. -/
def bestOf : Layers → Option BlockPtr
  | db view => view.hashBestChain.filter inIndex
  | cache base _ pindexTip => pindexTip.or base.bestOf

/-- `FetchCoins`: every layer down to the one that has the entry keeps a copy. -/
def fetchCoins (txid : Uint256) : Layers → Layers
  | db view => db view
  | cache base cacheCoins pindexTip =>
    match cacheCoins txid with
    | some _ => cache base cacheCoins pindexTip
    | none =>
      match base.coinsOf txid with
      | none => cache (base.fetchCoins txid) cacheCoins pindexTip
      | some coins =>
        cache (base.fetchCoins txid) (Function.update cacheCoins txid (some coins)) pindexTip

/-- `GetBestBlock` keeps the answer of the base. -/
def fetchBestBlock : Layers → Layers
  | db view => db view
  | cache base cacheCoins (some pindex) => cache base cacheCoins (some pindex)
  | cache base cacheCoins none => cache base.fetchBestBlock cacheCoins (base.bestOf inIndex)

/-- `BatchWrite` of a database and of a cache; only the former looks whether there is a block. -/
def batchWrite (mapCoins : Utxo) (pindex : Option BlockPtr) : Layers → Layers
  | db view => db (view.batchWrite mapCoins pindex)
  | cache base cacheCoins _ => cache base (fun txid => (mapCoins txid).or (cacheCoins txid)) pindex

/-- `Flush` empties the cache and keeps its best block. -/
def flush : Layers → Layers
  | db view => db view
  | cache base cacheCoins pindexTip =>
    cache (base.batchWrite cacheCoins pindexTip) (fun _ => none) pindexTip

/-- The end of the cache on top. -/
def drop : Layers → Layers
  | db view => db view
  | cache base _ _ => base

/-- A `CCoinsViewCache` over the layer `s`. -/
def stack (s : Layers) : Layers := cache s (fun _ => none) none

end Layers

/-- What a call can change of the cache it is given: the layers below are not its own. -/
structure CacheOn (inIndex : BlockPtr → Bool) (base : Layers) where
  cacheCoins : Utxo
  pindexTip : Option BlockPtr

def CacheOn.layers {inIndex : BlockPtr → Bool} {base : Layers} (view : CacheOn inIndex base) : Layers :=
  .cache base view.cacheCoins view.pindexTip

instance (inIndex : BlockPtr → Bool) (base : Layers) : CCoinsView (CacheOn inIndex base) where
  getCoins view := view.layers.coinsOf
  setCoins view txid coins :=
    { view with cacheCoins := Function.update view.cacheCoins txid (some coins) }
  getCoins_setCoins view txid coins := by
    ext1 txid'
    by_cases h : txid' = txid
    · simp [CacheOn.layers, Layers.coinsOf, h]
    · simp [CacheOn.layers, Layers.coinsOf, Function.update_of_ne h]
  getBestBlock view := view.layers.bestOf inIndex
  setBestBlock view pindex := { view with pindexTip := some pindex }
  getBestBlock_setBestBlock _ _ := rfl
  getBestBlock_setCoins _ _ _ := rfl
  getCoins_setBestBlock _ _ := rfl

/-- One map of coins and the block it belongs to. -/
structure FlatView where
  coins : Utxo
  best : Option BlockPtr

instance : CCoinsView FlatView where
  getCoins view := view.coins
  setCoins view txid coins := { view with coins := Function.update view.coins txid (some coins) }
  getCoins_setCoins _ _ _ := rfl
  getBestBlock view := view.best
  setBestBlock view pindex := { view with best := some pindex }
  getBestBlock_setBestBlock _ _ := rfl
  getBestBlock_setCoins _ _ _ := rfl
  getCoins_setBestBlock _ _ := rfl

section Calls

/-- What is done to the stack. -/
inductive LayerOp
  | stack
  | read (txid : Uint256)
  | readBest
  | connect (io : ConnectIO) (mapBlockIndex : BlockPtr → Option CBlockIndex) (block : CBlock)
      (ptr : BlockPtr) (pindex : CBlockIndex) (fJustCheck : Bool)
  | disconnect (block : CBlock) (ptr : BlockPtr) (pindex : CBlockIndex) (blockUndo : Option CBlockUndo)
  | flush
  | drop

/-- What the caller gets: the verdict, and what became of the index entry and the undo data. -/
inductive Outcome
  | nothing
  | connected (error : Option ConnectError) (pindex : CBlockIndex)
      (undoWritten blockundo : Option CBlockUndo)
  | disconnected (error : Option DisconnectError) (fClean : Bool)
  deriving DecidableEq

def ConnectResult.outcome {V : Type} (r : ConnectResult V) : Outcome :=
  .connected r.error r.pindex r.undoWritten r.blockundo

def DisconnectResult.outcome {V : Type} (r : DisconnectResult V) : Outcome :=
  .disconnected r.error r.fClean

/-- The same verdict, and undo data up to the versions the database cannot hold. -/
inductive OutcomeMatch : Outcome → Outcome → Prop
  | nothing : OutcomeMatch .nothing .nothing
  | connected {error : Option ConnectError} {pindex : CBlockIndex}
      {undoWritten undoWritten' blockundo blockundo' : Option CBlockUndo}
      (hwritten : Option.Rel BlockUndoMatch undoWritten undoWritten')
      (hundo : Option.Rel BlockUndoMatch blockundo blockundo') :
      OutcomeMatch (.connected error pindex undoWritten blockundo)
        (.connected error pindex undoWritten' blockundo')
  | disconnected (error : Option DisconnectError) (fClean : Bool) :
      OutcomeMatch (.disconnected error fClean) (.disconnected error fClean)

variable (cons : Consensus) (inIndex : BlockPtr → Bool)

/-- A call writes to the cache on top; without a cache there is none. -/
def Layers.connectBlock (io : ConnectIO) (mapBlockIndex : BlockPtr → Option CBlockIndex)
    (block : CBlock) (ptr : BlockPtr) (pindex : CBlockIndex) (fJustCheck : Bool) : Layers → Outcome × Layers
  | .db view => (.nothing, .db view)
  | .cache base cacheCoins pindexTip =>
    let r := Coins.connectBlock cons io mapBlockIndex block ptr pindex
      (⟨cacheCoins, pindexTip⟩ : CacheOn inIndex base) fJustCheck
    (r.outcome, r.view.layers)

def Layers.disconnectBlock (block : CBlock) (ptr : BlockPtr) (pindex : CBlockIndex)
    (blockUndo : Option CBlockUndo) : Layers → Outcome × Layers
  | .db view => (.nothing, .db view)
  | .cache base cacheCoins pindexTip =>
    let r := Coins.disconnectBlock cons block ptr pindex blockUndo
      (⟨cacheCoins, pindexTip⟩ : CacheOn inIndex base)
    (r.outcome, r.view.layers)

/-- One operation on the layers. `ConnectBlock` asks for the best block once the block passed
`CheckBlock`, `DisconnectBlock` at once; its other reads are operations of their own. -/
def Layers.step (s : Layers) : LayerOp → Outcome × Layers
  | .stack => (.nothing, s.stack)
  | .read txid => (.nothing, s.fetchCoins txid)
  | .readBest => (.nothing, s.fetchBestBlock inIndex)
  | .connect io mapBlockIndex block ptr pindex fJustCheck =>
    let s := match block.checkBlock cons.ext io.nAdjustedTime (!fJustCheck) with
      | .ok () => s.fetchBestBlock inIndex
      | .error _ => s
    s.connectBlock cons inIndex io mapBlockIndex block ptr pindex fJustCheck
  | .disconnect block ptr pindex blockUndo =>
    (s.fetchBestBlock inIndex).disconnectBlock cons inIndex block ptr pindex blockUndo
  | .flush => (.nothing, s.flush)
  | .drop => (.nothing, s.drop)

/-- The same operation on flat maps. The first one is the map in use, the others are what is left when
layers are dropped, and the last one stands for the database. -/
def flatStep : List FlatView → LayerOp → Outcome × List FlatView
  | f :: g :: fs, .connect io mapBlockIndex block ptr pindex fJustCheck =>
    let r := connectBlock cons io mapBlockIndex block ptr pindex f fJustCheck
    (r.outcome, r.view :: g :: fs)
  | f :: g :: fs, .disconnect block ptr pindex blockUndo =>
    let r := disconnectBlock cons block ptr pindex blockUndo f
    (r.outcome, r.view :: g :: fs)
  | f :: _ :: fs, .flush => (.nothing, f :: f :: fs)
  | _ :: g :: fs, .drop => (.nothing, g :: fs)
  | f :: fs, .stack => (.nothing, f :: f :: fs)
  | fs, _ => (.nothing, fs)

/-- The operations one after the other. -/
def runOps {S : Type} (step : S → LayerOp → Outcome × S) : List LayerOp → S → List Outcome × S
  | [], s => ([], s)
  | op :: ops, s =>
    let (outcome,s) := step s op
    let (outcomes,s) := runOps step ops s
    (outcome :: outcomes, s)

end Calls

end Candypool.Coins
