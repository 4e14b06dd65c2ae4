import Candypool.Coins.Layers

/-! The layered cache shows one map of coins, in every run. -/
namespace Candypool.Coins
open Candypool.Prime Candypool.Core

namespace Layers
variable {inIndex : BlockPtr → Bool}

theorem coinsOf_fetchCoins (txid : Uint256) (s : Layers) : (s.fetchCoins txid).coinsOf = s.coinsOf := by
  induction s with
  | db view => rfl
  | cache base cacheCoins pindexTip ih =>
    rw [fetchCoins]
    split
    · rfl
    · rename_i hmiss
      split
      · rw [coinsOf, coinsOf, ih]
      · rename_i coins hcoins
        ext1 txid'
        by_cases h : txid' = txid
        · simp [coinsOf, h, hmiss, hcoins]
        · simp [coinsOf, ih, Function.update_of_ne h]

theorem bestOf_fetchCoins (txid : Uint256) (s : Layers) :
    (s.fetchCoins txid).bestOf inIndex = s.bestOf inIndex := by
  induction s with
  | db view => rfl
  | cache base cacheCoins pindexTip ih =>
    rw [fetchCoins]
    split
    · rfl
    · split <;> rw [bestOf, bestOf, ih]

theorem coinsOf_fetchBestBlock (s : Layers) : (s.fetchBestBlock inIndex).coinsOf = s.coinsOf := by
  induction s with
  | db view => rfl
  | cache base cacheCoins pindexTip ih =>
    cases pindexTip with
    | some pindex => rfl
    | none => rw [fetchBestBlock, coinsOf, coinsOf, ih]

theorem bestOf_fetchBestBlock (s : Layers) :
    (s.fetchBestBlock inIndex).bestOf inIndex = s.bestOf inIndex := by
  induction s with
  | db view => rfl
  | cache base cacheCoins pindexTip ih =>
    cases pindexTip with
    | some pindex => rfl
    | none =>
      rw [fetchBestBlock, bestOf, bestOf, ih, Option.none_or]
      exact Option.or_self

/-- The layers answer alike, each of them. -/
inductive SameAnswers (inIndex : BlockPtr → Bool) : Layers → Layers → Prop
  | db (view : CCoinsViewDB) : SameAnswers inIndex (.db view) (.db view)
  | cache {base base' : Layers} {cacheCoins cacheCoins' : Utxo} {pindexTip pindexTip' : Option BlockPtr}
      (hcoins : (cache base' cacheCoins' pindexTip').coinsOf = (cache base cacheCoins pindexTip).coinsOf)
      (hbest : (cache base' cacheCoins' pindexTip').bestOf inIndex =
        (cache base cacheCoins pindexTip).bestOf inIndex)
      (hbase : SameAnswers inIndex base base') :
      SameAnswers inIndex (cache base cacheCoins pindexTip) (cache base' cacheCoins' pindexTip')

theorem SameAnswers.refl (s : Layers) : SameAnswers inIndex s s := by
  induction s with
  | db view => exact .db view
  | cache base cacheCoins pindexTip ih => exact .cache rfl rfl ih

theorem SameAnswers.trans {s s' s'' : Layers} (h : SameAnswers inIndex s s')
    (h' : SameAnswers inIndex s' s'') : SameAnswers inIndex s s'' := by
  induction h generalizing s'' with
  | db view => exact h'
  | cache hcoins hbest _ ih =>
    cases h' with
    | cache hcoins' hbest' hbase' => exact .cache (hcoins'.trans hcoins) (hbest'.trans hbest) (ih hbase')

theorem SameAnswers.drop {s s' : Layers} (h : SameAnswers inIndex s s') :
    SameAnswers inIndex s.drop s'.drop := by
  cases h with
  | db view => exact .db view
  | cache _ _ hbase => exact hbase

/-- Reading an entry only copies it upwards. -/
theorem fetchCoins_same (txid : Uint256) (s : Layers) : SameAnswers inIndex s (s.fetchCoins txid) := by
  induction s with
  | db view => exact .db view
  | cache base cacheCoins pindexTip ih =>
    have hcoins := coinsOf_fetchCoins txid (cache base cacheCoins pindexTip)
    have hbest : _ = (cache base cacheCoins pindexTip).bestOf inIndex :=
      bestOf_fetchCoins txid (cache base cacheCoins pindexTip)
    revert hcoins hbest
    rw [fetchCoins]
    split
    · exact fun _ _ => .refl _
    · split
      · exact fun hcoins hbest => .cache hcoins hbest ih
      · exact fun hcoins hbest => .cache hcoins hbest ih

/-- So does reading the best block. -/
theorem fetchBestBlock_same (s : Layers) : SameAnswers inIndex s (s.fetchBestBlock inIndex) := by
  induction s with
  | db view => exact .db view
  | cache base cacheCoins pindexTip ih =>
    cases pindexTip with
    | some pindex => exact .refl _
    | none =>
      exact .cache (coinsOf_fetchBestBlock (.cache base cacheCoins none))
        (bestOf_fetchBestBlock (.cache base cacheCoins none)) ih

end Layers

open Layers

section Entries

theorem CoinMatch.trans {a b c : CCoins} (h : CoinMatch a b) (h' : CoinMatch b c) : CoinMatch a c := by
  refine ⟨h'.fCoinBase.trans h.fCoinBase, h'.vout.trans h.vout, h'.nHeight.trans h.nHeight, fun ha => ?_⟩
  have hb := h.nVersion ha
  exact (h'.nVersion (hb ▸ ha)).trans hb

/-- What the database gives back for an entry that was written matches it too. -/
theorem EntryMatch.batchWrite {entry : Option CCoins} {db : CCoinsViewDB} {mapCoins : Utxo}
    (pindex : Option BlockPtr) {txid : Uint256}
    (h : EntryMatch entry ((mapCoins txid).or (db.coins txid))) :
    EntryMatch entry ((db.batchWrite mapCoins pindex).coins txid) := by
  rw [CCoinsViewDB.batchWrite]
  dsimp only
  cases hc : mapCoins txid with
  | none =>
    rw [hc, Option.none_or] at h
    exact h
  | some coins =>
    rw [hc, Option.some_or] at h
    dsimp only
    by_cases hp : coins.isPruned = true
    · rw [if_pos hp]
      exact .of_none (h.none_iff.mpr (live_none_of_pruned hp)) rfl
    · rw [if_neg hp]
      rw [Bool.not_eq_true] at hp
      obtain ⟨c,hlive,hmatch⟩ := h.of_live_right (live_some_iff.mpr ⟨rfl, hp⟩)
      obtain ⟨rfl,-⟩ := live_some_iff.mp hlive
      exact (hmatch.trans (storedVersion_match coins)).entry

/-- The database keeps no pruned entry. -/
def CCoinsViewDB.Swept (db : CCoinsViewDB) : Prop :=
  ∀ txid coins, db.coins txid = some coins → coins.isPruned = false

theorem CCoinsViewDB.Swept.batchWrite {db : CCoinsViewDB} (h : db.Swept) (mapCoins : Utxo)
    (pindex : Option BlockPtr) : (db.batchWrite mapCoins pindex).Swept := by
  intro txid coins hcoins
  rw [CCoinsViewDB.batchWrite] at hcoins
  dsimp only at hcoins
  split at hcoins
  · exact h txid coins hcoins
  · split_ifs at hcoins with hp
    obtain rfl := Option.some.inj hcoins
    exact Bool.eq_false_iff.mpr hp

end Entries

section Agree
variable {inIndex : BlockPtr → Bool}

/-- A layer shows the coins and the best block of the map, which is one of the index. -/
structure Shows (inIndex : BlockPtr → Bool) (f : FlatView) (s : Layers) : Prop where
  coins : Utxo.Match f.coins s.coinsOf
  best : s.bestOf inIndex = f.best
  index : ∀ ptr, f.best = some ptr → inIndex ptr = true

/-- Every layer shows its map, and the database holds no more than what can be spent. -/
inductive Agree (inIndex : BlockPtr → Bool) : List FlatView → Layers → Prop
  | db {f : FlatView} {view : CCoinsViewDB} (h : Shows inIndex f (.db view)) (hswept : view.Swept) :
      Agree inIndex [f] (.db view)
  | cache {f : FlatView} {fs : List FlatView} {base : Layers} {cacheCoins : Utxo}
      {pindexTip : Option BlockPtr} (h : Shows inIndex f (.cache base cacheCoins pindexTip))
      (hbase : Agree inIndex fs base) : Agree inIndex (f :: fs) (.cache base cacheCoins pindexTip)

theorem Agree.head {fs : List FlatView} {s : Layers} (h : Agree inIndex fs s) :
    ∃ f fs', fs = f :: fs' ∧ Shows inIndex f s := by
  cases h with
  | db h _ => exact ⟨_, _, rfl, h⟩
  | cache h _ => exact ⟨_, _, rfl, h⟩

theorem Agree.same {fs : List FlatView} {s s' : Layers} (h : Agree inIndex fs s)
    (hs : SameAnswers inIndex s s') : Agree inIndex fs s' := by
  induction hs generalizing fs with
  | db view => exact h
  | cache hcoins hbest _ ih =>
    cases h with
    | cache h hbase => exact .cache ⟨hcoins ▸ h.coins, hbest.trans h.best, h.index⟩ (ih hbase)

theorem Agree.stack {f : FlatView} {fs : List FlatView} {s : Layers} (h : Agree inIndex (f :: fs) s) :
    Agree inIndex (f :: f :: fs) s.stack := by
  obtain ⟨f',fs',heq,hshows⟩ := h.head
  obtain ⟨rfl,rfl⟩ := List.cons.inj heq
  exact .cache ⟨hshows.coins, hshows.best, hshows.index⟩ h

/-- The layer on top knows its best block where the cache below knows its own. -/
def Layers.TipKnown : Layers → Prop
  | .cache (.cache _ _ baseTip) _ pindexTip => pindexTip = none → baseTip = none
  | _ => True

instance : DecidablePred Layers.TipKnown
  | .db _ => isTrue trivial
  | .cache (.db _) _ _ => isTrue trivial
  | .cache (.cache _ _ baseTip) _ pindexTip =>
    inferInstanceAs (Decidable (pindexTip = none → baseTip = none))

theorem Agree.flush {f g : FlatView} {fs : List FlatView} {base : Layers} {cacheCoins : Utxo}
    {pindexTip : Option BlockPtr} (h : Agree inIndex (f :: g :: fs) (.cache base cacheCoins pindexTip))
    (htip : Layers.TipKnown (.cache base cacheCoins pindexTip)) :
    Agree inIndex (f :: f :: fs) (Layers.cache base cacheCoins pindexTip).flush := by
  cases h with
  | cache h hbase =>
    -- a flushed cache is empty, and shows what the layer below it shows
    have hflushed (base' : Layers) (hshows : Shows inIndex f base') :
        Shows inIndex f (.cache base' (fun _ => none) pindexTip) := by
      refine ⟨hshows.coins, ?_, h.index⟩
      rw [bestOf, hshows.best, ← h.best, bestOf]
      cases pindexTip <;> rfl
    cases hbase with
    | @db _ view hview hswept =>
      have hshows : Shows inIndex f (.db (view.batchWrite cacheCoins pindexTip)) := by
        refine ⟨fun txid => (h.coins txid).batchWrite pindexTip, ?_, h.index⟩
        have hbest := h.best
        rw [bestOf, bestOf] at hbest
        rw [bestOf, CCoinsViewDB.batchWrite]
        cases pindexTip with
        | none => exact hbest
        | some pindex =>
          have hindex := h.index pindex hbest.symm
          rw [Option.some_or] at hbest ⊢
          rw [← hbest]
          exact Option.filter_eq_some_iff.mpr ⟨rfl, hindex⟩
      exact .cache (hflushed _ hshows) (.db hshows (hswept.batchWrite cacheCoins pindexTip))
    | @cache _ _ base baseCoins baseTip _ hbase =>
      -- into another cache: its entries are overwritten where the upper cache has one
      have hshows : Shows inIndex f (.cache base (fun txid => (cacheCoins txid).or (baseCoins txid))
          pindexTip) := by
        refine ⟨fun txid => ?_, ?_, h.index⟩
        · have hcoins := h.coins txid
          simp only [coinsOf, ← Option.or_assoc] at hcoins
          exact hcoins
        · rw [← h.best, bestOf, bestOf, bestOf]
          cases pindexTip with
          | some pindex => rfl
          | none =>
            have hnone : baseTip = none := htip rfl
            rw [hnone]
            rfl
      exact .cache (hflushed _ hshows) (.cache hshows hbase)

end Agree

section Steps
variable {cons : Consensus} {inIndex : BlockPtr → Bool}

/-- `ConnectBlock` on a layered cache and on the flat map. -/
theorem Agree.connectBlock {f g : FlatView} {fs : List FlatView} {base : Layers} {cacheCoins : Utxo}
    {pindexTip : Option BlockPtr} (h : Agree inIndex (f :: g :: fs) (.cache base cacheCoins pindexTip))
    (io : ConnectIO) (mapBlockIndex : BlockPtr → Option CBlockIndex) (block : CBlock) (ptr : BlockPtr)
    (pindex : CBlockIndex) (fJustCheck : Bool)
    (hindex : fJustCheck = false ∨ block.getHash cons.ext = cons.hashGenesisBlock → inIndex ptr = true) :
    let r := Coins.connectBlock cons io mapBlockIndex block ptr pindex f fJustCheck
    let r' := (Layers.cache base cacheCoins pindexTip).connectBlock cons inIndex io mapBlockIndex block
      ptr pindex fJustCheck
    OutcomeMatch r.outcome r'.1 ∧ Agree inIndex (r.view :: g :: fs) r'.2 := by
  intro r r'
  cases h with
  | cache hshows hbase =>
    have hview : ViewMatch f (⟨cacheCoins, pindexTip⟩ : CacheOn inIndex base) :=
      ⟨hshows.coins, hshows.best⟩
    have hmatch : ConnectMatch r _ :=
      hview.connectBlock io mapBlockIndex block ptr pindex fJustCheck
    refine ⟨?_, .cache ⟨hmatch.view.coins, hmatch.view.best, fun p hp => ?_⟩ hbase⟩
    · change OutcomeMatch (.connected _ _ _ _) (.connected _ _ _ _)
      rw [hmatch.error, hmatch.pindex]
      exact .connected hmatch.undoWritten hmatch.blockundo
    · obtain hkeep | ⟨hset,hwhen⟩ : getBestBlock r.view = getBestBlock f ∨
          getBestBlock r.view = some ptr ∧ _ :=
        connectBlock_best io mapBlockIndex block ptr pindex f fJustCheck
      · exact hshows.index p (hkeep.symm.trans hp)
      · obtain rfl := Option.some.inj (hset.symm.trans hp)
        exact hindex hwhen

/-- `DisconnectBlock` of a block that was checked, when it finds nothing wrong on the flat map. -/
theorem Agree.disconnectBlock {f g : FlatView} {fs : List FlatView} {base : Layers}
    {cacheCoins : Utxo} {pindexTip : Option BlockPtr}
    (h : Agree inIndex (f :: g :: fs) (.cache base cacheCoins pindexTip)) (block : CBlock)
    (ptr : BlockPtr) (pindex : CBlockIndex) (blockUndo : Option CBlockUndo)
    (hchecked : ∀ tx ∈ block.vtx, tx.Checked)
    (hindex : ∀ pprev, pindex.pprev = some pprev → inIndex pprev = true)
    (hclean : (Coins.disconnectBlock cons block ptr pindex blockUndo f).fClean = true) :
    let r := Coins.disconnectBlock cons block ptr pindex blockUndo f
    let r' := (Layers.cache base cacheCoins pindexTip).disconnectBlock cons inIndex block ptr pindex
      blockUndo
    OutcomeMatch r.outcome r'.1 ∧ Agree inIndex (r.view :: g :: fs) r'.2 := by
  intro r r'
  cases h with
  | cache hshows hbase =>
    have hview : ViewMatch f (⟨cacheCoins, pindexTip⟩ : CacheOn inIndex base) :=
      ⟨hshows.coins, hshows.best⟩
    have hmatch := hview.disconnectBlock hchecked ptr pindex blockUndo hclean
    refine ⟨?_, .cache ⟨hmatch.view.coins, hmatch.view.best, fun p hp => ?_⟩ hbase⟩
    · change OutcomeMatch (.disconnected _ _) (.disconnected _ _)
      rw [hmatch.error, hmatch.fClean, hclean]
      exact .disconnected _ _
    · obtain hkeep | ⟨pprev,hpprev,hset⟩ : getBestBlock r.view = getBestBlock f ∨ _ :=
        disconnectBlock_best block ptr pindex blockUndo f
      · exact hshows.index p (hkeep.symm.trans hp)
      · obtain rfl := Option.some.inj (hset.symm.trans hp)
        exact hindex _ hpprev

variable (cons inIndex) in
/-- What the operations rely on. The best block a call leaves is one of the index; a disconnected
block was checked, and the call does not report the undo data as corrupt; and a layer is flushed once
it knows its best block. -/
def LayerOp.Sound (fs : List FlatView) (s : Layers) : LayerOp → Prop
  | .connect _ _ block ptr _ fJustCheck =>
    fJustCheck = false ∨ block.getHash cons.ext = cons.hashGenesisBlock → inIndex ptr = true
  | .disconnect block ptr pindex blockUndo =>
    (∀ tx ∈ block.vtx, tx.Checked) ∧ (∀ pprev, pindex.pprev = some pprev → inIndex pprev = true) ∧
      ∀ f ∈ fs.head?, (disconnectBlock cons block ptr pindex blockUndo f).fClean = true
  | .flush => s.TipKnown
  | _ => True

/-- The layers keep showing the maps, and the caller gets the same answer. -/
theorem Agree.step {fs : List FlatView} {s : Layers} (h : Agree inIndex fs s) (op : LayerOp)
    (hsound : op.Sound cons inIndex fs s) :
    OutcomeMatch (flatStep cons fs op).1 (s.step cons inIndex op).1 ∧
      Agree inIndex (flatStep cons fs op).2 (s.step cons inIndex op).2 := by
  cases h with
  | @db f view hshows hswept =>
    -- the lowest layer is the database, above it there are caches
    have h : Agree inIndex [f] (.db view) := .db hshows hswept
    cases op with
    | stack => exact ⟨.nothing, h.stack⟩
    | connect io mapBlockIndex block ptr pindex fJustCheck =>
      refine ⟨?_, ?_⟩
      all_goals
        simp only [Layers.step]
        split
      · exact .nothing
      · exact .nothing
      · exact h
      · exact h
    | read txid => exact ⟨.nothing, h⟩
    | readBest => exact ⟨.nothing, h⟩
    | disconnect block ptr pindex blockUndo => exact ⟨.nothing, h⟩
    | flush => exact ⟨.nothing, h⟩
    | drop => exact ⟨.nothing, h⟩
  | @cache f fs base cacheCoins pindexTip hshows hbase =>
    -- a read may fill the cache, which shows the same coins afterwards
    obtain ⟨g,fs,rfl,-⟩ := hbase.head
    have h : Agree inIndex (f :: g :: fs) (.cache base cacheCoins pindexTip) := .cache hshows hbase
    cases op with
    | stack => exact ⟨.nothing, h.stack⟩
    | read txid => exact ⟨.nothing, h.same (fetchCoins_same txid _)⟩
    | readBest => exact ⟨.nothing, h.same (fetchBestBlock_same _)⟩
    | connect io mapBlockIndex block ptr pindex fJustCheck =>
      have hread := h.same (fetchBestBlock_same _)
      simp only [Layers.step]
      split
      · cases pindexTip with
        | some tip => exact hread.connectBlock io mapBlockIndex block ptr pindex fJustCheck hsound
        | none => exact hread.connectBlock io mapBlockIndex block ptr pindex fJustCheck hsound
      · exact h.connectBlock io mapBlockIndex block ptr pindex fJustCheck hsound
    | disconnect block ptr pindex blockUndo =>
      obtain ⟨hchecked,hindex,hclean⟩ := hsound
      have hread := h.same (fetchBestBlock_same _)
      cases pindexTip with
      | some tip =>
        exact hread.disconnectBlock block ptr pindex blockUndo hchecked hindex (hclean f rfl)
      | none =>
        exact hread.disconnectBlock block ptr pindex blockUndo hchecked hindex (hclean f rfl)
    | flush => exact ⟨.nothing, h.flush hsound⟩
    | drop => exact ⟨.nothing, hbase⟩

/-- Every operation of the run is sound where it is made. -/
def SoundRun (cons : Consensus) (inIndex : BlockPtr → Bool) :
    List LayerOp → List FlatView → Layers → Prop
  | [], _, _ => True
  | op :: ops, fs, s => op.Sound cons inIndex fs s ∧
    SoundRun cons inIndex ops (flatStep cons fs op).2 (s.step cons inIndex op).2

theorem Agree.run {fs : List FlatView} {s : Layers} (h : Agree inIndex fs s) (ops : List LayerOp)
    (hsound : SoundRun cons inIndex ops fs s) :
    List.Forall₂ OutcomeMatch (runOps (flatStep cons) ops fs).1
        (runOps (Layers.step cons inIndex) ops s).1 ∧
      Agree inIndex (runOps (flatStep cons) ops fs).2 (runOps (Layers.step cons inIndex) ops s).2 := by
  induction ops generalizing fs s with
  | nil => exact ⟨.nil, h⟩
  | cons op ops ih =>
    obtain ⟨hop,hops⟩ := hsound
    obtain ⟨houtcome,hnext⟩ := h.step op hop
    obtain ⟨hrest,hend⟩ := ih hnext hops
    exact ⟨.cons houtcome hrest, hend⟩

/-- The operations that leave the layers below the top one alone. -/
def LayerOp.OnTop : LayerOp → Prop
  | .stack | .flush | .drop => False
  | _ => True

theorem step_drop {op : LayerOp} (h : op.OnTop) (s : Layers) :
    SameAnswers inIndex s.drop (s.step cons inIndex op).2.drop := by
  cases op with
  | stack => exact h.elim
  | flush => exact h.elim
  | drop => exact h.elim
  | read txid => exact (fetchCoins_same txid s).drop
  | readBest => exact (fetchBestBlock_same s).drop
  | connect io mapBlockIndex block ptr pindex fJustCheck =>
    have hcall (s : Layers) : (s.connectBlock cons inIndex io mapBlockIndex block ptr pindex
        fJustCheck).2.drop = s.drop := by
      cases s <;> rfl
    simp only [Layers.step]
    split
    · rw [hcall]
      exact (fetchBestBlock_same s).drop
    · rw [hcall]
      exact .refl _
  | disconnect block ptr pindex blockUndo =>
    have hcall (s : Layers) : (s.disconnectBlock cons inIndex block ptr pindex blockUndo).2.drop =
        s.drop := by
      cases s <;> rfl
    simp only [Layers.step, hcall]
    exact (fetchBestBlock_same s).drop

theorem run_drop {ops : List LayerOp} (h : ∀ op ∈ ops, op.OnTop) (s : Layers) :
    SameAnswers inIndex s.drop (runOps (Layers.step cons inIndex) ops s).2.drop := by
  induction ops generalizing s with
  | nil => exact .refl _
  | cons op ops ih =>
    exact (step_drop (h op List.mem_cons_self) s).trans
      (ih (fun op hop => h op (List.mem_cons_of_mem _ hop)) _)

/-- The layered coin cache is transparent: from a database without pruned entries, every run of the
operations gives the verdicts and the undo data of the flat map, and each layer shows its map. When
the database is all that is left, it holds exactly the entries of the map that are not pruned, and
its best block. Whatever calls were made on a layer, dropping it leaves the layers below answering
as they did. -/
theorem layers_transparent (cons : Consensus) (inIndex : BlockPtr → Bool) (view : CCoinsViewDB)
    (hswept : view.Swept) (ops : List LayerOp)
    (hsound : SoundRun cons inIndex ops [⟨view.coins, view.hashBestChain.filter inIndex⟩] (.db view)) :
    let flat := runOps (flatStep cons) ops [⟨view.coins, view.hashBestChain.filter inIndex⟩]
    let real := runOps (Layers.step cons inIndex) ops (.db view)
    List.Forall₂ OutcomeMatch flat.1 real.1 ∧ Agree inIndex flat.2 real.2 ∧
      (∀ view', real.2 = .db view' → ∃ f, flat.2 = [f] ∧
        (∀ txid, Option.Rel CoinMatch (live (f.coins txid)) (view'.coins txid)) ∧
        view'.hashBestChain.filter inIndex = f.best) ∧
      ∀ calls, (∀ op ∈ calls, LayerOp.OnTop op) →
        SameAnswers inIndex real.2.drop (runOps (Layers.step cons inIndex) calls real.2).2.drop := by
  intro flat real
  have hstart : Agree inIndex [⟨view.coins, view.hashBestChain.filter inIndex⟩] (.db view) := by
    refine .db ⟨Utxo.Match.refl _, rfl, fun ptr hptr => ?_⟩ hswept
    exact (Option.filter_eq_some_iff.mp hptr).2
  obtain ⟨houtcomes,hend⟩ := hstart.run ops hsound
  refine ⟨houtcomes, hend, fun view' hview' => ?_, fun calls hcalls => run_drop hcalls real.2⟩
  have hlast : Agree inIndex flat.2 (.db view') := hview' ▸ hend
  generalize flat.2 = fs at hlast
  cases hlast with
  | @db f _ hshows hswept' =>
    refine ⟨f, rfl, fun txid => ?_, hshows.best⟩
    have hentry : EntryMatch (f.coins txid) (view'.coins txid) := hshows.coins txid
    have hlive : live (view'.coins txid) = view'.coins txid := by
      cases hc : view'.coins txid with
      | none => rfl
      | some coins => exact live_some_iff.mpr ⟨rfl, hswept' txid coins hc⟩
    rw [EntryMatch, hlive] at hentry
    exact hentry

end Steps

section Sample

/-- The chainstate at block `0x2222`, with the two outputs of the parent. -/
def sampleDB : CCoinsViewDB :=
  ⟨fun txid => if txid = sampleParentId then
    some ⟨false, [⟨5*coin, opTrue⟩, ⟨5*coin, opTrue⟩], 50, 1⟩ else none, some 0x2222⟩

theorem sampleDB_swept : sampleDB.Swept := by
  intro txid coins hcoins
  change (if txid = sampleParentId then some _ else none) = some coins at hcoins
  split_ifs at hcoins
  obtain rfl := Option.some.inj hcoins
  rfl

def runFlat (ops : List LayerOp) : List Outcome × List FlatView :=
  runOps (flatStep sampleConsensus) ops
    [⟨sampleDB.coins, sampleDB.hashBestChain.filter fun _ => true⟩]

def runLayers (ops : List LayerOp) : List Outcome × Layers :=
  runOps (Layers.step sampleConsensus fun _ => true) ops (.db sampleDB)

def connectSample : LayerOp :=
  .connect sampleIO sampleMap sampleBlock (sampleBlock.getHash sampleExternals)
    (sampleIndex (sampleBlock.getHash sampleExternals) 100 (some 0x2222)) false

def disconnectSample (blockUndo : Option CBlockUndo) : LayerOp :=
  .disconnect sampleBlock (sampleBlock.getHash sampleExternals) sampleConnect.pindex blockUndo

/-- The sample block is connected on one layer, disconnected on another, and only the first is kept. -/
def sampleOps : List LayerOp :=
  [.stack, .read sampleParentId, connectSample, .stack, disconnectSample sampleConnect.blockundo,
    .drop, .flush, .drop]

theorem sampleBlock_checked : ∀ tx ∈ sampleBlock.vtx, tx.Checked := by
  have hcheck : sampleBlock.checkBlock sampleExternals sampleIO.nAdjustedTime true = .ok () := by
    decide +kernel
  exact (checkBlock_ok hcheck).1.checked

theorem layers_transparent_sample :
    List.Forall₂ OutcomeMatch (runFlat sampleOps).1 (runLayers sampleOps).1 ∧
      Agree (fun _ => true) (runFlat sampleOps).2 (runLayers sampleOps).2 := by
  have hsound : SoundRun sampleConsensus (fun _ => true) sampleOps
      [⟨sampleDB.coins, sampleDB.hashBestChain.filter fun _ => true⟩] (.db sampleDB) := by
    refine ⟨trivial, trivial, fun _ => rfl, trivial, ⟨sampleBlock_checked, fun _ _ => rfl, ?_⟩,
      trivial, ?_, trivial, trivial⟩
    · intro f hf
      obtain rfl := Option.some.inj hf
      decide +kernel
    · rw [LayerOp.Sound]
      decide +kernel
  obtain ⟨houtcomes,hagree,-,-⟩ := layers_transparent sampleConsensus (fun _ => true) sampleDB
    sampleDB_swept sampleOps hsound
  exact ⟨houtcomes, hagree⟩

/-- A coinbase of version -1, whose hash is 0. -/
def negativeBlock : CBlock :=
  ⟨⟨2, 0x2222, 0, 1400000000, 0x07000000, 0, 2⟩, [{ sampleCoinbase with nVersion := -1 }]⟩

def connectNegative : LayerOp :=
  .connect sampleIO sampleMap negativeBlock (negativeBlock.getHash sampleExternals)
    (sampleIndex (negativeBlock.getHash sampleExternals) 100 (some 0x2222)) false

/-- A block without transactions, which `CheckBlock` refuses. -/
def connectRefused : LayerOp :=
  .connect sampleIO sampleMap ⟨sampleBlock.toCBlockHeader, []⟩ (sampleBlock.getHash sampleExternals)
    (sampleIndex (sampleBlock.getHash sampleExternals) 101 (some 0x2222)) false

/-- The layer of the refused block is flushed, though it never asked for its best block. -/
def refusedOps : List LayerOp :=
  [.stack, connectSample, .stack, connectRefused, .flush, .drop,
    disconnectSample sampleConnect.blockundo]

/-- The undo record of the sample block with every height read as 0. -/
def corruptUndo : Option CBlockUndo :=
  sampleConnect.blockundo.map fun undo => ⟨undo.vtxundo.map fun txundo =>
    ⟨txundo.vprevout.map fun input => { input with nHeight := 0 }⟩⟩

/-- The sample block is connected again after the corrupt record took it back. -/
def corruptOps : List LayerOp :=
  [.stack, connectSample, .flush, .drop, .stack, disconnectSample corruptUndo, connectSample]

def Outcome.undoHeights : Outcome → List ℕ
  | .connected none _ _ (some undo) =>
    undo.vtxundo.flatMap fun txundo => txundo.vprevout.map CTxInUndo.nHeight
  | _ => []

/-- Where the layers and the flat map part: at a negative version, which the database cannot hold; at
a best block that a flush takes from the layer below; and at undo data that puts an output back
into an entry that a cache keeps as a pruned one and the database has erased. -/
theorem layers_not_transparent :
    (runFlat [.stack, connectNegative, .flush, .drop]).2.map
        (fun f => (f.coins 0).map CCoins.nVersion) = [some (-1)] ∧
      ((runLayers [.stack, connectNegative, .flush, .drop]).2.coinsOf 0).map CCoins.nVersion =
        some 127 ∧
      (runFlat refusedOps).1.getLast? = some (.disconnected none true) ∧
      (runLayers refusedOps).1.getLast? = some (.disconnected (some .notBestBlock) true) ∧
      (runFlat corruptOps).1.getLast?.map Outcome.undoHeights = some [0, 100, 50] ∧
      (runLayers corruptOps).1.getLast?.map Outcome.undoHeights = some [0, 100, 0] := by
  decide +kernel

end Sample

end Candypool.Coins
