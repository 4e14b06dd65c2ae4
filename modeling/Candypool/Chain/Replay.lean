import Candypool.Chain.Run
import Candypool.Coins.Supply

/-! The coins of a chain, as the specification has them: the blocks from the genesis block on are
replayed in order on an empty map, whose genesis coinbase is not spendable. Undo data on the disk
is right if it takes back the last block of such a replay. -/
namespace Candypool.Chain
open Candypool.Prime Candypool.Core Candypool.Coins Candypool.Lib

/-- What a valid block does to the coins, and its undo data. -/
structure BlockStep (cons : Consensus) (nHeight : ℕ) (block : CBlock) (u u' : Utxo)
    (blockundo : CBlockUndo) : Prop where
  pos : 0 < nHeight
  checked : block.Checked cons.ext
  fresh : ∀ tx ∈ block.vtx, live (u (cons.ext.txHash tx)) = none
  update : updateBlock cons.ext.txHash nHeight u block.vtx = some (u',blockundo)

/-- The part of the node a replay reads. -/
structure ChainFile where
  parent : BlockPtr → Option BlockPtr
  height : BlockPtr → ℕ
  file : BlockPtr → Option CBlock

def NodeState.chainFile {W : Type} (s : NodeState W) : ChainFile :=
  ⟨parentOf s.mapBlockIndex, heightOf s.mapBlockIndex, s.blockFile⟩

/-- Replaying the chain that ends in a block gives these coins. -/
inductive Replays (cons : Consensus) (cf : ChainFile) : BlockPtr → Utxo → Prop
  | genesis : Replays cons cf cons.hashGenesisBlock fun _ => none
  | block {p q : BlockPtr} {block : CBlock} {u u' : Utxo} {blockundo : CBlockUndo}
      (parent : cf.parent p = some q) (rest : Replays cons cf q u)
      (file : cf.file p = some block) (step : BlockStep cons (cf.height p) block u u' blockundo) :
      Replays cons cf p u'

section Update
variable {V W : Type} [CCoinsView V] [CoinStore W] {txHash : CTransaction → Uint256} {nHeight : ℕ}

theorem updateBlock_match {u : W} {w w' : V} {vtx : List CTransaction} {blockundo' : CBlockUndo}
    (hm : Utxo.Match (getCoins u) (getCoins w))
    (h : updateBlock txHash nHeight w vtx = some (w',blockundo')) :
    ∃ u' blockundo, updateBlock txHash nHeight u vtx = some (u',blockundo) ∧
      Utxo.Match (getCoins u') (getCoins w') ∧ BlockUndoMatch blockundo blockundo' := by
  cases vtx with
  | nil =>
    obtain ⟨rfl,rfl⟩ := Prod.mk.inj (Option.some.inj h)
    exact ⟨u, ⟨[]⟩, rfl, hm, List.Forall₂.nil⟩
  | cons tx vtx =>
    obtain ⟨w1,txundo',h1,h2⟩ := updateBlock_cons h
    obtain ⟨u1,txundo,hu1,hm1,-⟩ := updateCoins_match hm h1
    obtain ⟨u',vtxundo,hu2,hm2,hundos⟩ := updateTxs_match hm1 h2
    refine ⟨u', ⟨vtxundo⟩, ?_, hm2, hundos⟩
    simp only [updateBlock, hu1, hu2, Option.bind_eq_bind, Option.bind_some, Option.pure_def]

end Update

section Tidy
variable {V : Type} [CoinStore V] {txHash : CTransaction → Uint256} {nHeight : ℕ}

/-- Undo data without a height has no version either. -/
def Tidy (undo : CTxInUndo) : Prop := undo.nHeight = 0 → undo.nVersion = 0

theorem spendInputs_tidy {view view' : V} {vin : List CTxIn} {undos : List CTxInUndo}
    (hwf : (getCoins view).WF) (h : spendInputs view vin = some (view',undos)) :
    ∀ undo ∈ undos, Tidy undo := by
  induction vin generalizing view undos with
  | nil =>
    obtain ⟨-,rfl⟩ := Prod.mk.inj (Option.some.inj h)
    intro undo hundo
    cases hundo
  | cons txin vin ih =>
    obtain ⟨view1,undo1,undos',h1,h2,rfl⟩ := spendInputs_cons h
    obtain ⟨c,c',hc,hs,-⟩ := spendInput_eq_some h1
    have hpos := (hwf _ _ (live_some_iff.mpr ⟨hc, spend_live hs⟩)).height
    intro undo hundo
    rcases List.mem_cons.mp hundo with rfl | hundo
    · obtain ⟨out,-,-,-,rfl⟩ := spend_eq_some hs
      split_ifs
      · intro hzero
        exact absurd hzero hpos.ne'
      · intro _
        rfl
    · exact ih ((spendInput_keeps h1).1 hwf) h2 undo hundo

theorem updateTxs_tidy {view view' : V} {vtx : List CTransaction} {vtxundo : List CTxUndo}
    (hh : 0 < nHeight) (hchecked : ∀ tx ∈ vtx, tx.Checked) (hwf : (getCoins view).WF)
    (h : updateTxs txHash nHeight view vtx = some (view',vtxundo)) :
    (∀ txundo ∈ vtxundo, ∀ undo ∈ txundo.vprevout, Tidy undo) ∧ (getCoins view').WF := by
  induction vtx generalizing view vtxundo with
  | nil =>
    obtain ⟨rfl,rfl⟩ := Prod.mk.inj (Option.some.inj h)
    refine ⟨fun txundo htx => ?_, hwf⟩
    cases htx
  | cons tx vtx ih =>
    obtain ⟨view1,txundo1,vtxundo',h1,h2,rfl⟩ := updateTxs_cons h
    have hc := hchecked tx List.mem_cons_self
    obtain ⟨htidy,hwf'⟩ := ih (fun tx' hmem => hchecked tx' (List.mem_cons_of_mem _ hmem))
      ((updateCoins_keeps hc hh h1).1 hwf) h2
    refine ⟨fun txundo htx undo hundo => ?_, hwf'⟩
    rcases List.mem_cons.mp htx with rfl | htx
    · obtain ⟨_,hspend,-⟩ := updateCoins_eq_some h1
      rw [markSpent] at hspend
      split_ifs at hspend
      · obtain ⟨-,hnil⟩ := Prod.mk.inj (Option.some.inj hspend)
        rw [← hnil] at hundo
        cases hundo
      · exact spendInputs_tidy hwf hspend undo hundo
    · exact htidy txundo htx undo hundo

theorem storeInput_match {undo undo' : CTxInUndo} (hm : UndoMatch undo undo') (ht : Tidy undo) :
    UndoMatch undo (storeInput undo') := by
  refine ⟨hm.txout, hm.fCoinBase, hm.nHeight, fun hv => ?_⟩
  have hversion := hm.nVersion hv
  change (if 0 < undo'.nHeight then storedVersion undo'.nVersion else 0) = undo.nVersion
  rw [hm.nHeight]
  split_ifs with hpos
  · rw [hversion, storedVersion, if_neg (by omega)]
  · exact (ht (by omega)).symm

/-- Undo data that matches still does after it went through the disk. -/
theorem storeUndo_match {blockundo blockundo' : CBlockUndo}
    (hm : BlockUndoMatch blockundo blockundo')
    (ht : ∀ txundo ∈ blockundo.vtxundo, ∀ undo ∈ txundo.vprevout, Tidy undo) :
    BlockUndoMatch blockundo (storeUndo blockundo') := by
  rw [BlockUndoMatch, storeUndo, List.forall₂_map_right_iff]
  refine List.forall₂_iff_zip.mpr ⟨hm.length_eq, fun {a b} hab => ?_⟩
  have hab' := (List.forall₂_iff_zip.mp hm).2 hab
  rw [TxUndoMatch, List.forall₂_map_right_iff]
  refine List.forall₂_iff_zip.mpr ⟨hab'.length_eq, fun {x y} hxy => ?_⟩
  exact storeInput_match ((List.forall₂_iff_zip.mp hab').2 hxy)
    (ht a (List.of_mem_zip hab).1 x (List.of_mem_zip hxy).1)

end Tidy

section Spec
variable {cons : Consensus} {cf : ChainFile} {nHeight : ℕ} {block : CBlock} {u u' : Utxo}
  {blockundo : CBlockUndo}

theorem BlockStep.keeps (h : BlockStep cons nHeight block u u' blockundo) (hwf : u.WF) :
    u'.WF ∧ ∀ txundo ∈ blockundo.vtxundo, ∀ undo ∈ txundo.vprevout, Tidy undo := by
  obtain ⟨coinbase,vtx,hvtx,-,-⟩ := h.checked.coinbase
  have hupdate := h.update
  have hchecked := h.checked.checked
  rw [hvtx] at hupdate hchecked
  obtain ⟨u1,txundo,h1,h2⟩ := updateBlock_cons hupdate
  have hwf1 := (updateCoins_keeps (hchecked coinbase List.mem_cons_self) h.pos h1).1 hwf
  obtain ⟨htidy,hwf'⟩ := updateTxs_tidy h.pos
    (fun tx hmem => hchecked tx (List.mem_cons_of_mem _ hmem)) hwf1 h2
  exact ⟨hwf', htidy⟩

theorem Replays.wf {p : BlockPtr} (h : Replays cons cf p u) : u.WF := by
  induction h with
  | genesis =>
    intro txid c hc
    cases hc
  | block _ _ _ step ih => exact (step.keeps ih).1

/-- A chain has one replay. -/
theorem Replays.unique (hroot : cf.parent cons.hashGenesisBlock = none) {p : BlockPtr}
    (h : Replays cons cf p u) (h' : Replays cons cf p u') : u = u' := by
  induction h generalizing u' with
  | genesis =>
    cases h' with
    | genesis => rfl
    | block parent _ _ _ =>
      rw [hroot] at parent
      cases parent
  | block parent _ file step ih =>
    cases h' with
    | genesis =>
      rw [hroot] at parent
      cases parent
    | block parent' rest' file' step' =>
      obtain rfl := Option.some.inj (parent.symm.trans parent')
      obtain rfl := Option.some.inj (file.symm.trans file')
      obtain rfl := ih rest'
      exact (Prod.mk.inj (Option.some.inj (step.update.symm.trans step'.update))).1

/-- A replay only reads the blocks of its chain. -/
theorem Replays.mono {cf' : ChainFile} (hparent : ∀ p q, cf.parent p = some q →
      cf'.parent p = some q ∧ cf'.height p = cf.height p)
    (hfile : ∀ p q block, cf.parent p = some q → cf.file p = some block →
      cf'.file p = some block) {p : BlockPtr}
    (h : Replays cons cf p u) : Replays cons cf' p u := by
  induction h with
  | genesis => exact Replays.genesis
  | block parent _ file step ih =>
    obtain ⟨hp,hh⟩ := hparent _ _ parent
    exact Replays.block hp ih (hfile _ _ _ parent file) (hh ▸ step)

end Spec

end Candypool.Chain
