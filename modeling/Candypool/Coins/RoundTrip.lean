import Candypool.Coins.Connect

/-! `DisconnectBlock` takes back `ConnectBlock`. -/
namespace Candypool.Coins
open Candypool.Prime Candypool.Core

section Block
variable {U V W : Type} [CoinStore U] [CCoinsView V] [CCoinsView W] {cons : Consensus}

/-- The loop of a valid block is `UpdateCoins` for its transactions. -/
theorem BlockValid.update {mapBlockIndex : BlockPtr → Option CBlockIndex} {block : CBlock}
    {pindex pprev : CBlockIndex} {view : V} {s : BlockLoop V}
    (h : BlockValid cons mapBlockIndex block pindex view pprev s) :
    updateBlock cons.ext.txHash pindex.nHeight view block.vtx = some (s.view,⟨s.vtxundo⟩) := by
  obtain ⟨coinbase,vtx,hvtx,hcb,hrest⟩ := h.checked.coinbase
  obtain ⟨env,henv,hloop⟩ := h.loop
  rw [hvtx] at hloop
  cases hloop with
  | @cons _ _ _ s1 _ head tail =>
    obtain ⟨txundo,hupdate,hundo⟩ := head.update
    obtain ⟨vtxundo,htxs,hundos⟩ := tail.updateTxs hrest
    rw [henv] at hupdate htxs
    rw [hundo, hcb, if_pos rfl] at hundos
    rw [hvtx, updateBlock]
    change (updateCoins view coinbase pindex.nHeight (cons.ext.txHash coinbase)).bind _ = _
    simp only [show updateCoins view coinbase pindex.nHeight (cons.ext.txHash coinbase) =
      some (s1.view,txundo) from hupdate, htxs, Option.bind_eq_bind, Option.bind_some,
      Option.pure_def, hundos]
    rfl

/-- Taking back the update of a block, in a view `w` that holds the same coins and is at the
block, with undo data that went through the disk. -/
theorem disconnectBlock_updateBlock {block : CBlock} {ptr : BlockPtr} {pindex : CBlockIndex}
    {u u' : U} {w : W} {blockundo blockundo' : CBlockUndo} (hh : 0 < pindex.nHeight)
    (hchecked : block.Checked cons.ext) (hwf : (getCoins u).WF)
    (hfresh : ∀ tx ∈ block.vtx, live (getCoins u (cons.ext.txHash tx)) = none)
    (h : updateBlock cons.ext.txHash pindex.nHeight u block.vtx = some (u',blockundo))
    (hm : Utxo.Match (getCoins u') (getCoins w)) (hundo : BlockUndoMatch blockundo blockundo')
    (hbest : getBestBlock w = some ptr) (hhave : pindex.nStatus.haveUndo = true) :
    ∃ w', disconnectBlock cons block ptr pindex (some blockundo') w = ⟨none, true, w'⟩ ∧
      Utxo.Match (getCoins u) (getCoins w') ∧
      ∀ pprev, pindex.pprev = some pprev → getBestBlock w' = some pprev := by
  obtain ⟨coinbase,vtx,hvtx,hcb,hrest⟩ := hchecked.coinbase
  have hnodup := hchecked.nodup
  rw [CBlock.txHashes, hvtx, List.map_cons, List.nodup_cons] at hnodup
  rw [hvtx] at h hfresh
  have hc : ∀ tx ∈ coinbase :: vtx, tx.Checked := fun tx hmem => hchecked.checked tx (hvtx ▸ hmem)
  obtain ⟨u1,txundo,h1,h2⟩ := updateBlock_cons h
  have hc1 := hc coinbase List.mem_cons_self
  obtain ⟨hwf1,hlive1⟩ := updateCoins_keeps hc1 hh h1
  have hfresh1 : ∀ tx ∈ vtx, live (getCoins u1 (cons.ext.txHash tx)) = none := by
    intro tx hmem
    apply hlive1
    · intro heq
      exact hnodup.1 (heq ▸ List.mem_map_of_mem hmem)
    · exact hfresh tx (List.mem_cons_of_mem _ hmem)
  obtain ⟨herr,hclean,hm1⟩ := disconnectTxs_updateTxs hh (hwf1 hwf)
    (fun tx hmem => hc tx (List.mem_cons_of_mem _ hmem)) hrest hnodup.2 hfresh1 h2 hm hundo
  -- the coinbase goes last; it has no inputs to restore
  obtain ⟨us,hspend,rfl⟩ := updateCoins_eq_some h1
  rw [markSpent, hcb, if_pos rfl] at hspend
  obtain ⟨rfl,-⟩ := Prod.mk.inj (Option.some.inj hspend)
  obtain ⟨hsame,hm2⟩ := removeOutputs_created hc1 (hfresh coinbase List.mem_cons_self) hm1
  have hlen : blockundo'.vtxundo.length+1 = block.vtx.length := by
    rw [hvtx, List.length_cons, ← hundo.length_eq, updateTxs_length h2]
  have hdisc : disconnectBlock cons block ptr pindex (some blockundo') w =
      ⟨none, true, pindex.pprev.elim (removeOutputs cons.ext.txHash pindex.nHeight (disconnectTxs
        cons.ext.txHash pindex.nHeight w vtx blockundo'.vtxundo).view coinbase).2
        (setBestBlock (removeOutputs cons.ext.txHash pindex.nHeight (disconnectTxs
          cons.ext.txHash pindex.nHeight w vtx blockundo'.vtxundo).view coinbase).2)⟩ := by
    rw [disconnectBlock, if_neg (not_not.mpr hbest)]
    simp only [hhave, hlen, ne_eq, not_true_eq_false, if_false, Bool.not_true, Bool.false_eq_true]
    simp only [hvtx, herr, Option.isSome_none, Bool.false_eq_true, if_false, hclean, hsame,
      Bool.and_self]
    cases pindex.pprev <;> rfl
  refine ⟨_, hdisc, ?_, ?_⟩
  · cases pindex.pprev with
    | none => exact hm2
    | some pprev =>
      rw [Option.elim_some, getCoins_setBestBlock]
      exact hm2
  · intro pprev hprev
    rw [hprev]
    exact getBestBlock_setBestBlock _ _

end Block

/-- `DisconnectBlock` undoes `ConnectBlock`: on a view whose entries are unspent, trimmed, above
height 0 and of a version the database can hold, and for an index entry that is not one of the
two exempted from the overwrite rule, the undo record takes the view back, without a corruption
branch. Nothing is assumed about the hashes. -/
theorem disconnectBlock_undoes_connectBlock {V : Type} [CCoinsView V] (cons : Consensus)
    (io : ConnectIO) (mapBlockIndex : BlockPtr → Option CBlockIndex) (block : CBlock)
    (ptr : BlockPtr) (pindex : CBlockIndex) (view : V) (r : ConnectResult V)
    (blockundo : CBlockUndo)
    (hview : ∀ txid c, getCoins view txid = some c →
      c.isPruned = false ∧ c.WF ∧ 0 ≤ c.nVersion)
    (hheight : 0 < pindex.nHeight) (hexempt : bip30Exempt pindex = false)
    (hr : connectBlock cons io mapBlockIndex block ptr pindex view false = r)
    (hok : r.error = none) (hundo : r.blockundo = some blockundo) :
    ∃ view', disconnectBlock cons block ptr r.pindex (some blockundo) r.view =
        ⟨none, true, view'⟩ ∧
      (∀ txid, live (getCoins view' txid) = getCoins view txid) ∧
      getBestBlock view' = pindex.pprev := by
  rcases connectBlock_cases hr with ⟨herr,-⟩ | ⟨-,-,-,rfl⟩ | ⟨pprev,s,hvalid,hrecord⟩
  · exact absurd hok herr
  · cases hundo
  obtain ⟨hbu,hdone,level,haveUndo,hpindex,-⟩ := recordBlock_effect hrecord.symm
  obtain ⟨hview',hhave⟩ := hdone hok
  obtain rfl : blockundo = ⟨s.vtxundo⟩ := Option.some.inj (hundo.symm.trans hbu)
  have hwf : (getCoins view).WF := fun txid c hc => (hview txid c (live_some_iff.mp hc).1).2.1
  have hm : Utxo.Match (getCoins s.view) (getCoins r.view) := by
    rw [hview', getCoins_setBestBlock]
    exact Utxo.Match.refl _
  have hh : 0 < r.pindex.nHeight := by rw [hpindex]; exact hheight
  have hupdate : updateBlock cons.ext.txHash r.pindex.nHeight view block.vtx =
      some (s.view,⟨s.vtxundo⟩) := by
    rw [hpindex]
    exact hvalid.update
  have hbest : getBestBlock r.view = some ptr := by
    rw [hview']
    exact getBestBlock_setBestBlock _ _
  obtain ⟨view',hdisc,hback,hprev⟩ := disconnectBlock_updateBlock hh hvalid.checked hwf
    (hvalid.fresh hexempt) hupdate hm (BlockUndoMatch.refl _) hbest hhave
  refine ⟨view', hdisc, fun txid => ?_, ?_⟩
  · -- the versions in the view are those the match compares
    cases hentry : getCoins view txid with
    | none =>
      exact (hback txid).none_iff.mp (by rw [hentry]; rfl)
    | some c =>
      obtain ⟨hp,-,hv⟩ := hview txid c hentry
      have hlive := live_some_iff.mpr ⟨hentry, hp⟩
      obtain ⟨c',hc',hmatch⟩ := (hback txid).of_live hlive
      obtain rfl := hmatch.eq_of_version hv
      exact live_some_iff.mpr ⟨hc', hp⟩
  · obtain ⟨prevPtr,hp,-⟩ := Option.bind_eq_some_iff.mp hvalid.prev
    rw [hp]
    exact hprev prevPtr (by rw [hpindex]; exact hp)

section Sample

/-- A script that anyone can satisfy: `OP_TRUE`. -/
def opTrue : CScript := [0x51]

def sampleCoinbase : CTransaction :=
  ⟨1, [⟨⟨0, 2^32-1⟩, [0x01, 0x64], 2^32-1⟩], [⟨10*coin, opTrue⟩], 0⟩

def sampleParentId : Uint256 := 0x0de7215a8078a540bdb1c6caaadb8356a3b590fbf52d93751e8cfdf0000d4dcc

/-- Spends the first output of the parent. -/
def sampleTx1 : CTransaction :=
  ⟨1, [⟨⟨sampleParentId, 0⟩, [], 2^32-1⟩], [⟨4*coin, opTrue⟩], 0⟩

def sampleTx1Id : Uint256 := 0x547e916eb04f3a863ea5f3425bd257fcf04ecd6357594ec749b7e89ec37f5e8d

/-- Spends the output of the transaction before it and the last output of the parent. -/
def sampleTx2 : CTransaction :=
  ⟨1, [⟨⟨sampleTx1Id, 0⟩, [], 2^32-1⟩, ⟨⟨sampleParentId, 1⟩, [], 2^32-1⟩], [⟨8*coin, opTrue⟩], 0⟩

def sampleCoinbaseId : Uint256 := 0xa389b0a5970e8c974917491c0cd84798bee86cb9b2ec8f74c9593d8ef1cb73b7

def sampleTx2Id : Uint256 := 0xa92699159f65f4d3ce6548adce2f102926199a53f10bf0163f0127e9b93f9a06

/-- SHA-256 on the transactions and the tree nodes of the sample blocks. -/
def sampleExternals : Externals where
  txHash tx := if tx = sampleCoinbase then sampleCoinbaseId
    else if tx = sampleTx1 then sampleTx1Id
    else if tx = sampleTx2 then sampleTx2Id else 0
  blockHash header :=
    if header.hashMerkleRoot = sampleCoinbaseId then
      0xc741d551246a35d1a6a34c0a95acf3425c4103753a071bc6bb1b2dccd509e6a7
    else 0x573b2671fb775108d37945792b88ad708259a1f6592206877e76ad6090a7371b
  nodeHash a b := if a = sampleCoinbaseId ∧ b = sampleTx1Id then
      0x256d96cfb2049480ed70132af1eba2033f403bc66e643f88175ea4627d57dc31
    else if a = sampleTx2Id ∧ b = sampleTx2Id then
      0x769d1ee615d8b0f933c95cde69710d1dc930e26182513336ec88a829a84872aa
    else 0xdb7da70ef8100ab901e0e0826fd02e37c1ab673859f35afbb8eecc2014405723
  verifyScript _ scriptPubKey _ _ _ := scriptPubKey == opTrue

def sampleConsensus : Consensus where
  ext := sampleExternals
  fees := defaultFees
  target := mainNetParams
  hashGenesisBlock := 0x963d17ba4dc753138078a2f56afb3af9674e2546822badff26837db9a0152106
  nTotalBlocksEstimate := 0
  fScriptCheckThreads := false
  fTxIndex := false

def sampleIO : ConnectIO := ⟨1400000000, true, true, true, true, true⟩

def sampleBlock : CBlock :=
  ⟨⟨2, 0x2222, 0xdb7da70ef8100ab901e0e0826fd02e37c1ab673859f35afbb8eecc2014405723, 1400000000,
    0x07000000, 0, 2⟩, [sampleCoinbase, sampleTx1, sampleTx2]⟩

def sampleIndex (hash : Uint256) (nHeight : ℕ) (pprev : Option BlockPtr) : CBlockIndex :=
  ⟨some hash, pprev, none, nHeight, 0, 0, ⟨blockValidTransactions, true, false, false, false⟩, 0,
    1400000000, 0x07000000⟩

/-- A view at block `0x2222` that holds the two outputs of the parent. -/
def sampleView : CCoinsViewCache :=
  .ofBase (fun txid => if txid = sampleParentId then
    some ⟨false, [⟨5*coin, opTrue⟩, ⟨5*coin, opTrue⟩], 50, 1⟩ else none) (some 0x2222)

def sampleMap : BlockPtr → Option CBlockIndex := fun ptr =>
  if ptr = 0x2222 then some (sampleIndex 0x2222 99 none) else none

def sampleConnect : ConnectResult CCoinsViewCache :=
  connectBlock sampleConsensus sampleIO sampleMap sampleBlock (sampleBlock.getHash sampleExternals)
    (sampleIndex (sampleBlock.getHash sampleExternals) 100 (some 0x2222)) sampleView false

/-- The theorem at a block that spends inside itself and empties a parent. -/
theorem disconnectBlock_undoes_connectBlock_sample :
    sampleConnect.error = none ∧ ∃ blockundo view', sampleConnect.blockundo = some blockundo ∧
      disconnectBlock sampleConsensus sampleBlock (sampleBlock.getHash sampleExternals)
        sampleConnect.pindex (some blockundo) sampleConnect.view = ⟨none, true, view'⟩ ∧
      ∀ txid, live (getCoins view' txid) = getCoins sampleView txid := by
  have hok : sampleConnect.error = none := by decide +kernel
  have hsome : sampleConnect.blockundo.isSome = true := by decide +kernel
  obtain ⟨blockundo,hundo⟩ := Option.isSome_iff_exists.mp hsome
  have hview : ∀ txid c, getCoins sampleView txid = some c →
      c.isPruned = false ∧ c.WF ∧ 0 ≤ c.nVersion := by
    intro txid c hc
    change (if txid = sampleParentId then some _ else none) = some c at hc
    split_ifs at hc
    obtain rfl := Option.some.inj hc
    exact ⟨by decide, ⟨by decide, by decide, by decide⟩, by decide⟩
  obtain ⟨view',hdisc,hback,-⟩ := disconnectBlock_undoes_connectBlock sampleConsensus sampleIO
    sampleMap sampleBlock (sampleBlock.getHash sampleExternals)
    (sampleIndex (sampleBlock.getHash sampleExternals) 100 (some 0x2222)) sampleView sampleConnect
    blockundo hview (by decide) (by decide +kernel) rfl hok hundo
  exact ⟨hok, blockundo, view', hundo, hdisc, hback⟩

/-- A block whose only transaction is the coinbase of an earlier block. -/
def duplicateBlock : CBlock :=
  ⟨⟨2, 0x2222, sampleCoinbaseId, 1400000000, 0x07000000, 0, 2⟩, [sampleCoinbase]⟩

/-- The first of the two index entries the overwrite rule does not apply to. -/
def exemptIndex : CBlockIndex :=
  sampleIndex 0x00000000000a4d0a398161ffc163c503763b1f4360639393e0e4c8e300e0caec 91842 (some 0x2222)

/-- A view that holds the unspent coinbase of height 100. -/
def duplicateView : CCoinsViewCache :=
  .ofBase (fun txid => if txid = sampleCoinbaseId then
    some (CCoins.ofTx sampleCoinbase 100) else none) (some 0x2222)

def duplicateConnect : ConnectResult CCoinsViewCache :=
  connectBlock sampleConsensus sampleIO sampleMap duplicateBlock
    0x00000000000a4d0a398161ffc163c503763b1f4360639393e0e4c8e300e0caec exemptIndex duplicateView
    false

/-- An exempted block overwrites the unspent coinbase, and disconnecting it does not bring the
first one back. -/
theorem exempt_block_not_undone :
    duplicateConnect.error = none ∧ duplicateConnect.blockundo = some ⟨[]⟩ ∧
      getCoins duplicateView sampleCoinbaseId = some (CCoins.ofTx sampleCoinbase 100) ∧
      live (getCoins (disconnectBlock sampleConsensus duplicateBlock
        0x00000000000a4d0a398161ffc163c503763b1f4360639393e0e4c8e300e0caec duplicateConnect.pindex
        (some ⟨[]⟩) duplicateConnect.view).view sampleCoinbaseId) = none := by
  decide +kernel

end Sample

end Candypool.Coins
