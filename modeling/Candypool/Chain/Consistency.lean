import Candypool.Chain.Ledger

/-! The best block as the rest of the node sees it. In a run whose database writes succeed, the
coins, the tip, the links and the money supply tell of one block after every call; a write that
fails after the coins went to `pcoinsTip` leaves them apart. -/
namespace Candypool.Chain
open Candypool.Prime Candypool.Core Candypool.Coins Candypool.Lib

section Defs
variable {W : Type}

/-- Everything the node keeps about its best block is about `p`. -/
structure Describes (cons : Consensus) (s : NodeState W) (p : BlockPtr) : Prop where
  coins : ∃ u, Replays cons s.chainFile p u ∧ u.Match (getCoins s.pcoinsTip)
  bestBlock : getBestBlock s.pcoinsTip = some p
  pindexBest : s.pindexBest = some p
  hashBestChain : (s.mapBlockIndex p).bind CBlockIndex.phashBlock = some s.hashBestChain
  nBestHeight : s.nBestHeight = heightOf s.mapBlockIndex p
  nBestChainWork : s.nBestChainWork = workOf s.mapBlockIndex p
  next : NextFor s.mapBlockIndex p

/-- The parts of the chain state that a failed reorganisation has to leave alone. -/
structure Untouched (s s' : NodeState W) : Prop where
  coins : getCoins s'.pcoinsTip = getCoins s.pcoinsTip
  bestBlock : getBestBlock s'.pcoinsTip = getBestBlock s.pcoinsTip
  pindexBest : s'.pindexBest = s.pindexBest
  hashBestChain : s'.hashBestChain = s.hashBestChain
  nBestHeight : s'.nBestHeight = s.nBestHeight
  nBestChainWork : s'.nBestChainWork = s.nBestChainWork
  next : ∀ p, nextOf s'.mapBlockIndex p = nextOf s.mapBlockIndex p
  mempool : s'.mempool = s.mempool

/-- No transaction of a block that is new on the main chain is left in the pool. -/
def PoolPurged (cons : Consensus) (s s' : NodeState W) (pindexNew : BlockPtr) : Prop :=
  ∀ p block, Anc (parentOf s.mapBlockIndex) pindexNew p →
    (∀ best, s.pindexBest = some best → ¬ Anc (parentOf s.mapBlockIndex) best p) →
    s.blockFile p = some block → ∀ tx ∈ block.vtx,
      s'.mempool.mapTx.lookup (cons.ext.txHash tx) = none

/-- The money supply of the best block is the value of the coins, and no block of the main chain
has added more than its subsidy to that of its parent, if its coinbase had to pay the base fee. -/
structure SupplyExact (cons : Consensus) (s : NodeState W) : Prop where
  value : ∃ best pindex, s.pindexBest = some best ∧ s.mapBlockIndex best = some pindex ∧
    pindex.nMoneySupply = Utxo.value (getCoins s.pcoinsTip)
  mint : ∀ best p q pindex qindex block, s.pindexBest = some best →
    Anc (parentOf s.mapBlockIndex) best p → parentOf s.mapBlockIndex p = some q →
    s.mapBlockIndex p = some pindex → s.mapBlockIndex q = some qindex →
    s.blockFile p = some block →
    (∀ coinbase ∈ block.vtx.head?, minTxFee ≤ coinbase.getMinFee cons.fees 1 false .block) →
    pindex.nMoneySupply-qindex.nMoneySupply ≤ (targetGetMint cons.target pindex.nBits).2

end Defs

section Steps
variable {W : Type} {cons : Consensus} {s s' : NodeState W} {best : BlockPtr}

theorem SameChain.untouched (h : SameChain s s') : Untouched s s' where
  coins := by rw [h.pcoinsTip]
  bestBlock := by rw [h.pcoinsTip]
  pindexBest := h.pindexBest
  hashBestChain := h.hashBestChain
  nBestHeight := h.nBestHeight
  nBestChainWork := h.nBestChainWork
  next := fun p => congrFun h.next p
  mempool := h.mempool

theorem LedgerAt.describes (h : LedgerAt cons s best) : Describes cons s best where
  coins := h.coins
  bestBlock := h.tip.coins
  pindexBest := h.tip.pindexBest
  hashBestChain := by
    obtain ⟨pindex,hp⟩ := Option.isSome_iff_exists.mp h.tip.mem
    rw [hp, Option.bind_some, h.tip.hash best pindex hp, h.tip.hashBestChain]
  nBestHeight := h.tip.nBestHeight
  nBestChainWork := h.tip.nBestChainWork
  next := h.tip.next

theorem LedgerAt.supplyExact (h : LedgerAt cons s best) : SupplyExact cons s := by
  have hroot : s.chainFile.parent cons.hashGenesisBlock = none := h.tip.tree.root_parent
  constructor
  · obtain ⟨pindex,u,hp,hu,hvalue⟩ := (h.supply best (Anc.refl best)).value
    obtain ⟨u',hu',hm⟩ := h.coins
    obtain rfl := hu.unique hroot hu'
    exact ⟨best, pindex, h.tip.pindexBest, hp, hvalue.trans hm.value_eq⟩
  · intro b p q pindex qindex block hb hp hq hpindex hqindex hfile hfee
    obtain rfl := Option.some.inj (h.tip.pindexBest.symm.trans hb)
    have hanc : Anc (parentOf s.mapBlockIndex) best q :=
      hp.trans (Anc.of_parent hq (Anc.refl q))
    -- the two supplies are the values of the two replays
    obtain ⟨pindex',u',hp',hu',hvalue'⟩ := (h.supply p hp).value
    obtain ⟨qindex',u,hq',hu,hvalue⟩ := (h.supply q hanc).value
    obtain rfl := Option.some.inj (hpindex.symm.trans hp')
    obtain rfl := Option.some.inj (hqindex.symm.trans hq')
    obtain ⟨v,v',pindex1,block1,hv,hv',hp1,hfile1,hmint⟩ := (h.supply p hp).mint q hq
    obtain rfl := Option.some.inj (hpindex.symm.trans hp1)
    obtain rfl := Option.some.inj (hfile.symm.trans hfile1)
    obtain rfl := hv.unique hroot hu
    obtain rfl := hv'.unique hroot hu'
    rw [hvalue', hvalue]
    exact hmint hfee

end Steps

section Runs
variable {W : Type} (cons : Consensus) (sync : WalletSync W) (fuel : ℕ) (genesis : CBlock)
  (wallet : W)

/-- Every state of a run whose database writes succeed has one tip. -/
theorem reaches_tip {s : NodeState W} (h : Reaches cons sync fuel (fun _ op => op.Flushes)
    (loadedGenesis cons genesis wallet) s) : ∃ best, TipAt cons s best :=
  h.invariant (Q := fun s => ∃ best, TipAt cons s best)
    ⟨_, loadedGenesis_tip genesis wallet⟩
    fun _ _ hs hcalled hflush => (Op.exec_tip hcalled hflush hs).1

/-- Every state of such a run without exempted blocks agrees with the replay of its chain. -/
theorem reaches_ledger {s : NodeState W}
    (h : Reaches cons sync fuel (fun s op => op.Flushes ∧ op.NotExempt cons s)
      (loadedGenesis cons genesis wallet) s) : ∃ best, LedgerAt cons s best :=
  h.invariant (Q := fun s => ∃ best, LedgerAt cons s best)
    ⟨_, loadedGenesis_ledger genesis wallet⟩
    fun _ _ hs hcalled hok => (Op.exec_ledger hcalled hok.1 hok.2 hs).1

/-- The coins belong to the best block after every call of a run whose database writes
succeed. -/
theorem coins_at_pindexBest (s : NodeState W) (h : Reaches cons sync fuel
    (fun _ op => op.Flushes) (loadedGenesis cons genesis wallet) s) :
    getBestBlock s.pcoinsTip = s.pindexBest := by
  obtain ⟨best,htip⟩ := reaches_tip cons sync fuel genesis wallet h
  rw [htip.coins, htip.pindexBest]

/-- In a run whose database writes succeed and that brings no exempted block, the money supply is
exact and bounded after every call. -/
theorem money_supply_exact (s : NodeState W) (h : Reaches cons sync fuel
    (fun s op => op.Flushes ∧ op.NotExempt cons s) (loadedGenesis cons genesis wallet) s) :
    SupplyExact cons s := by
  obtain ⟨best,hledger⟩ := reaches_ledger cons sync fuel genesis wallet h
  exact hledger.supplyExact

/-- In a state of such a run, a `SetBestChain` call that cannot read, disconnect or connect a
block leaves the chain state as it was, one that returns true makes all of it describe the new
block, and what `ConnectBestBlock` would do inside does not matter. -/
theorem setBestChain_all_or_nothing (s : NodeState W) (h : Reaches cons sync fuel
      (fun s op => op.Flushes ∧ op.NotExempt cons s) (loadedGenesis cons genesis wallet) s)
    (nested : NodeState W → ChainExit × NodeState W) (io : ChainIO) (pindexNew : BlockPtr)
    (hnew : (s.mapBlockIndex pindexNew).isSome = true) (exit : ChainExit) (s' : NodeState W)
    (hset : setBestChain cons sync nested io pindexNew s = (exit,s')) :
    (exit = .ok ∨ exit.Early ∨ exit = .diskSpace ∨ exit = .flush) ∧
    (exit.Early → Untouched s s') ∧
    (exit = .ok → Describes cons s' pindexNew ∧ PoolPurged cons s s' pindexNew) ∧
    ∀ nested', setBestChain cons sync nested' io pindexNew s = (exit,s') := by
  obtain ⟨best,hledger⟩ := reaches_ledger cons sync fuel genesis wallet h
  have hnested : ∀ nested', setBestChain cons sync nested' io pindexNew s = (exit,s') := by
    intro nested'
    rw [setBestChain_nested hledger.tip hnew, hset]
  have hearly : exit.Early → exit ≠ .ok := by
    rintro (rfl | rfl | ⟨e,rfl⟩) hok <;> cases hok
  rcases setBestChain_ledger hledger hnew hset with
    ⟨rfl,hledger',-,hpurged⟩ | ⟨hexit,hsame,-⟩ | ⟨-,hexit,-⟩
  · refine ⟨Or.inl rfl, fun he => absurd rfl (hearly he), fun _ => ⟨hledger'.describes, ?_⟩,
      hnested⟩
    intro p block hp hoff hfile
    exact hpurged p block hp (hoff best hledger.tip.pindexBest) hfile
  · exact ⟨Or.inr (Or.inl hexit), fun _ => hsame.untouched,
      fun hok => absurd hok (hearly hexit), hnested⟩
  · have hlate : ¬ exit.Early := by
      rcases hexit with rfl | rfl <;> rintro (h | h | ⟨e,h⟩) <;> cases h
    have hfalse : exit ≠ .ok := by
      rcases hexit with rfl | rfl <;> decide
    exact ⟨Or.inr (Or.inr hexit), fun he => absurd he hlate, fun hok => absurd hok hfalse, hnested⟩

end Runs

section Attach
variable {W : Type} {cons : Consensus} {sync : WalletSync W} {s : NodeState W} {block : CBlock}

/-- Chain selection for a new block that goes on top of the best one. -/
theorem addToBlockIndex_attach (io : AddIO) (fuel : ℕ) {p : BlockPtr}
    (hnew : (s.mapBlockIndex (block.getHash cons.ext)).isSome = false)
    (hwrite : io.writeBlockIndex = true)
    (hbest : rbegin (insertIndex cons s block).mapBlockIndex
      (insertIndex cons s block).setBlockIndexValid = some p)
    (hwork : (s.pindexBest.any fun best => best == p ||
      workOf (insertIndex cons s block).mapBlockIndex p ==
        workOf (insertIndex cons s block).mapBlockIndex best) = false)
    (hattach : checkAncestry (insertIndex cons s block).mapBlockIndex s.pindexBest
      (heightOf (insertIndex cons s block).mapBlockIndex p+1) p [] = some (.attach [p])) :
    (addToBlockIndex cons sync io fuel block s).2 =
      (setBestChain cons sync (connectBestBlock cons sync io.chain fuel 1) (io.chain 0 p) p
        (insertIndex cons s block)).2 := by
  have hloop : connectBestBlock cons sync io.chain (fuel+1) 0 (insertIndex cons s block) =
      setBestChain cons sync (connectBestBlock cons sync io.chain fuel 1) (io.chain 0 p) p
        (insertIndex cons s block) := by
    have hsame : (insertIndex cons s block).pindexBest = s.pindexBest := rfl
    rw [connectBestBlock, bestLoop, hbest, hsame]
    dsimp only
    rw [hwork, if_neg Bool.false_ne_true, hattach]
    dsimp only
    rw [attach]
    split
    · rename_i hset
      rw [hset]
      rfl
    · rename_i hset
      exact hset.symm
  rw [addToBlockIndex, hnew, if_neg Bool.false_ne_true, hwrite, Bool.not_true,
    if_neg Bool.false_ne_true, hloop]
  dsimp only
  split_ifs <;> rfl

end Attach

section TestNet

/-- The script of the coinbases below: pay to a key hash. -/
def testScript : CScript :=
  [0x76, 0xa9, 0x14] ++ List.replicate 20 0x11 ++ [0x88, 0xac]

def testCoinbase (scriptSig : CScript) (nValue : ℤ) : CTransaction :=
  ⟨1, [⟨⟨0, 2^32-1⟩, scriptSig, 2^32-1⟩], [⟨nValue, testScript⟩], 0⟩

def testTx0 : CTransaction := testCoinbase [0x51, 0x51] (30*coin)

def testTx0Id : Uint256 := 0x01dd185b8b4a317ec3d68295f4e5417f930d6bc19abd8633f2ea272a26da3250

def testTx2 : CTransaction := testCoinbase [0x52, 0x51] (30*coin)

def testTx2Id : Uint256 := 0x0f420e14cb49833646e620d8c449c6cd6b411e8ab8276cc32310a640c27f15c1

def testTx3 : CTransaction := testCoinbase [0x53, 0x51] (30*coin)

def testTx3Id : Uint256 := 0xb27ed8c9b6fabfb58e95249a762318844df5e8cb428e46d5d64441a2df0f7252

/-- The text in the coinbase of the genesis block. -/
def pszDedication : String :=
  "Sunny King - dedicated to Satoshi Nakamoto and all who have fought for the freedom of mankind"

def genesisTx : CTransaction :=
  ⟨1, [⟨⟨0, 2^32-1⟩, [0x00, 0x02, 0xe7, 0x03, 0x4c, 0x5d] ++
    pszDedication.toList.map (fun c => UInt8.ofNat c.toNat), 2^32-1⟩], [⟨coin, []⟩], 0⟩

def genesisTxId : Uint256 := 0xaca30eb61dffbb9412d0ae743c3d74554f710853daec40ebd2514e830e05c9ff

/-- The genesis block of the test network. -/
def testGenesis : CBlock :=
  ⟨⟨2, 0, genesisTxId, 1373063882, 0x06000000, 1513, 585641*223092870⟩, [genesisTx]⟩

def testGenesisHash : Uint256 := 0x221156cf301bc3585e72de34fe1efdb6fbd703bc27cfc468faa1cdd889d0efa0

/-- A block on top of it. -/
def testBlockA : CBlock :=
  ⟨⟨2, testGenesisHash, testTx0Id, 1400000000, 0x05000000, 149, 32496376722810⟩, [testTx0]⟩

def testHashA : Uint256 := 0x6a55bf2fa589d2e0a04ff10d23425f299325776bd18f892064b6b56a824e3df4

/-- SHA-256 at the transactions and blocks used here. -/
def testExternals : Externals where
  txHash tx := if tx = testTx0 then testTx0Id else if tx = genesisTx then genesisTxId else 0
  blockHash header := if header = testBlockA.toCBlockHeader then testHashA
    else if header = testGenesis.toCBlockHeader then testGenesisHash else 0
  nodeHash a _ := a
  verifyScript _ _ _ _ _ := true

def testNet : Consensus where
  ext := testExternals
  fees := defaultFees
  target := testNetParams
  hashGenesisBlock := testGenesisHash
  nTotalBlocksEstimate := 0
  fScriptCheckThreads := false
  fTxIndex := false

/-- A call at which everything succeeds, but for the disk space it may find. -/
def testChainOutcome (checkDiskSpace : Bool) : ChainIO where
  readBlock _ := true
  readUndo _ := true
  connect _ := ⟨1400000000, true, true, true, true, true⟩
  fFlush := true
  checkDiskSpace := checkDiskSpace
  flush := true
  accept _ := ⟨true, true, false⟩

def testAddOutcome (checkDiskSpace : Bool) : AddIO := ⟨true, true, fun _ _ => testChainOutcome checkDiskSpace⟩

def noWallet : WalletSync Unit := fun w _ _ _ => w

/-- The first block of the test network arrives. -/
def testOp (checkDiskSpace : Bool) : Op := .addToBlockIndex testBlockA (testAddOutcome checkDiskSpace)

def testStart : NodeState Unit := loadedGenesis testNet testGenesis ()

def testState (checkDiskSpace : Bool) : NodeState Unit :=
  ((testOp checkDiskSpace).exec testNet noWallet 0 testStart).2

theorem testOp_called (checkDiskSpace : Bool) : (testOp checkDiskSpace).Called testStart := by
  change (testStart.mapBlockIndex testGenesisHash).isSome = true
  decide

/-- The index before and after the new entry, and the block that is to be connected. -/
theorem testIndex_computed :
    (bip30Exempt (newIndex testNet testStart.mapBlockIndex testBlockA) = false ∧
      testStart.mapBlockIndex (testBlockA.getHash testNet.ext) = none ∧
      (testStart.mapBlockIndex testBlockA.hashPrevBlock).isSome = true) ∧
    ((insertIndex testNet testStart testBlockA).mapBlockIndex testHashA).isSome = true ∧
    rbegin (insertIndex testNet testStart testBlockA).mapBlockIndex
      (insertIndex testNet testStart testBlockA).setBlockIndexValid = some testHashA ∧
    (testStart.pindexBest.any fun best => best == testHashA ||
      workOf (insertIndex testNet testStart testBlockA).mapBlockIndex testHashA ==
        workOf (insertIndex testNet testStart testBlockA).mapBlockIndex best) = false ∧
    checkAncestry (insertIndex testNet testStart testBlockA).mapBlockIndex testStart.pindexBest
      (heightOf (insertIndex testNet testStart testBlockA).mapBlockIndex testHashA+1) testHashA [] =
        some (.attach [testHashA]) := by
  decide +kernel

/-- The call of `SetBestChain` inside the step. -/
def testSet : ChainExit × NodeState Unit :=
  setBestChain testNet noWallet (connectBestBlock testNet noWallet (testAddOutcome false).chain 0 1)
    (testChainOutcome false) testHashA (insertIndex testNet testStart testBlockA)

/-- The best blocks and the supplies with the disk space and without it, and a call of
`SetBestChain` back to the genesis block. -/
theorem testState_computed :
    ((testState true).pindexBest = some testHashA ∧
      ((testState true).mapBlockIndex testGenesisHash).isSome = true ∧
      (setBestChain testNet noWallet (fun s => (.ok, s)) (testChainOutcome true) testGenesisHash
        (testState true)).1 = .ok) ∧
    (getBestBlock (testState false).pcoinsTip = some testHashA ∧
      (testState false).pindexBest = some testGenesisHash) ∧
    testSet.1 = .diskSpace ∧ testSet.2.pindexBest = some testGenesisHash ∧
    (testSet.2.mapBlockIndex testGenesisHash).map CBlockIndex.nMoneySupply = some 0 ∧
    (testSet.2.mapBlockIndex testHashA).map CBlockIndex.nMoneySupply = some (30*coin) := by
  decide +kernel

theorem testOp_ok : (testOp true).Flushes ∧ (testOp true).NotExempt testNet testStart := by
  constructor
  · rintro io ⟨depth,p,rfl⟩
    exact fun _ => ⟨rfl, rfl⟩
  · exact testIndex_computed.1.1

theorem coins_at_pindexBest_testNet : (testState true).pindexBest = some testHashA ∧
    getBestBlock (testState true).pcoinsTip = (testState true).pindexBest := by
  refine ⟨testState_computed.1.1, ?_⟩
  exact coins_at_pindexBest testNet noWallet 0 testGenesis () (testState true)
    (Reaches.step _ Reaches.start (testOp_called true) testOp_ok.1)

/-- The disk is full when the coins are to be written: they belong to the new block, and the best
block is still its parent. -/
theorem failed_flush_splits_tip :
    Reaches testNet noWallet 0 (fun _ _ => True) testStart (testState false) ∧
      getBestBlock (testState false).pcoinsTip = some testHashA ∧
      (testState false).pindexBest = some testGenesisHash := by
  refine ⟨Reaches.step _ Reaches.start (testOp_called false) trivial, ?_⟩
  exact testState_computed.2.1

theorem testState_false : testState false = testSet.2 := by
  obtain ⟨⟨-,hnone,-⟩,-,hbest,hwork,hattach⟩ := testIndex_computed
  have hnew : (testStart.mapBlockIndex (testBlockA.getHash testNet.ext)).isSome = false := by
    rw [hnone, Option.isSome_none]
  exact addToBlockIndex_attach (testAddOutcome false) 0 hnew rfl hbest hwork hattach

/-- In the state after the failed write the supply of the best block is 0, and the coins are worth
the subsidy of the new one. -/
theorem failed_flush_wrong_supply :
    Reaches testNet noWallet 0 (fun _ _ => True) testStart (testState false) ∧
      ¬ SupplyExact testNet (testState false) := by
  refine ⟨Reaches.step _ Reaches.start (testOp_called false) trivial, fun hsupply => ?_⟩
  obtain ⟨⟨hexempt,hnone,hprev⟩,hmem,-⟩ := testIndex_computed
  obtain ⟨-,-,hexit,hgenesis,hzero,hsubsidy⟩ := testState_computed
  have hledger : LedgerAt testNet (insertIndex testNet testStart testBlockA) testGenesisHash :=
    (loadedGenesis_ledger testGenesis ()).insert hnone hprev hexempt
  obtain ⟨best,pindex,hbest,hp,hvalue⟩ := hsupply.value
  rw [testState_false] at hbest hp hvalue
  have hset : setBestChain testNet noWallet (connectBestBlock testNet noWallet
      (testAddOutcome false).chain 0 1) (testChainOutcome false) testHashA
      (insertIndex testNet testStart testBlockA) = (testSet.1, testSet.2) := rfl
  rcases setBestChain_ledger hledger hmem hset with
    ⟨hok,-⟩ | ⟨hearly,-⟩ | ⟨-,-,htorn⟩
  · rw [hexit] at hok
    cases hok
  · rw [hexit] at hearly
    rcases hearly with h | h | ⟨e,h⟩ <;> cases h
  · obtain ⟨pindexA,hA,hvalueA⟩ := htorn.supply
    obtain rfl := Option.some.inj (hgenesis.symm.trans hbest)
    rw [hp, Option.map_some, hvalue] at hzero
    rw [hA, Option.map_some, hvalueA, Option.some.inj hzero] at hsubsidy
    revert hsubsidy
    decide

theorem money_supply_exact_testNet : (testState true).pindexBest = some testHashA ∧
    SupplyExact testNet (testState true) := by
  refine ⟨testState_computed.1.1, ?_⟩
  exact money_supply_exact testNet noWallet 0 testGenesis () (testState true)
    (Reaches.step _ Reaches.start (testOp_called true) testOp_ok)

theorem setBestChain_all_or_nothing_testNet :
    (setBestChain testNet noWallet (fun s => (.ok, s)) (testChainOutcome true) testGenesisHash
      (testState true)).1 = .ok ∧
    Describes testNet (setBestChain testNet noWallet (fun s => (.ok, s)) (testChainOutcome true)
      testGenesisHash (testState true)).2 testGenesisHash := by
  obtain ⟨-,hmem,hok⟩ := testState_computed.1
  obtain ⟨-,-,hdescribes,-⟩ := setBestChain_all_or_nothing testNet noWallet 0 testGenesis ()
    (testState true) (Reaches.step _ Reaches.start (testOp_called true) testOp_ok)
    (fun s => (.ok, s)) (testChainOutcome true) testGenesisHash hmem _ _ rfl
  exact ⟨hok, (hdescribes hok).1⟩

/-- After the failed write, `SetBestChain` for the same block finds nothing to connect and returns
true, and no link leads from the genesis block to the new best block. -/
theorem failed_flush_loses_link :
    Reaches testNet noWallet 0 (fun _ _ => True) testStart (testState false) ∧
      (setBestChain testNet noWallet (connectBestBlock testNet noWallet (testAddOutcome true).chain 0 1)
        (testChainOutcome true) testHashA (testState false)).1 = .ok ∧
      parentOf (setBestChain testNet noWallet (connectBestBlock testNet noWallet
        (testAddOutcome true).chain 0 1) (testChainOutcome true) testHashA
        (testState false)).2.mapBlockIndex testHashA = some testGenesisHash ∧
      nextOf (setBestChain testNet noWallet (connectBestBlock testNet noWallet
        (testAddOutcome true).chain 0 1) (testChainOutcome true) testHashA
        (testState false)).2.mapBlockIndex testGenesisHash = none := by
  refine ⟨Reaches.step _ Reaches.start (testOp_called false) trivial, ?_⟩
  decide +kernel

end TestNet

end Candypool.Chain
