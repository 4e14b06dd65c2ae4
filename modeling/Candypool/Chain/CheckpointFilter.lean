import Candypool.Chain.OrphanBlock

/-! The filter of `ProcessBlock` against blocks that do not extend the best chain: no block may be older
than the last checkpoint, nor have a target below the least one after it. -/
namespace Candypool.Chain
open Candypool.Prime Candypool.Core Candypool.Coins

section Median

/-- The entry at a place of a sorted list is at least `t` if no more entries than that are below. -/
theorem le_getD_iff_countP {l : List ℤ} (hsorted : l.Pairwise (· ≤ ·)) {k : ℕ} (hk : k < l.length)
    (t : ℤ) : t ≤ l.getD k 0 ↔ l.countP (· < t) ≤ k := by
  induction l generalizing k with
  | nil => exact absurd hk (Nat.not_lt_zero k)
  | cons a l ih =>
    obtain ⟨hhead,htail⟩ := List.pairwise_cons.mp hsorted
    have habove (hle : t ≤ a) : (a :: l).countP (· < t) = 0 := by
      rw [List.countP_eq_zero]
      intro b hb
      rw [decide_eq_true_iff, not_lt]
      rcases List.mem_cons.mp hb with rfl | hb
      · exact hle
      · exact hle.trans (hhead b hb)
    cases k with
    | zero =>
      rw [List.getD_cons_zero]
      constructor
      · intro hle
        exact (habove hle).le
      · intro hcount
        by_contra hlt
        rw [List.countP_cons_of_pos (by simpa using hlt)] at hcount
        omega
    | succ k =>
      have hk' : k < l.length := by simpa using hk
      rw [List.getD_cons_succ]
      by_cases hlt : a < t
      · rw [List.countP_cons_of_pos (by simpa using hlt), ih htail hk']
        omega
      · have hle := not_lt.mp hlt
        have hmem : l.getD k 0 ∈ l := by
          rw [List.getD_eq_getElem?_getD, List.getElem?_eq_getElem hk', Option.getD_some]
          exact List.getElem_mem hk'
        rw [habove hle]
        exact iff_of_true (hle.trans (hhead _ hmem)) (Nat.zero_le _)

/-- A lower bound on the median of the last times, as a number of times. -/
theorem le_getMedianTimePast_iff {m : BlockPtr → Option CBlockIndex} {p : BlockPtr}
    (hp : (m p).isSome = true) (t : ℤ) : t ≤ getMedianTimePast m p ↔
      (timesBack m nMedianTimeSpan (some p)).countP (· < t) ≤
        (timesBack m nMedianTimeSpan (some p)).length/2 := by
  obtain ⟨pindex,hp⟩ := Option.isSome_iff_exists.mp hp
  set times := timesBack m nMedianTimeSpan (some p) with htimes
  have hpos : 0 < times.length := by
    rw [htimes, nMedianTimeSpan, timesBack, hp]
    exact Nat.succ_pos _
  have hperm := List.perm_insertionSort (· ≤ ·) times
  have hlen := hperm.length_eq
  rw [getMedianTimePast, ← htimes, le_getD_iff_countP (List.pairwise_insertionSort (· ≤ ·) times) (by omega), hlen,
    hperm.countP_eq]

theorem timesBack_some {m : BlockPtr → Option CBlockIndex} {p : BlockPtr} {pindex : CBlockIndex}
    (hp : m p = some pindex) (n : ℕ) :
    timesBack m (n+1) (some p) = (pindex.nTime : ℤ) :: timesBack m n pindex.pprev := by
  rw [timesBack, hp]

theorem timesBack_take (m : BlockPtr → Option CBlockIndex) (n : ℕ) (p : Option BlockPtr) :
    timesBack m n p = (timesBack m (n+1) p).take n := by
  induction n generalizing p with
  | zero => rw [timesBack, List.take_zero]
  | succ n ih =>
    cases p with
    | none => rfl
    | some p =>
      cases hp : m p with
      | none => simp only [timesBack, hp, List.take_nil]
      | some pindex => rw [timesBack_some hp, timesBack_some hp, List.take_succ_cons, ← ih]

theorem timesBack_length_le (m : BlockPtr → Option CBlockIndex) (n : ℕ) (p : Option BlockPtr) :
    (timesBack m n p).length ≤ n := by
  induction n generalizing p with
  | zero => exact Nat.le_refl 0
  | succ n ih =>
    cases p with
    | none => exact Nat.zero_le _
    | some p =>
      cases hp : m p with
      | none => simp only [timesBack, hp, List.length_nil, Nat.zero_le]
      | some pindex =>
        rw [timesBack_some hp, List.length_cons]
        exact Nat.succ_le_succ (ih pindex.pprev)

end Median

section Insert
variable {W : Type} {cons : Consensus} {root : BlockPtr} {s : NodeState W} {block : CBlock}

/-- The ancestors of an old entry are not touched by a new block. -/
theorem timesBack_insert (h : Rooted root s.mapBlockIndex)
    (hnew : s.mapBlockIndex (block.getHash cons.ext) = none) (n : ℕ) {p : BlockPtr}
    (hp : (s.mapBlockIndex p).isSome = true) :
    timesBack (insertIndex cons s block).mapBlockIndex n (some p) =
      timesBack s.mapBlockIndex n (some p) := by
  induction n generalizing p with
  | zero => rfl
  | succ n ih =>
    obtain ⟨pindex,hpindex⟩ := Option.isSome_iff_exists.mp hp
    have hsame : (insertIndex cons s block).mapBlockIndex p = some pindex := by
      rw [insertIndex_ne (ne_of_isSome hnew hp), hpindex]
    rw [timesBack_some hpindex, timesBack_some hsame]
    cases hparent : pindex.pprev with
    | none => cases n <;> rfl
    | some q => rw [ih (h.parent p q (by rw [parentOf, hpindex, Option.bind_some, hparent]))]

/-- A block that is later than the median of its predecessors does not lower a bound on it. -/
theorem le_getMedianTimePast_insert (h : Rooted root s.mapBlockIndex)
    (hnew : s.mapBlockIndex (block.getHash cons.ext) = none)
    (hprev : (s.mapBlockIndex block.hashPrevBlock).isSome = true) {t : ℤ}
    (hmedian : t ≤ getMedianTimePast s.mapBlockIndex block.hashPrevBlock)
    (htime : getMedianTimePast s.mapBlockIndex block.hashPrevBlock < block.nTime) :
    t ≤ getMedianTimePast (insertIndex cons s block).mapBlockIndex (block.getHash cons.ext) := by
  set m := s.mapBlockIndex with hm
  have hlow := hmedian.trans htime.le
  rw [le_getMedianTimePast_iff hprev] at hmedian
  rw [le_getMedianTimePast_iff (by rw [insertIndex_self]; rfl)]
  have htimes : timesBack (insertIndex cons s block).mapBlockIndex nMedianTimeSpan
      (some (block.getHash cons.ext)) =
        (block.nTime : ℤ) :: (timesBack m nMedianTimeSpan (some block.hashPrevBlock)).take 98 := by
    have hback := timesBack_insert h hnew 98 hprev
    rw [nMedianTimeSpan, timesBack_some insertIndex_self, (newIndex_of_parent hprev).1, hback,
      ← timesBack_take]
    rfl
  have hbound : (timesBack m nMedianTimeSpan (some block.hashPrevBlock)).length ≤ 99 :=
    timesBack_length_le m nMedianTimeSpan (some block.hashPrevBlock)
  rw [htimes]
  generalize timesBack m nMedianTimeSpan (some block.hashPrevBlock) = times at hmedian hbound ⊢
  -- the new time does not count, and the window keeps its length or grows
  have hcount : (times.take 98).countP (· < t) ≤ times.countP (· < t) :=
    (List.take_sublist 98 times).countP_le
  have hfirst : ¬ (decide ((block.nTime : ℤ) < t)) = true := by
    rw [decide_eq_true_iff, not_lt]
    omega
  have hcons : ((block.nTime : ℤ) :: times.take 98).countP (· < t) = (times.take 98).countP (· < t) :=
    List.countP_cons_of_neg hfirst
  rw [hcons, List.length_cons, List.length_take]
  omega

end Insert

section Chains
variable {W : Type} (cons : Consensus) (net : NetParams) (params : ProcessParams)

/-- The block satisfies the rules of `CheckBlock`, `CheckPrimeProofOfWork` and `AcceptBlock` on top
of `p`. -/
structure FollowsRules (io : AcceptBlockIO) (s : NodeState W) (p : BlockPtr) (block : CBlock) : Prop where
  parent : block.hashPrevBlock = p
  fresh : s.mapBlockIndex (block.getHash cons.ext) = none
  checkBlock : block.checkBlock cons.ext io.nAdjustedTime true = .ok ()
  proofOfWork : ∃ best, checkPrimeProofOfWork cons.target params.powFuel
    (params.headerHash block.toCBlockHeader) block.nBits block.bnPrimeChainMultiplier false =
      some (.ok best)
  contextual : contextualCheck cons net io s block p = none

/-- The index after blocks on top of `c` that each satisfy the rules, and the last of them. -/
inductive Continues (start : NodeState W) (c : BlockPtr) : NodeState W → BlockPtr → Prop
  | start : Continues start c start c
  | block {s : NodeState W} {p : BlockPtr} {io : AcceptBlockIO} {block : CBlock}
      (h : Continues start c s p) (hblock : FollowsRules cons net params io s p block) :
      Continues start c (insertIndex cons s block) (block.getHash cons.ext)

/-- A block off the best chain that the node does not have, and the checks of which pass, reaches the
tests against the last checkpoint. -/
structure ReachesFilter (io : ProcessIO) (node : BlockNode W) (pcheckpoint : CBlockIndex)
    (block : CBlock) : Prop where
  last : (net.getLastCheckpoint params.nHeights node.chain.node.mapBlockIndex).map fixed =
    some (fixed pcheckpoint)
  side : block.hashPrevBlock ≠ node.chain.node.hashBestChain
  unknown : node.chain.node.mapBlockIndex (block.getHash cons.ext) = none
  unknownOrphan : node.orphans.mapOrphanBlocks.lookup (block.getHash cons.ext) = none
  checkBlock : block.checkBlock cons.ext io.nAdjustedTime true = .ok ()

end Chains

section Filter
variable {W : Type} {cons : Consensus} {net : NetParams} {params : ProcessParams} {root c p : BlockPtr}
  {start s : NodeState W} {io : AcceptBlockIO} {block : CBlock}

theorem contextualCheck_time (h : contextualCheck cons net io s block p = none) :
    getMedianTimePast s.mapBlockIndex p < block.nTime := by
  rw [contextualCheck] at h
  split at h
  · cases h
  split at h
  · cases h
  split at h
  · cases h
  · rename_i htime
    exact not_le.mp htime

theorem Continues.rooted (h : Continues cons net params start c s p)
    (hroot : Rooted root start.mapBlockIndex) (hc : (start.mapBlockIndex c).isSome = true) :
    Rooted root s.mapBlockIndex ∧ (s.mapBlockIndex p).isSome = true := by
  induction h with
  | start => exact ⟨hroot, hc⟩
  | @block s p io block _ hblock ih =>
    refine ⟨ih.1.insert (by rw [hblock.parent]; exact ih.2), ?_⟩
    rw [insertIndex_self]
    rfl

/-- A bound on the median time at the checkpoint stays one along every chain. -/
theorem Continues.median (h : Continues cons net params start c s p)
    (hroot : Rooted root start.mapBlockIndex) (hc : (start.mapBlockIndex c).isSome = true) {t : ℤ}
    (hmedian : t ≤ getMedianTimePast start.mapBlockIndex c) :
    t ≤ getMedianTimePast s.mapBlockIndex p := by
  induction h with
  | start => exact hmedian
  | @block s p io block hrest hblock ih =>
    obtain ⟨hrooted,hp⟩ := hrest.rooted hroot hc
    obtain rfl := hblock.parent
    exact le_getMedianTimePast_insert hrooted hblock.fresh hp ih (contextualCheck_time hblock.contextual)

theorem targetSetLength_toNat {nLength : BitVec 32} (hshort : nLength.toNat < 0xff) (nBits : BitVec 32) :
    (targetSetLength nLength nBits).toNat = nLength.toNat*2^24+nBits.toNat % 2^24 := by
  have hlt : ¬ nLength ≥ 0xff := by
    rw [ge_iff_le, BitVec.le_def, not_le]
    exact hshort
  have hmod : nBits.toNat % 2^24 < 2^24 := Nat.mod_lt _ (by decide)
  rw [targetSetLength, if_neg hlt, BitVec.toNat_or, and_targetFractionalMask_toNat,
    BitVec.toNat_shiftLeft, Nat.shiftLeft_eq, nFractionalBits,
    Nat.mod_eq_of_lt (a := nLength.toNat*2^24) (by omega), mul_comm, Nat.or_comm,
    ← Nat.two_pow_add_eq_or_of_lt hmod]

/-- The proof of work says that the target is not below the minimum length. -/
theorem proofOfWork_length {fuel : ℕ} {hashBlockHeader : Uint256} {nBits : BitVec 32} {mult : CBigNum}
    {best : PrimeChainType × BitVec 32}
    (h : checkPrimeProofOfWork cons.target fuel hashBlockHeader nBits mult false = some (.ok best)) :
    cons.target.nTargetMinLength ≤ targetGetLength nBits ∧ targetGetLength nBits ≤ 99 := by
  rw [checkPrimeProofOfWork] at h
  split at h
  · cases h
  · rename_i hlength
    simpa using hlength

/-- The tests against the last checkpoint are all that is left. -/
theorem ReachesFilter.processChecks {pio : ProcessIO} {node : BlockNode W} {pcheckpoint : CBlockIndex}
    (h : ReachesFilter cons net params pio node pcheckpoint block)
    (hblock : FollowsRules cons net params io s p block) :
    processChecks cons net params pio node block = none ↔
      pcheckpoint.nTime ≤ block.nTime ∧
        computeMinWork cons.target pcheckpoint.nBits (block.nTime-pcheckpoint.nTime) ≤ block.nBits := by
  obtain ⟨pindex,hlast,hfixed⟩ := Option.map_eq_some_iff.mp h.last
  have htime : pindex.nTime = pcheckpoint.nTime := (congrArg CBlockIndex.nTime hfixed :)
  have hbits : pindex.nBits = pcheckpoint.nBits := (congrArg CBlockIndex.nBits hfixed :)
  obtain ⟨best,hpow⟩ := hblock.proofOfWork
  rw [Chain.processChecks]
  simp only [h.unknown, h.unknownOrphan, h.checkBlock, hpow, hlast, Option.isSome_none,
    Bool.false_eq_true, if_false, if_pos h.side, htime, hbits]
  split_ifs with hbefore hlittle
  · refine iff_of_false (fun hnone => by cases hnone) fun hcond => ?_
    omega
  · refine iff_of_false (fun hnone => by cases hnone) fun hcond => ?_
    exact BitVec.not_lt.mpr hcond.2 hlittle
  · exact iff_of_true rfl ⟨by omega, BitVec.not_lt.mp hlittle⟩

theorem computeMinWork_le_iff {nBase nBits : BitVec 32} (nTime : ℤ)
    (hlength : cons.target.nTargetMinLength ≤ targetGetLength nBits ∧ targetGetLength nBits ≤ 99) :
    computeMinWork cons.target nBase nTime ≤ nBits ↔
      targetGetLength nBits = cons.target.nTargetMinLength →
        nBase &&& targetFractionalMask ≤ nBits &&& targetFractionalMask := by
  obtain ⟨hmin,hmax⟩ := hlength
  rw [BitVec.le_def, targetGetLength_toNat] at hmin hmax
  have h99 : (99 : BitVec 32).toNat = 99 := rfl
  have hshort : cons.target.nTargetMinLength.toNat < 0xff := by omega
  have heq : targetGetLength nBits = cons.target.nTargetMinLength ↔
      nBits.toNat/2^24 = cons.target.nTargetMinLength.toNat := by
    rw [← BitVec.toNat_inj, targetGetLength_toNat]
  rw [computeMinWork, BitVec.le_def, BitVec.le_def, targetSetLength_toNat hshort, heq,
    and_targetFractionalMask_toNat, and_targetFractionalMask_toNat]
  omega

end Filter

/-- A good block after the checkpoint passes the tests against it exactly if its time is not before the
checkpoint's and, where its target has the minimum length, the fractional part of the target is not below
that of the checkpoint's. No chain fails the first if the checkpoint is at most a second after the
median time there, and none fails the second if the checkpoint's target has no fractional part. -/
theorem checkpoint_filter_iff {W : Type} (cons : Consensus) (net : NetParams) (params : ProcessParams)
    (root c p : BlockPtr) (start s : NodeState W) (pcheckpoint : CBlockIndex)
    (hroot : Rooted root start.mapBlockIndex) (hc : start.mapBlockIndex c = some pcheckpoint)
    (hchain : Continues cons net params start c s p) (io : AcceptBlockIO) (block : CBlock)
    (hblock : FollowsRules cons net params io s p block) :
    (∀ pio (node : BlockNode W), ReachesFilter cons net params pio node pcheckpoint block →
      (processChecks cons net params pio node block = none ↔
        pcheckpoint.nTime ≤ block.nTime ∧
          (targetGetLength block.nBits = cons.target.nTargetMinLength →
            pcheckpoint.nBits &&& targetFractionalMask ≤ block.nBits &&& targetFractionalMask))) ∧
    (pcheckpoint.nTime ≤ getMedianTimePast start.mapBlockIndex c+1 →
      pcheckpoint.nTime ≤ block.nTime) ∧
    (pcheckpoint.nBits &&& targetFractionalMask = 0 →
      pcheckpoint.nBits &&& targetFractionalMask ≤ block.nBits &&& targetFractionalMask) := by
  refine ⟨fun pio node hreach => ?_, fun hmedian => ?_, fun hzero => ?_⟩
  · obtain ⟨best,hpow⟩ := hblock.proofOfWork
    rw [hreach.processChecks hblock, computeMinWork_le_iff _ (proofOfWork_length hpow)]
  · have hc' : (start.mapBlockIndex c).isSome = true := by
      rw [hc]
      rfl
    have hlast := hchain.median hroot hc' (t := (pcheckpoint.nTime : ℤ)-1) (by omega)
    have htime := contextualCheck_time hblock.contextual
    omega
  · rw [hzero, BitVec.le_def]
    exact Nat.zero_le _

section Sample

def testTx4 : CTransaction := testCoinbase [0x54, 0x51] (30*coin)
def testTx4Id : Uint256 := 0x9f22b8c1c748b8bab87435b954167bb4f34b3010b9b6cc5e9bf660197ca6a24e
def testTx5 : CTransaction := testCoinbase [0x55, 0x51] (30*coin)
def testTx5Id : Uint256 := 0x6a5e0749b5a39f57b1add8f28d4dba3665c3e8fb856aea270c103349faee0621
def testTx6 : CTransaction := testCoinbase [0x56, 0x51] (30*coin)
def testTx6Id : Uint256 := 0x1eb37d88a046da5e7646f854f30892e8976904fc240a77b879a46056dac776e2

/-- Four blocks on the third of the test network. The first three each come two and a half years after
their parents, so that the target falls to the minimum length. -/
def slowBlock3 : CBlock :=
  ⟨⟨2, lateHash, testTx3Id, 1477422081, 0x04ff0000, 1, 116733826554284940⟩, [testTx3]⟩
def slowHash3 : Uint256 := 0x56ca28617db99ac2fcd7144a219b651146f837ff12b9389af5c2531139af78e1
def slowBlock4 : CBlock :=
  ⟨⟨2, slowHash3, testTx4Id, 1554541791, 0x03ff0000, 0, 162089177473753530⟩, [testTx4]⟩
def slowHash4 : Uint256 := 0xfa5d5f1edbeeb8955439561f06a91bc5f2b9de8dd82d01c29d769b6f7032c107
def slowBlock5 : CBlock :=
  ⟨⟨2, slowHash4, testTx5Id, 1631661501, 0x02ff0000, 1, 659242331057310⟩, [testTx5]⟩
def slowHash5 : Uint256 := 0x53817d3257c2ecb92d445e788b938d7856d4e1db00124569a98fd0ab7f2dd16c
def slowBlock6 : CBlock :=
  ⟨⟨2, slowHash5, testTx6Id, 1631661561, 0x02000000, 1, 379460447325960⟩, [testTx6]⟩
def slowHash6 : Uint256 := 0x99c7b3007684d23434fc461a7fbab994e74a70c31863e798de49c7fd60259af5

def slowExternals : Externals where
  txHash tx := if tx = testTx4 then testTx4Id else if tx = testTx5 then testTx5Id
    else if tx = testTx6 then testTx6Id else lateExternals.txHash tx
  blockHash header := if header = slowBlock3.toCBlockHeader then slowHash3
    else if header = slowBlock4.toCBlockHeader then slowHash4
    else if header = slowBlock5.toCBlockHeader then slowHash5
    else if header = slowBlock6.toCBlockHeader then slowHash6 else lateExternals.blockHash header
  nodeHash := testExternals.nodeHash
  verifyScript := testExternals.verifyScript

def slowNet : Consensus := { testNet with ext := slowExternals }

/-- The third block is a checkpoint. -/
def slowCheckpoints : NetParams where
  fTestNet := true
  fCheckpoints := true
  mapCheckpoints nHeight := if nHeight = 0 then some testGenesisHash
    else if nHeight = 3 then some slowHash3 else none

def slowParams : ProcessParams where
  headerHash header :=
    if header = slowBlock4.toCBlockHeader then
      0xa4ab7f50cccd72dccf23020ceab082af5b796050c480f375e179d30f4e0bd377
    else if header = slowBlock5.toCBlockHeader then
      0xf96c7f27c8b0ddeab62b7405c61f46db6e090baa967da38b2dadb7bf81ec3bf2
    else if header = slowBlock6.toCBlockHeader then
      0xb90724103228dd3b3c2209bff691fc2dc148895bfef8ca84be34e18f5b54cbb7
    else orphanParams.headerHash header
  nHeights := [3, 0]
  powFuel := 10

def slowAccept : AcceptBlockIO where
  nAdjustedTime := 1631661561
  syncCheckpointRejects := false
  findBlockPos := true
  writeToDisk := true
  add := ⟨true, true, fun _ _ => { testChainOutcome true with
    connect := fun _ => ⟨1631661561, true, true, true, true, true⟩ }⟩

def slowStep (s : NodeState Unit) (block : CBlock) : NodeState Unit :=
  (acceptBlock slowNet slowCheckpoints noWallet slowAccept 1 block s).2

/-- The node whose best block is the checkpoint. -/
def slowStart : NodeState Unit :=
  [testBlockA, lateBlock, slowBlock3].foldl slowStep (loadedGenesis slowNet testGenesis ())

def slowOutcome : ProcessIO where
  nAdjustedTime := 1631661561
  fPeer := true
  accept _ := (slowAccept, ⟨true, true, slowAccept.add.chain⟩)
  send := none

def slowNode : BlockNode Unit where
  chain := ⟨slowStart, testGenesisHash, 0, 0, .null, .null⟩
  orphans := OrphanBlocks.empty

/-- The index with the next blocks in it. -/
def slowIndex (blocks : List CBlock) : NodeState Unit :=
  blocks.foldl (insertIndex slowNet) slowStart

theorem slowStart_rooted : Rooted testGenesisHash slowStart.mapBlockIndex :=
  @AcceptRun.rooted Unit slowNet slowCheckpoints noWallet 1 (fun _ _ => True) testGenesis () slowStart
    (.accept slowBlock3 slowAccept (.accept lateBlock slowAccept
      (.accept testBlockA slowAccept .start rfl trivial) rfl trivial) rfl trivial)

theorem followsRules_of_runs {cons : Consensus} {net : NetParams} {params : ProcessParams}
    {io : AcceptBlockIO} {s : NodeState Unit} {p : BlockPtr} {block : CBlock}
    (hparent : block.hashPrevBlock = p) (hfresh : (s.mapBlockIndex (block.getHash cons.ext)).isNone = true)
    (hcheck : (block.checkBlock cons.ext io.nAdjustedTime true).toBool = true)
    (hpow : (checkPrimeProofOfWork cons.target params.powFuel (params.headerHash block.toCBlockHeader)
      block.nBits block.bnPrimeChainMultiplier false).any Except.toBool = true)
    (hcontextual : contextualCheck cons net io s block p = none) :
    FollowsRules cons net params io s p block := by
  refine ⟨hparent, Option.isNone_iff_eq_none.mp hfresh, ?_, ?_, hcontextual⟩
  · cases hresult : block.checkBlock cons.ext io.nAdjustedTime true with
    | error e =>
      rw [hresult] at hcheck
      cases hcheck
    | ok _ => rfl
  · cases hresult : checkPrimeProofOfWork cons.target params.powFuel
      (params.headerHash block.toCBlockHeader) block.nBits block.bnPrimeChainMultiplier false with
    | none =>
      rw [hresult] at hpow
      cases hpow
    | some result =>
      rw [hresult] at hpow
      cases result with
      | error e => cases hpow
      | ok best => exact ⟨best, rfl⟩

theorem slow_rules :
    FollowsRules slowNet slowCheckpoints slowParams slowAccept slowStart slowHash3 slowBlock4 ∧
    FollowsRules slowNet slowCheckpoints slowParams slowAccept (slowIndex [slowBlock4]) slowHash4
      slowBlock5 ∧
    FollowsRules slowNet slowCheckpoints slowParams slowAccept (slowIndex [slowBlock4, slowBlock5])
      slowHash5 slowBlock6 := by
  refine ⟨followsRules_of_runs rfl ?_ ?_ ?_ ?_, followsRules_of_runs rfl ?_ ?_ ?_ ?_,
    followsRules_of_runs rfl ?_ ?_ ?_ ?_⟩
  all_goals decide +kernel

/-- The chain of the next blocks. -/
theorem slow_chain :
    Continues slowNet slowCheckpoints slowParams slowStart slowHash3 (slowIndex [slowBlock4]) slowHash4 ∧
    Continues slowNet slowCheckpoints slowParams slowStart slowHash3
      (slowIndex [slowBlock4, slowBlock5]) slowHash5 := by
  obtain ⟨hrules4,hrules5,-⟩ := slow_rules
  have hhash4 : slowBlock4.getHash slowNet.ext = slowHash4 := by decide +kernel
  have hhash5 : slowBlock5.getHash slowNet.ext = slowHash5 := by decide +kernel
  have hchain4 := Continues.start.block hrules4
  rw [hhash4] at hchain4
  have hchain5 := hchain4.block hrules5
  rw [hhash5] at hchain5
  exact ⟨hchain4, hchain5⟩

/-- The checkpoint's entry. -/
def slowEntry : CBlockIndex :=
  (slowStart.mapBlockIndex slowHash3).getD (newIndex slowNet slowStart.mapBlockIndex slowBlock3)

theorem slow_reaches :
    ReachesFilter slowNet slowCheckpoints slowParams slowOutcome slowNode slowEntry slowBlock5 ∧
    ReachesFilter slowNet slowCheckpoints slowParams slowOutcome slowNode slowEntry slowBlock6 := by
  refine ⟨⟨?_, ?_, ?_, ?_, rfl⟩, ⟨?_, ?_, ?_, ?_, rfl⟩⟩
  all_goals decide +kernel

/-- A block of the chain with the minimum length, received as an orphan. -/
theorem checkpoint_filter_iff_sample :
    processChecks slowNet slowCheckpoints slowParams slowOutcome slowNode slowBlock5 = none := by
  refine ((checkpoint_filter_iff slowNet slowCheckpoints slowParams testGenesisHash slowHash3 slowHash4
    slowStart _ slowEntry slowStart_rooted (by decide +kernel) slow_chain.1 slowAccept slowBlock5
    slow_rules.2.1).1 slowOutcome slowNode slow_reaches.1).mpr ?_
  decide +kernel

/-- The last block of the chain has the minimum length and no fractional part; as an orphan it is
refused. -/
theorem checkpoint_filter_refuses :
    Continues slowNet slowCheckpoints slowParams slowStart slowHash3
      (slowIndex [slowBlock4, slowBlock5]) slowHash5 ∧
    FollowsRules slowNet slowCheckpoints slowParams slowAccept (slowIndex [slowBlock4, slowBlock5])
      slowHash5 slowBlock6 ∧
    ReachesFilter slowNet slowCheckpoints slowParams slowOutcome slowNode slowEntry slowBlock6 ∧
    processChecks slowNet slowCheckpoints slowParams slowOutcome slowNode slowBlock6 =
      some .tooLittleProofOfWork :=
  ⟨slow_chain.2, slow_rules.2.2, slow_reaches.2, by decide +kernel⟩

end Sample

end Candypool.Chain
