import Candypool.Pool.Work
import Candypool.Chain.AcceptBlock
import Mathlib.Data.Rat.Defs

/-! The share check of the pool: `xptServer_processPacket_submitShareRequest` reads a packet and
`xptCallback_checkWork` decides what it is worth. Share values are the decimals of the source. -/
namespace Candypool.Pool
open Candypool.Prime Candypool.Core Candypool.Coins Candypool.Chain

/-- `xptSubmittedShare_t`, without the sieve data that nothing reads. -/
structure SubmittedShare where
  version : ℕ
  prevBlockHash : Uint256
  merkleRoot : Uint256
  nTime : ℕ
  nBits : BitVec 32
  nonce : ℕ
  chainMultiplier : List UInt8
  share_id : ℕ
  deriving DecidableEq, Repr

/-- The reader of the packet: the bytes that are left, `none` after a read error. -/
abbrev Reader := StateT (List UInt8) Option

/-- `xptPacketbuffer_readData`. -/
def readData (length : ℕ) : Reader (List UInt8) := fun bytes =>
  if length > bytes.length then none else some (bytes.take length, bytes.drop length)

/-- `xptPacketbuffer_readU32` and `readU8`, and the 256-bit numbers. -/
def readNumber (size : ℕ) : Reader ℕ := littleEndian <$> readData size

/-- The fields of a share in the order of the packet. -/
def readSubmittedShare : Reader SubmittedShare := do
  let merkleRoot ← readNumber 32
  let prevBlockHash ← readNumber 32
  let version ← readNumber 4
  let nTime ← readNumber 4
  let nonce ← readNumber 4
  let nBits ← readNumber 4
  let _sieveSize ← readNumber 4
  let _sieveCandidate ← readNumber 4
  let fixedMultiplierSize ← readNumber 1
  let _fixedMultiplier ← readData fixedMultiplierSize
  let chainMultiplierSize ← readNumber 1
  let chainMultiplier ← readData chainMultiplierSize
  let share_id ← readNumber 4
  return ⟨version, BitVec.ofNat 256 prevBlockHash, BitVec.ofNat 256 merkleRoot, nTime,
    BitVec.ofNat 32 nBits, nonce, chainMultiplier, share_id⟩

def getShareValue (iChainLength : ℕ) : ℚ :=
  if iChainLength < 6 then 0
  else if iChainLength = 6 then 3/10000
  else if iChainLength = 7 then 6/10000
  else if iChainLength = 8 then 6/1000
  else if iChainLength = 9 then 38/1000
  else if iChainLength = 10 then 1/10
  else 15/100

/-- A row of the table of shares, as `SaveShare` writes it. -/
structure ShareRow where
  share : CBigNum
  share_length : ℕ
  share_value : ℚ
  worker_id : ℕ
  user_id : ℕ
  blockheight : ℕ
  deriving DecidableEq, Repr

/-- What one call of `xptCallback_checkWork` takes from outside: the tip when a block was found,
and the outcomes of `ProcessBlock` and `SaveBlock`. -/
structure CheckIO where
  hashBestChain : Uint256
  processBlock : Bool
  saveBlock : Bool

/-- What a call leaves. `saved` is the row handed to `SaveShare`, with the chain length and the
verdict on the block; `submitted` is the block handed to `ProcessBlock`. -/
structure CheckResult where
  ok : Bool
  shareValue : ℚ
  errorText : String
  client : WorkClient
  saved : Option (ShareRow × BitVec 32 × Bool)
  submitted : Option CBlock

/-- The version field of a header is signed. -/
def headerVersion (version : ℕ) : ℤ := (BitVec.ofNat 32 version).toInt

/-- `SetBlockHeader`: the fields the client has sent; the two hashes stay. -/
def setBlockHeader (share : SubmittedShare) (block : CBlock) : CBlock :=
  { block with
    nVersion := headerVersion share.version
    nTime := share.nTime
    nBits := share.nBits
    nNonce := share.nonce
    bnPrimeChainMultiplier := setvch share.chainMultiplier }

/-- The first workload with the merkle root of the share, and the list with its header set. -/
def findWork (share : SubmittedShare) : List CBlock → Option (CBlock × List CBlock)
  | [] => none
  | block :: blocks =>
    if block.hashMerkleRoot = share.merkleRoot then
      some (block, setBlockHeader share block :: blocks)
    else (findWork share blocks).map fun found => (found.1, block :: found.2)

section Check
variable (p : PoolParams)

/-- `CheckPrimeProofOfWork` on the header of a block: the length of the chain it accepts. -/
def provenLength (block : CBlock) (nBits : BitVec 32) (bSkipTargetCheck : Bool) :
    Option (BitVec 32) :=
  match checkPrimeProofOfWork p.target (2^24) (p.headerHash block.toCBlockHeader) nBits
      block.bnPrimeChainMultiplier bSkipTargetCheck with
  | some (.ok (_,nChainLength)) => some nChainLength
  | _ => none

/-- The part after the share was saved, for a block that meets its own target. -/
def submitBlock (io : CheckIO) (client : WorkClient) (block : CBlock) :
    Bool × String × Option CBlock :=
  if block.hashPrevBlock ≠ io.hashBestChain then
    (false, "PrimecoinMiner : generated block is stale", none)
  else if !client.currentKey then (false, "", none)
  else if !io.processBlock then (false, "ProcessBlock, block not accepted", some block)
  else (io.saveBlock, "", some block)

def checkWork (io : CheckIO) (tip : NodeTip) (server : XptServer) (client : WorkClient)
    (share : SubmittedShare) : CheckResult :=
  if share.nBits < poolDifficult then
    ⟨false, 0, "Submitted share was to low in difficult.", client, none, none⟩
  else match findWork share client.arrCurrentBlocks with
    | none => ⟨false, 0, "No matching workload found. Share went stale.", client, none, none⟩
    | some (stored,blocks) =>
      if tip.hash ≠ stored.hashPrevBlock then
        ⟨false, 0, "Submitted share went stale.", client, none, none⟩
      else
        -- the header is overwritten before the proof of work is looked at
        let block := setBlockHeader share stored
        let client := { client with arrCurrentBlocks := blocks }
        if p.headerHash block.toCBlockHeader < hashBlockHeaderLimit then
          ⟨false, 0, "Submitted share is invalid.", client, none, none⟩
        else match provenLength p block poolDifficult true with
          | none => ⟨false, 0, "Submitted share is invalid.", client, none, none⟩
          | some chainLength =>
            let shareDifficultyMajor := (chainLength >>> 24).toNat
            let bFoundNewBlock := (provenLength p block block.nBits false).isSome
            let shareValue := if bFoundNewBlock then getShareValue 99
              else getShareValue shareDifficultyMajor
            let row : ShareRow := ⟨block.bnPrimeChainMultiplier, shareDifficultyMajor, shareValue,
              client.workerId, client.userId, server.coinTypeBlockHeight⟩
            let saved := some (row, chainLength, bFoundNewBlock)
            if !bFoundNewBlock then ⟨true, shareValue, "", client, saved, none⟩
            else
              let (ok,errorText,submitted) := submitBlock io client block
              ⟨ok, shareValue, errorText, client, saved, submitted⟩

/-- The check returns on every header and multiplier. -/
theorem checkPrimeProofOfWork_returns (params : TargetParams) (hash : Uint256) (nBits : BitVec 32)
    (mult : CBigNum) (bSkipTargetCheck : Bool) :
    ∃ result, checkPrimeProofOfWork params (2^24) hash nBits mult bSkipTargetCheck =
      some result := by
  rw [checkPrimeProofOfWork]
  split_ifs with htarget hhash hsmall hbig
  · exact ⟨_, rfl⟩
  · exact ⟨_, rfl⟩
  · exact ⟨_, rfl⟩
  · exact ⟨_, rfl⟩
  generalize (hash.toNat : ℤ)*mult = origin at hsmall hbig
  have hmin : 2^255 ≤ origin := not_lt.mp hsmall
  have hmax : origin ≤ 2^2000-1 := not_lt.mp hbig
  obtain ⟨found,lens,hlens⟩ := probablePrimeChainTest_returns origin (by omega) hmax nBits false
  obtain ⟨found',lens',hlens'⟩ := probablePrimeChainTest_returns origin (by omega) hmax nBits true
  have hhalf : bnDiv origin 2 = origin/2 := Int.tdiv_eq_ediv_of_nonneg (by omega)
  obtain ⟨found2,lens2,hlens2⟩ := probablePrimeChainTest_returns (origin/2) (by omega) (by omega)
    nBits false
  have hnormal : ∃ b, certificateNormalized (2^24) mult origin nBits (longestChain lens).2 =
      some b := by
    rw [certificateNormalized, hhalf, hlens2]
    split_ifs
    · exact ⟨_, rfl⟩
    · exact ⟨_, rfl⟩
  obtain ⟨b,hb⟩ := hnormal
  rw [checkPrimeChain, hlens]
  simp only [Option.bind_eq_bind, Option.bind_some, Option.pure_def, hlens', hb]
  split_ifs <;> exact ⟨_, rfl⟩

/-- What a share has to pass before it is saved. -/
structure ValidShare (tip : NodeTip) (client : WorkClient) (share : SubmittedShare)
    (stored : CBlock) (blocks : List CBlock) (chainLength : BitVec 32) : Prop where
  difficult : ¬share.nBits < poolDifficult
  found : findWork share client.arrCurrentBlocks = some (stored, blocks)
  fresh : tip.hash = stored.hashPrevBlock
  limit : ¬p.headerHash (setBlockHeader share stored).toCBlockHeader < hashBlockHeaderLimit
  proven : provenLength p (setBlockHeader share stored) poolDifficult true = some chainLength

/-- The verdict on the block, and the row for a valid share. -/
def foundNewBlock (share : SubmittedShare) (stored : CBlock) : Bool :=
  (provenLength p (setBlockHeader share stored) share.nBits false).isSome

def shareRow (server : XptServer) (client : WorkClient) (share : SubmittedShare) (stored : CBlock)
    (chainLength : BitVec 32) : ShareRow :=
  ⟨setvch share.chainMultiplier, (chainLength >>> 24).toNat,
    if foundNewBlock p share stored then getShareValue 99
    else getShareValue (chainLength >>> 24).toNat,
    client.workerId, client.userId, server.coinTypeBlockHeight⟩

variable {p}

theorem checkWork_of_valid (io : CheckIO) {tip : NodeTip} (server : XptServer)
    {client : WorkClient} {share : SubmittedShare} {stored : CBlock} {blocks : List CBlock}
    {chainLength : BitVec 32} (h : ValidShare p tip client share stored blocks chainLength) :
    (checkWork p io tip server client share).saved = some (shareRow p server client share stored
      chainLength, chainLength, foundNewBlock p share stored) ∧
    (checkWork p io tip server client share).client = { client with arrCurrentBlocks := blocks } := by
  have hfound : (provenLength p (setBlockHeader share stored)
    (setBlockHeader share stored).nBits false).isSome = foundNewBlock p share stored := rfl
  rw [checkWork, if_neg h.difficult, h.found]
  dsimp only
  rw [if_neg (not_not.mpr h.fresh), if_neg h.limit, h.proven, shareRow, hfound]
  generalize foundNewBlock p share stored = b
  cases b <;> exact ⟨rfl, rfl⟩

/-- A share is saved if and only if it is valid. -/
theorem checkWork_saved {io : CheckIO} {tip : NodeTip} {server : XptServer} {client : WorkClient}
    {share : SubmittedShare} {row : ShareRow} {chainLength : BitVec 32} {found : Bool} :
    (checkWork p io tip server client share).saved = some (row, chainLength, found) ↔
      ∃ stored blocks, ValidShare p tip client share stored blocks chainLength ∧
        row = shareRow p server client share stored chainLength ∧
        found = foundNewBlock p share stored := by
  constructor
  · intro h
    -- every early return leaves no row
    obtain ⟨stored,blocks,len,hvalid⟩ : ∃ stored blocks len,
        ValidShare p tip client share stored blocks len := by
      rw [checkWork] at h
      by_cases hbits : share.nBits < poolDifficult
      · rw [if_pos hbits] at h
        cases h
      rw [if_neg hbits] at h
      cases hwork : findWork share client.arrCurrentBlocks with
      | none =>
        rw [hwork] at h
        cases h
      | some work =>
        obtain ⟨stored,blocks⟩ := work
        rw [hwork] at h
        dsimp only at h
        by_cases htip : tip.hash ≠ stored.hashPrevBlock
        · rw [if_pos htip] at h
          cases h
        rw [if_neg htip] at h
        by_cases hlimit :
            p.headerHash (setBlockHeader share stored).toCBlockHeader < hashBlockHeaderLimit
        · rw [if_pos hlimit] at h
          cases h
        rw [if_neg hlimit] at h
        cases hproven : provenLength p (setBlockHeader share stored) poolDifficult true with
        | none =>
          rw [hproven] at h
          cases h
        | some len =>
          exact ⟨stored, blocks, len, hbits, hwork, not_not.mp htip, hlimit, hproven⟩
    rw [(checkWork_of_valid io server hvalid).1] at h
    obtain ⟨rfl,hrest⟩ := Prod.mk.inj (Option.some.inj h)
    obtain ⟨rfl,rfl⟩ := Prod.mk.inj hrest
    exact ⟨stored, blocks, hvalid, rfl, rfl⟩
  · rintro ⟨stored,blocks,hvalid,rfl,rfl⟩
    exact (checkWork_of_valid io server hvalid).1

/-- The length of an accepted chain does not depend on the target it was checked against, and is
at least that target. -/
theorem provenLength_eq {block : CBlock} {nBits nBits' : BitVec 32} {skip skip' : Bool}
    {chainLength chainLength' : BitVec 32} (h : provenLength p block nBits skip = some chainLength)
    (h' : provenLength p block nBits' skip' = some chainLength') :
    chainLength = chainLength' ∧ nBits ≤ chainLength := by
  have hok : ∀ nBits skip chainLength, provenLength p block nBits skip = some chainLength →
      ∃ nChainType, checkPrimeProofOfWork p.target (2^24) (p.headerHash block.toCBlockHeader) nBits
        block.bnPrimeChainMultiplier skip = some (.ok (nChainType,chainLength)) := by
    intro nBits skip chainLength h
    rw [provenLength] at h
    split at h
    · rename_i nChainType len hcheck
      rw [← Option.some.inj h]
      exact ⟨nChainType, hcheck⟩
    · cases h
  obtain ⟨nChainType,hcheck⟩ := hok nBits skip chainLength h
  obtain ⟨nChainType',hcheck'⟩ := hok nBits' skip' chainLength' h'
  obtain ⟨-,-,-,hle,-⟩ := checkPrimeProofOfWork_sound _ _ _ _ _ _ _ _ hcheck
  refine ⟨?_, hle⟩
  -- both runs of the chain test compute the same lengths
  have hlens : ∀ nBits skip result, checkPrimeProofOfWork p.target (2^24)
      (p.headerHash block.toCBlockHeader) nBits block.bnPrimeChainMultiplier skip =
        some (.ok result) → ∃ lens, (probablePrimeChainTest (2^24)
          ((p.headerHash block.toCBlockHeader).toNat*block.bnPrimeChainMultiplier) nBits
          false).map Prod.snd = some lens ∧ result = longestChain lens := by
    intro nBits skip result hcheck
    rw [checkPrimeProofOfWork] at hcheck
    split_ifs at hcheck
    · cases hcheck
    · cases hcheck
    · cases hcheck
    · cases hcheck
    obtain ⟨lens,hlens,hbest⟩ := checkPrimeChain_ok hcheck
    exact ⟨lens, by rw [hlens]; rfl, hbest⟩
  obtain ⟨lens,hrun,hbest⟩ := hlens nBits skip _ hcheck
  obtain ⟨lens',hrun',hbest'⟩ := hlens nBits' skip' _ hcheck'
  have hindep : ∀ origin, (probablePrimeChainTest (2^24) origin nBits false).map Prod.snd =
      (probablePrimeChainTest (2^24) origin nBits' false).map Prod.snd := by
    intro origin
    rw [probablePrimeChainTest, probablePrimeChainTest]
    cases probableCunninghamChainTest (2^24) (origin-1) true false with
    | none => rfl
    | some r1 =>
      cases probableCunninghamChainTest (2^24) (origin+1) false false with
      | none => rfl
      | some r2 => rfl
  rw [hindep, hrun'] at hrun
  obtain rfl := Option.some.inj hrun
  exact congrArg Prod.snd (hbest.trans hbest'.symm)

/-- The packets that earn the block bonus. -/
def EarnsBonus (p : PoolParams) (tip : NodeTip) (client : WorkClient) (share : SubmittedShare) :
    Prop :=
  ∃ stored blocks chainLength, ValidShare p tip client share stored blocks chainLength ∧
    foundNewBlock p share stored = true

/-- The bonus goes to real candidates: a chain as long as the target that the node asks for after
the tip, in a block that `AcceptBlock` does not refuse for its target. -/
def PaysRealCandidate {W : Type} (p : PoolParams) (cons : Consensus) (net : NetParams)
    (acceptIo : AcceptBlockIO) (s : NodeState W) (issued : BitVec 32) (io : CheckIO) (tip : NodeTip)
    (server : XptServer) (client : WorkClient) (share : SubmittedShare) : Prop :=
  ∀ row chainLength, (checkWork p io tip server client share).saved = some (row, chainLength, true) →
    issued ≤ chainLength ∧ ∀ stored blocks,
      findWork share client.arrCurrentBlocks = some (stored, blocks) →
      contextualCheck cons net acceptIo s (setBlockHeader share stored) tip.hash ≠
        some .incorrectProofOfWork

/-- `AcceptBlock` refuses a block for its target exactly if it differs from what the tip asks. -/
theorem contextualCheck_target {W : Type} {cons : Consensus} {net : NetParams} {io : AcceptBlockIO}
    {s : NodeState W} {block : CBlock} {pindexPrev : BlockPtr} {nBits : BitVec 32}
    (h : getNextWorkRequired cons.target s.mapBlockIndex (some pindexPrev) = some nBits) :
    contextualCheck cons net io s block pindexPrev = some .incorrectProofOfWork ↔
      block.nBits ≠ nBits := by
  rw [contextualCheck, h]
  dsimp only
  constructor
  · intro hcheck
    by_contra heq
    rw [if_neg (not_not.mpr heq)] at hcheck
    split_ifs at hcheck <;> cases hcheck
  · intro hne
    rw [if_pos hne]

/-- The pool pays the bonus for real candidates exactly when the client has sent the target the
node asks for, or the packet earns no bonus. -/
theorem bonus_for_candidates_iff {W : Type} (p : PoolParams) (cons : Consensus) (net : NetParams)
    (acceptIo : AcceptBlockIO) (s : NodeState W) (issued : BitVec 32) (io : CheckIO) (tip : NodeTip)
    (server : XptServer) (client : WorkClient) (share : SubmittedShare)
    (hissued : getNextWorkRequired cons.target s.mapBlockIndex (some tip.hash) = some issued) :
    PaysRealCandidate p cons net acceptIo s issued io tip server client share ↔
      share.nBits = issued ∨ ¬EarnsBonus p tip client share := by
  constructor
  · intro hpays
    by_cases hbonus : EarnsBonus p tip client share
    · obtain ⟨stored,blocks,chainLength,hvalid,hfound⟩ := hbonus
      have hsaved := (checkWork_of_valid io server hvalid).1
      rw [hfound] at hsaved
      obtain ⟨-,haccept⟩ := hpays _ _ hsaved
      have htarget := haccept stored blocks hvalid.found
      rw [Ne, contextualCheck_target hissued, not_not] at htarget
      exact Or.inl htarget
    · exact Or.inr hbonus
  · intro hcond row chainLength hsaved
    obtain ⟨stored,blocks,hvalid,-,hfound⟩ := checkWork_saved.mp hsaved
    rcases hcond with hbits | hno
    · obtain ⟨chainLength',hproven⟩ := Option.isSome_iff_exists.mp hfound.symm
      obtain ⟨rfl,hle⟩ := provenLength_eq hproven hvalid.proven
      refine ⟨hbits ▸ hle, fun stored' blocks' _ => ?_⟩
      rw [Ne, contextualCheck_target hissued, not_not]
      exact hbits
    · exact absurd ⟨stored, blocks, chainLength, hvalid, hfound.symm⟩ hno

end Check

section MainNet

/-- The key that the workloads below pay to. -/
def poolPubkey : List UInt8 :=
  [0x02, 0x79, 0xbe, 0x66, 0x7e, 0xf9, 0xdc, 0xbb, 0xac, 0x55, 0xa0, 0x62, 0x95, 0xce, 0x87,
   0x0b, 0x07, 0x02, 0x9b, 0xfc, 0xdb, 0x2d, 0xce, 0x28, 0xd9, 0x59, 0xf2, 0x81, 0x5b, 0x16,
   0xf8, 0x17, 0x98]

/-- `COINBASE_FLAGS`: the push of the text `/P2SH/`. -/
def p2shFlags : CScript := [0x06, 0x2f, 0x50, 0x32, 0x53, 0x48, 0x2f]

/-- A coinbase that pays to the key. -/
def workCoinbase (scriptSig : CScript) (nValue : ℤ) : CTransaction :=
  ⟨1, [⟨⟨0, 2^32-1⟩, scriptSig, 2^32-1⟩], [⟨nValue, [0x21] ++ poolPubkey ++ [0xac]⟩], 0⟩

/-- The last checkpoint of the main network. -/
def mainTip : NodeTip :=
  ⟨0xa2bd26fbebcfa02f4e291806f0214e17c2dfb250c3443bbb1778c0cd532776f4, 85429⟩

/-- What `CreateNewBlock` makes on it. -/
def mainTemplate : CBlock :=
  ⟨⟨2, mainTip.hash, 0, 1374921100, 0x09800000, 0, 0⟩, [workCoinbase [0x00, 0x00] 1106000000]⟩

/-- The workload of the client below. -/
def mainWork : CBlockHeader :=
  ⟨2, mainTip.hash, 0xbab73821113ba3a454099828f0acf9c6c1862d038043870e329b0a5b51239d8b, 1374921100,
    0x09800000, 4242, 0⟩

/-- A solution of that workload with the target of the pool in place of its own. -/
def mainShare : SubmittedShare :=
  ⟨2, mainTip.hash, mainWork.hashMerkleRoot, 1374921130, poolDifficult, 2017438,
    [0xf0, 0xaa, 0xa4, 0xae, 0x02, 0x12, 0x5a, 0x6e, 0x34], 1⟩

/-- SHA-256 at the coinbase and the two headers; the multiplier is not hashed. -/
def mainPool : PoolParams where
  ext := { testExternals with
    txHash := fun tx => if tx = workCoinbase ([0x03, 0xb6, 0x4d, 0x01, 0x02, 0x92, 0x10, 0x00] ++
      p2shFlags) 1106000000 then mainWork.hashMerkleRoot else 0 }
  headerHash := fun header =>
    if { header with bnPrimeChainMultiplier := 0 } = mainWork then
      0xbf863a7328ad9f67815dfb38cb549588e710e8abbd68f75c0ac9772de6cff575
    else if { header with bnPrimeChainMultiplier := 0 } = { mainWork with
        nTime := 1374921130, nBits := poolDifficult, nNonce := 2017438 } then
      0x9a1503b1a3db92c6b20e07156710deac833708aa66cd6bb3ae6737bb5e390003
    else 0
  target := mainNetParams
  pszDedication := []
  coinbaseFlags := p2shFlags

def mainServer : XptServer := ⟨85430, some mainTemplate⟩

/-- The client after it was sent its work. -/
def mainClient : WorkClient :=
  let client : WorkClient := ⟨false, true, 1, 1, 1, [], false⟩
  ((generateWork mainPool ⟨fun _ => some poolPubkey, fun _ => 4242, 1374921110⟩ mainTip mainServer
    client).map Generated.client).getD client

def mainIndex (nHeight nTime : ℕ) (hash pprev : Uint256) : CBlockIndex :=
  ⟨some hash, some pprev, none, nHeight, 0, 0, ⟨blockValidScripts, true, true, false, false⟩, 0,
    nTime, 0x09800000⟩

/-- The end of the block index: the tip came a minute after its parent, so the target stays. -/
def mainState : NodeState Unit :=
  { loadedGenesis sampleConsensus testGenesis () with
    mapBlockIndex := fun ptr =>
      if ptr = mainTip.hash then some (mainIndex 85429 1374921070 mainTip.hash 0x2222)
      else if ptr = 0x2222 then some (mainIndex 85428 1374921010 0x2222 0x2221) else none }

def mainParams : NetParams where
  fTestNet := false
  fCheckpoints := true
  mapCheckpoints := fun nHeight => if nHeight = 85429 then some mainTip.hash else none

/-- A block found by the pool is known to the node and to the database. -/
def mainCheck : CheckIO := ⟨mainTip.hash, true, true⟩

theorem mainState_issued : getNextWorkRequired sampleConsensus.target mainState.mapBlockIndex
    (some mainTip.hash) = some 0x09800000 := by
  decide +kernel

/-- A share that carries the target of its workload is paid as it should be. -/
theorem bonus_for_candidates_mainNet :
    PaysRealCandidate mainPool sampleConsensus mainParams lateAccept mainState 0x09800000 mainCheck
      mainTip mainServer mainClient { mainShare with nBits := 0x09800000 } :=
  (bonus_for_candidates_iff mainPool sampleConsensus mainParams lateAccept mainState 0x09800000
    mainCheck mainTip mainServer mainClient { mainShare with nBits := 0x09800000 }
    mainState_issued).mpr (Or.inl rfl)

/-- A chain of length 7.53 earns the bonus of a block while the node asks for 9.5: the client has
sent the minimum of the pool as the target of the block. -/
theorem bonus_for_short_chain :
    mainClient.arrCurrentBlocks.map CBlock.toCBlockHeader = [mainWork] ∧
      (checkWork mainPool mainCheck mainTip mainServer mainClient mainShare).saved =
        some (⟨967182379727701977840, 7, getShareValue 99, 1, 1, 85430⟩, 0x0787f87a, true) ∧
      ¬ PaysRealCandidate mainPool sampleConsensus mainParams lateAccept mainState 0x09800000
        mainCheck mainTip mainServer mainClient mainShare := by
  have hsaved : (checkWork mainPool mainCheck mainTip mainServer mainClient mainShare).saved =
      some (⟨967182379727701977840, 7, getShareValue 99, 1, 1, 85430⟩, 0x0787f87a, true) := by
    decide +kernel
  refine ⟨by decide +kernel, hsaved, fun hpays => ?_⟩
  exact absurd (hpays _ _ hsaved).1 (by decide)

end MainNet

end Candypool.Pool
