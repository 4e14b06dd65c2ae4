import Candypool.Pool.PacketHandlers

/-! Submissions one after the other: the check of a share overwrites the header of a workload, on its
way to an error too, and yet the verdict on a share depends on the work that was issued alone. -/
namespace Candypool.Pool
open Candypool.Prime Candypool.Core

/-- What of a workload `SetBlockHeader` leaves alone. -/
def issuedWork (block : CBlock) : Uint256 × Uint256 × List CTransaction :=
  (block.hashPrevBlock, block.hashMerkleRoot, block.vtx)

/-- Two states of a client that differ in the headers of its workloads only. -/
structure SameWork (client client' : WorkClient) : Prop where
  issued : client'.arrCurrentBlocks.map issuedWork = client.arrCurrentBlocks.map issuedWork
  rest : client' = { client with arrCurrentBlocks := client'.arrCurrentBlocks }

/-- What the miner is told, what is saved, and the block that goes to the node. -/
structure ShareVerdict where
  iShareErrorCode : ℕ
  rejectReasonText : String
  fShareValue : ℚ
  saved : Option (ShareRow × BitVec 32 × Bool)
  submitted : Option CBlock

def CheckResult.verdict (r : CheckResult) : ShareVerdict :=
  ⟨if r.ok then 0 else 1, r.errorText, r.shareValue, r.saved, r.submitted⟩

section Submissions
variable (p : PoolParams) (tip : NodeTip) (server : XptServer)

/-- `xptServer_processPacket_submitShareRequest`; the caller disconnects a client whose packet is
not accepted. -/
def submitShare (client : WorkClient) (io : CheckIO) (cpb : XptPacketbuffer) :
    Option CheckResult × WorkClient :=
  match (processSubmitShareRequest client cpb).1 with
  | none => (none, { client with disconnected := true })
  | some share =>
    let r := checkWork p io tip server client share.submitted
    (some r, r.client)

/-- A history of packets, with the checks that were made. -/
def submitAll (client : WorkClient) : List ( CheckIO × XptPacketbuffer) →
    List (Option CheckResult) × WorkClient
  | [] => ([], client)
  | (io,cpb) :: packets =>
    let (result,client) := submitShare p tip server client io cpb
    let (results,client) := submitAll client packets
    (result :: results, client)

end Submissions

/-- Every packet was answered, and no block went to `ProcessBlock`. -/
def Quiet (results : List (Option CheckResult)) : Prop :=
  ∀ result ∈ results, ∃ r, result = some r ∧ r.submitted = none

section SameWork
variable {p : PoolParams} {tip : NodeTip} {server : XptServer} {client client' : WorkClient}
  {share : SubmittedShare}

theorem SameWork.refl (client : WorkClient) : SameWork client client := ⟨rfl,rfl⟩

theorem SameWork.trans {client'' : WorkClient} (h : SameWork client client')
    (h' : SameWork client' client'') : SameWork client client'' := by
  refine ⟨h'.issued.trans h.issued,?_⟩
  rw [h'.rest, h.rest]

/-- With its header set, a workload is the same whatever its header was. -/
theorem setBlockHeader_issued (share : SubmittedShare) {block block' : CBlock}
    (h : issuedWork block' = issuedWork block) :
    setBlockHeader share block' = setBlockHeader share block := by
  obtain ⟨hprev,hrest⟩ := Prod.mk.inj h
  obtain ⟨hroot,hvtx⟩ := Prod.mk.inj hrest
  rw [setBlockHeader, setBlockHeader, hprev, hroot, hvtx]

/-- The search leaves the issued work, and finds in the same place in both lists. -/
theorem findWork_issued {blocks blocks' : List CBlock}
    (h : blocks'.map issuedWork = blocks.map issuedWork) :
    (findWork share blocks = none ∧ findWork share blocks' = none) ∨
    ∃ stored stored' rest rest', findWork share blocks = some (stored,rest) ∧
      findWork share blocks' = some (stored',rest') ∧ issuedWork stored' = issuedWork stored ∧
      rest.map issuedWork = blocks.map issuedWork := by
  induction blocks generalizing blocks' with
  | nil =>
    obtain rfl := List.map_eq_nil_iff.mp h
    exact Or.inl ⟨rfl,rfl⟩
  | cons block blocks ih =>
    obtain ⟨block',blocks',rfl⟩ : ∃ block' rest, blocks' = block' :: rest := by
      cases blocks' with
      | nil => exact absurd h (List.cons_ne_nil _ _).symm
      | cons block' rest => exact ⟨block',rest,rfl⟩
    obtain ⟨hhead,htail⟩ := List.cons.inj h
    have hroot : block'.hashMerkleRoot = block.hashMerkleRoot :=
      (Prod.mk.inj (Prod.mk.inj hhead).2).1
    rw [findWork, findWork, hroot]
    by_cases hfound : block.hashMerkleRoot = share.merkleRoot
    · rw [if_pos hfound, if_pos hfound]
      exact Or.inr ⟨_,_,_,_,rfl,rfl,hhead,rfl⟩
    · rw [if_neg hfound, if_neg hfound]
      rcases ih htail with ⟨hnone,hnone'⟩ | ⟨stored,stored',rest,rest',hsome,hsome',hissued,hrest⟩
      · rw [hnone, hnone']
        exact Or.inl ⟨rfl,rfl⟩
      · rw [hsome, hsome']
        refine Or.inr ⟨stored,stored',block :: rest,_,rfl,rfl,hissued,?_⟩
        rw [List.map_cons, List.map_cons, hrest]

/-- One check: it keeps the issued work, and its verdict depends on nothing else of the client. -/
theorem checkWork_sameWork (io : CheckIO) (h : SameWork client client') (share : SubmittedShare) :
    SameWork client (checkWork p io tip server client share).client ∧
    (checkWork p io tip server client' share).verdict =
      (checkWork p io tip server client share).verdict := by
  rw [h.rest, checkWork, checkWork]
  by_cases hbits : share.nBits < poolDifficult
  · rw [if_pos hbits, if_pos hbits]
    exact ⟨SameWork.refl client,rfl⟩
  rw [if_neg hbits, if_neg hbits]
  dsimp only
  rcases @findWork_issued share _ _ h.issued with
    ⟨hnone,hnone'⟩ | ⟨stored,stored',rest,rest',hsome,hsome',hissued,hrest⟩
  · rw [hnone, hnone']
    exact ⟨SameWork.refl client,rfl⟩
  have hprev : stored'.hashPrevBlock = stored.hashPrevBlock := (Prod.mk.inj hissued).1
  have hkeep : SameWork client { client with arrCurrentBlocks := rest } := ⟨hrest,rfl⟩
  rw [hsome, hsome']
  dsimp only
  rw [hprev, setBlockHeader_issued share hissued]
  generalize setBlockHeader share stored = block
  by_cases hstale : tip.hash ≠ stored.hashPrevBlock
  · rw [if_pos hstale, if_pos hstale]
    exact ⟨SameWork.refl client,rfl⟩
  rw [if_neg hstale, if_neg hstale]
  by_cases hlimit : p.headerHash block.toCBlockHeader < hashBlockHeaderLimit
  · rw [if_pos hlimit, if_pos hlimit]
    exact ⟨hkeep,rfl⟩
  rw [if_neg hlimit, if_neg hlimit]
  cases provenLength p block poolDifficult true with
  | none => exact ⟨hkeep,rfl⟩
  | some chainLength =>
    dsimp only
    cases (provenLength p block block.nBits false).isSome with
    | false => exact ⟨hkeep,rfl⟩
    | true => exact ⟨hkeep,rfl⟩

/-- The handler asks for the login alone before it reads. -/
theorem processSubmitShareRequest_sameWork (h : SameWork client client') (cpb : XptPacketbuffer) :
    processSubmitShareRequest client' cpb = processSubmitShareRequest client cpb := by
  rw [h.rest]
  rfl

/-- One packet that is answered. -/
theorem submitShare_sameWork (h : SameWork client client') (io : CheckIO) (cpb : XptPacketbuffer) :
    (∀ r, (submitShare p tip server client io cpb).1 = some r →
      SameWork client (submitShare p tip server client io cpb).2) ∧
    (submitShare p tip server client' io cpb).1.map CheckResult.verdict =
      (submitShare p tip server client io cpb).1.map CheckResult.verdict := by
  rw [submitShare, submitShare, processSubmitShareRequest_sameWork h]
  cases (processSubmitShareRequest client cpb).1 with
  | none => exact ⟨fun r hr => absurd hr.symm (Option.some_ne_none r),rfl⟩
  | some fields =>
    obtain ⟨hkeep,hverdict⟩ := @checkWork_sameWork p tip server _ _ io h fields.submitted
    exact ⟨fun r _ => hkeep,congrArg some hverdict⟩

/-- A history of packets that are answered. -/
theorem submitAll_sameWork (packets : List ( CheckIO × XptPacketbuffer))
    (hquiet : Quiet (submitAll p tip server client packets).1) :
    SameWork client (submitAll p tip server client packets).2 := by
  induction packets generalizing client with
  | nil => exact SameWork.refl client
  | cons packet packets ih =>
    obtain ⟨io,cpb⟩ := packet
    obtain ⟨r,hr,-⟩ := hquiet _ List.mem_cons_self
    have hfirst := (submitShare_sameWork (SameWork.refl client) io cpb).1 r hr
    exact hfirst.trans (ih fun result hmem => hquiet result (List.mem_cons_of_mem _ hmem))

/-- After any two histories in which every packet is answered and none reaches `ProcessBlock`, the
next packet is answered in the same way. -/
theorem verdict_of_histories (p : PoolParams) (tip : NodeTip) (server : XptServer)
    (client : WorkClient) (history history' : List ( CheckIO × XptPacketbuffer))
    (hquiet : Quiet (submitAll p tip server client history).1)
    (hquiet' : Quiet (submitAll p tip server client history').1) (io : CheckIO)
    (cpb : XptPacketbuffer) :
    (submitShare p tip server (submitAll p tip server client history).2 io cpb).1.map
        CheckResult.verdict =
      (submitShare p tip server (submitAll p tip server client history').2 io cpb).1.map
        CheckResult.verdict := by
  have hsame := submitAll_sameWork history hquiet
  have hsame' := submitAll_sameWork history' hquiet'
  exact ((submitShare_sameWork hsame io cpb).2).trans (submitShare_sameWork hsame' io cpb).2.symm

end SameWork

section MainNet

/-- A share without a fixed multiplier, as a miner sends it. -/
def sharePacket (share : SubmittedShare) : XptPacketbuffer :=
  let payload := serializeUint256 share.merkleRoot ++ serializeUint256 share.prevBlockHash ++
    numberBytes 4 share.version ++ numberBytes 4 share.nTime ++ numberBytes 4 share.nonce ++
    numberBytes 4 share.nBits.toNat ++ numberBytes 4 0 ++ numberBytes 4 0 ++ [0] ++
    [UInt8.ofNat share.chainMultiplier.length] ++ share.chainMultiplier ++
    numberBytes 4 share.share_id
  { buffer := fun i => ([0,0,0,0] ++ payload).getD i 0
    parserIndex := 0, bufferLimit := 4096, bufferSize := payload.length+4 }

/-- A share that is rejected after the header of its workload was overwritten. -/
def spoilingHistory : List ( CheckIO × XptPacketbuffer) :=
  [(mainCheck, sharePacket { mainShare with nTime := 1 })]

theorem verdict_of_histories_mainNet :
    (submitAll mainPool mainTip mainServer mainClient spoilingHistory).2 ≠ mainClient ∧
    (submitShare mainPool mainTip mainServer
      (submitAll mainPool mainTip mainServer mainClient spoilingHistory).2 mainCheck
      (sharePacket mainShare)).1.map CheckResult.verdict =
    (submitShare mainPool mainTip mainServer mainClient mainCheck (sharePacket mainShare)).1.map
      CheckResult.verdict := by
  have hrun : (submitAll mainPool mainTip mainServer mainClient spoilingHistory).1.map
        (Option.map CheckResult.submitted) = [some none] ∧
      (submitAll mainPool mainTip mainServer mainClient spoilingHistory).2 ≠ mainClient := by
    decide +kernel
  refine ⟨hrun.2,?_⟩
  refine verdict_of_histories mainPool mainTip mainServer mainClient spoilingHistory [] ?_ ?_
    mainCheck (sharePacket mainShare)
  · intro result hmem
    have hresult : result.map CheckResult.submitted = some none := by
      have hmap := List.mem_map_of_mem (f := Option.map CheckResult.submitted) hmem
      rw [hrun.1] at hmap
      exact List.mem_singleton.mp hmap
    obtain ⟨r,rfl,hr⟩ := Option.map_eq_some_iff.mp hresult
    exact ⟨r,rfl,hr⟩
  · exact fun result hmem => absurd hmem List.not_mem_nil

end MainNet

end Candypool.Pool
