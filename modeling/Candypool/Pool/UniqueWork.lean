import Candypool.Pool.Work
import Candypool.Core.MerkleTree

/-! Whether the workloads of a client differ. They share a key and a template, so it comes down to the
extra nonces: drawn from the clock, and counted up while the hash of the header is too small. -/
namespace Candypool.Pool
open Candypool.Prime Candypool.Core Candypool.Lib

/-- A reading of the clock. -/
structure Timespec where
  tv_sec : ℕ
  tv_nsec : ℕ
  nsec_lt : tv_nsec < 1000000000

def Timespec.Before (a b : Timespec) : Prop :=
  a.tv_sec < b.tv_sec ∨ a.tv_sec = b.tv_sec ∧ a.tv_nsec < b.tv_nsec

def arrayExtraNonceModulo : List ℕ := [100000000, 1000000, 10000, 1000]

/-- `rand` is what the call of that name returns. -/
def getRandomNonce (ts : Timespec) (rand : ℕ) : ℕ :=
  ts.tv_nsec % arrayExtraNonceModulo.getD (rand % 4) 1000

/-- What a call takes from outside: the key that stays reserved for the client, and the nonces. -/
def clientWork (reserved : Option (List UInt8)) (clock : ℕ → Timespec) (rand : ℕ → ℕ) (nTime : ℕ) :
    WorkIO :=
  ⟨fun _ => reserved, fun iPayload => getRandomNonce (clock iPayload) (rand iPayload), nTime⟩

section Defs
variable (p : PoolParams) (tip : NodeTip) (pubkey : List UInt8) (template : CBlock)

/-- The copy of the current block with the key of the client in its coinbase. -/
def keyedBlock : CBlock :=
  { template with vtx := setScriptPubKey (pushData pubkey ++ [UInt8.ofNat opCheckSig]) template.vtx }

/-- The block of an extra nonce. -/
def workBlock (nExtraNonce : ℕ) : CBlock :=
  setExtraNonce p tip nExtraNonce (keyedBlock pubkey template)

/-- The header of the block does not meet the minimum. -/
def BelowLimit (nExtraNonce : ℕ) : Prop :=
  p.headerHash (workBlock p tip pubkey template nExtraNonce).toCBlockHeader < hashBlockHeaderLimit

/-- None of the hashes that can come up for a client collide: those of the coinbases, and those of
the nodes of two merkle trees. -/
structure NoCollision : Prop where
  coinbase : ∀ a < 0xffff0000, ∀ b < 0xffff0000,
    (workBlock p tip pubkey template a).vtx.head?.map p.ext.txHash =
      (workBlock p tip pubkey template b).vtx.head?.map p.ext.txHash →
    (workBlock p tip pubkey template a).vtx.head? = (workBlock p tip pubkey template b).vtx.head?
  node : ∀ a < 0xffff0000, ∀ b < 0xffff0000, CollisionFree p.ext.nodeHash
    (merklePairs p.ext.nodeHash ((workBlock p tip pubkey template a).txHashes p.ext) ++
      merklePairs p.ext.nodeHash ((workBlock p tip pubkey template b).txHashes p.ext))

/-- The first transaction has an input and an output, as `CreateNewBlock` makes it. -/
def HasCoinbase : Prop :=
  ∃ nVersion txin vin txout vout nLockTime vtx,
    template.vtx = ⟨nVersion, txin :: vin, txout :: vout, nLockTime⟩ :: vtx

/-- The nonces a workload counts up to from the one it was given. -/
structure Settled (a m : ℕ) : Prop where
  le : a ≤ m
  below : ∀ k, a ≤ k → k < m → BelowLimit p tip pubkey template k
  stop : ¬ BelowLimit p tip pubkey template m ∨ m = a+(4294901760-1)
  lt : a < m → m < 0xffff0000

end Defs

section Nonce

theorem getRandomNonce_lt (ts : Timespec) (rand : ℕ) : getRandomNonce ts rand < 100000000 := by
  rw [getRandomNonce]
  have hrand : rand % 4 = 0 ∨ rand % 4 = 1 ∨ rand % 4 = 2 ∨ rand % 4 = 3 := by omega
  rcases hrand with h | h | h | h <;> rw [h] <;>
    simp only [arrayExtraNonceModulo, List.getD_cons_zero, List.getD_cons_succ] <;> omega

variable {p : PoolParams} {tip : NodeTip} {pubkey : List UInt8} {template : CBlock}

theorem setScriptSig_twice (a b : CScript) (vtx : List CTransaction) :
    setScriptSig b (setScriptSig a vtx) = setScriptSig b vtx := by
  cases vtx with
  | nil => rfl
  | cons tx vtx =>
    obtain ⟨nVersion,vin,vout,nLockTime⟩ := tx
    cases vin <;> rfl

/-- Counting the nonce up gives the block of the next extra nonce. -/
theorem incrementExtraNonce_workBlock (k : ℕ) :
    incrementExtraNonce p tip (workBlock p tip pubkey template k) =
      workBlock p tip pubkey template (k+1) := by
  have hvtx := setScriptSig_twice (coinbaseScript p (tip.nHeight+1) k)
    (coinbaseScript p (tip.nHeight+1) (k+1)) (keyedBlock pubkey template).vtx
  exact congrArg (fun vtx => rebuildMerkleTree p
    { keyedBlock pubkey template with nNonce := k+1, vtx := vtx }) hvtx

/-- The loop counts up to the first block that meets the minimum. -/
theorem headerLoop_spec {fuel k : ℕ} {block : CBlock}
    (h : headerLoop p tip fuel (workBlock p tip pubkey template k) = (true,block)) :
    ∃ m, block = workBlock p tip pubkey template m ∧ k ≤ m ∧
      (∀ x, k ≤ x → x < m → BelowLimit p tip pubkey template x) ∧
      (¬ BelowLimit p tip pubkey template m ∨ m = k+fuel) ∧ (k < m → m < 0xffff0000) := by
  induction fuel generalizing k with
  | zero =>
    obtain ⟨-,rfl⟩ := Prod.mk.inj h
    exact ⟨k, rfl, le_rfl, fun x hx hlt => absurd hx (not_le.mpr hlt), Or.inr rfl,
      fun hlt => absurd hlt (lt_irrefl k)⟩
  | succ fuel ih =>
    rw [headerLoop] at h
    -- the hash is too small: the nonce goes up, and the loop starts again from there
    by_cases hbelow : p.headerHash (workBlock p tip pubkey template k).toCBlockHeader <
        hashBlockHeaderLimit
    · rw [if_pos hbelow] at h
      dsimp only at h
      rw [incrementExtraNonce_workBlock] at h
      have hnonce : (workBlock p tip pubkey template (k+1)).nNonce = k+1 := rfl
      rw [hnonce] at h
      split_ifs at h with hlimit
      · exact absurd (Prod.mk.inj h).1 Bool.false_ne_true
      · obtain ⟨m,hblock,hle,hall,hstop,hlt⟩ := ih h
        refine ⟨m, hblock, by omega, ?_, ?_, ?_⟩
        · intro x hx hxm
          by_cases hxk : x = k
          · rw [hxk]
            exact hbelow
          · exact hall x (by omega) hxm
        · refine hstop.imp_right fun hm => ?_
          omega
        · intro _
          by_cases hm : k+1 < m
          · exact hlt hm
          · omega
    · rw [if_neg hbelow] at h
      obtain ⟨-,rfl⟩ := Prod.mk.inj h
      exact ⟨k, rfl, le_rfl, fun x hx hlt => absurd hx (not_le.mpr hlt), Or.inl hbelow,
        fun hlt => absurd hlt (lt_irrefl k)⟩

theorem makeWork_spec {a : ℕ} (ha : a < 0xffff0000) {block : CBlock}
    (h : makeWork p tip (some pubkey) a template = (true,block)) :
    ∃ m, block = workBlock p tip pubkey template m ∧ Settled p tip pubkey template a m := by
  rw [makeWork] at h
  have hnonce : (workBlock p tip pubkey template a).nNonce = a := rfl
  change headerLoop p tip (4294901760-1) (if (workBlock p tip pubkey template a).nNonce ≥ 0xffff0000
    then { workBlock p tip pubkey template a with nNonce := 0 }
    else workBlock p tip pubkey template a) = (true,block) at h
  rw [hnonce, if_neg (not_le.mpr ha)] at h
  obtain ⟨m,hblock,hle,hall,hstop,hlt⟩ := headerLoop_spec h
  exact ⟨m, hblock, hle, hall, hstop, hlt⟩

/-- Two workloads end on the same nonce exactly if no block between the nonces drawn for them meets
the minimum. -/
theorem Settled.eq_iff {a b m n : ℕ} (ha : Settled p tip pubkey template a m)
    (hb : Settled p tip pubkey template b n) (ha' : a < 100000000) (hb' : b < 100000000) :
    m = n ↔ ∀ k, min a b ≤ k → k < max a b → BelowLimit p tip pubkey template k := by
  -- the later of two ends is not met from a start before the earlier one
  have horder : ∀ {a b m n : ℕ}, Settled p tip pubkey template a m →
      Settled p tip pubkey template b n → a < 100000000 → b < 100000000 →
      (∀ k, min a b ≤ k → k < max a b → BelowLimit p tip pubkey template k) → n ≤ m := by
    intro a b m n ha hb ha' hb' hall
    by_contra hlt
    have hbelow : BelowLimit p tip pubkey template m := by
      by_cases hbm : b ≤ m
      · exact hb.below m hbm (by omega)
      · have hle := ha.le
        exact hall m (by omega) (by omega)
    have hm := ha.stop.resolve_left fun hnot => hnot hbelow
    have hle := hb.le
    have hn : b < n → n < 0xffff0000 := hb.lt
    have hn' : n ≤ 100000000 ∨ n < 0xffff0000 := by omega
    omega
  constructor
  · rintro rfl
    intro k hlow hhigh
    have hale := ha.le
    have hble := hb.le
    by_cases hak : a ≤ k
    · exact ha.below k hak (by omega)
    · exact hb.below k (by omega) (by omega)
  · intro hall
    apply le_antisymm
    · exact horder hb ha hb' ha' fun k hlow hhigh => hall k (by omega) (by omega)
    · exact horder ha hb ha' hb' hall

end Nonce

section Roots
variable {p : PoolParams} {tip : NodeTip} {pubkey : List UInt8} {template : CBlock}

theorem coinbaseScript_injective {nHeight a b : ℕ}
    (h : coinbaseScript p nHeight a = coinbaseScript p nHeight b) : a = b := by
  rw [coinbaseScript, coinbaseScript, List.append_assoc, List.append_assoc, List.append_assoc,
    List.append_assoc] at h
  have hpush := pushData_injective (List.append_cancel_right (List.append_cancel_left h))
  rw [← littleEndian_getvch a, hpush, littleEndian_getvch]

/-- The blocks differ in the coinbase, and there by their extra nonce. -/
theorem workBlock_vtx (hcoinbase : HasCoinbase template) : ∃ (coinbase : ℕ → CTransaction)
    (vtx : List CTransaction), (∀ k, (workBlock p tip pubkey template k).vtx = coinbase k :: vtx) ∧
      ∀ a b, coinbase a = coinbase b → a = b := by
  obtain ⟨nVersion,txin,vin,txout,vout,nLockTime,vtx,hvtx⟩ := hcoinbase
  refine ⟨fun k => ⟨nVersion, { txin with scriptSig := coinbaseScript p (tip.nHeight+1) k } :: vin,
    { txout with scriptPubKey := pushData pubkey ++ [UInt8.ofNat opCheckSig] } :: vout, nLockTime⟩,
    vtx, fun k => ?_, fun a b hab => ?_⟩
  · change setScriptSig _ (setScriptPubKey _ template.vtx) = _
    rw [hvtx]
    rfl
  · obtain ⟨-,hvin,-,-⟩ := CTransaction.mk.inj hab
    obtain ⟨-,hscript,-⟩ := CTxIn.mk.inj (List.cons.inj hvin).1
    exact coinbaseScript_injective hscript

/-- Without collisions the merkle root tells the extra nonces apart. -/
theorem workBlock_root_injective (hcoinbase : HasCoinbase template)
    (hfree : NoCollision p tip pubkey template) {a b : ℕ} (ha : a < 0xffff0000) (hb : b < 0xffff0000)
    (hroot : (workBlock p tip pubkey template a).hashMerkleRoot =
      (workBlock p tip pubkey template b).hashMerkleRoot) : a = b := by
  obtain ⟨coinbase,vtx,hvtx,hinj⟩ := @workBlock_vtx p tip pubkey template hcoinbase
  have hhashes : ∀ k, (workBlock p tip pubkey template k).txHashes p.ext =
      p.ext.txHash (coinbase k) :: vtx.map p.ext.txHash := by
    intro k
    rw [CBlock.txHashes, hvtx, List.map_cons]
  have hne : ∀ k, (workBlock p tip pubkey template k).txHashes p.ext ≠ [] := by
    intro k
    rw [hhashes]
    exact List.cons_ne_nil _ _
  obtain ⟨h,hheight,-,htop,hsub⟩ := merkle_tree_spec p.ext.nodeHash (hne a)
  obtain ⟨h',hheight',-,htop',hsub'⟩ := merkle_tree_spec p.ext.nodeHash (hne b)
  obtain rfl : h = h' := by
    apply hheight.unique
    rw [hhashes, List.length_cons, ← List.length_cons (a := p.ext.txHash (coinbase b)), ← hhashes]
    exact hheight'
  -- the trees have the same root, so the same first leaf
  have hfirst := levelAt_first (hfree.node a ha b hb)
    (fun i hi => List.subset_append_of_subset_left _ (hsub i hi))
    (fun i hi => List.subset_append_of_subset_right _ (hsub' i hi))
    (show _ = some (workBlock p tip pubkey template a).hashMerkleRoot by rw [htop]; rfl)
    (show _ = some (workBlock p tip pubkey template a).hashMerkleRoot by rw [hroot, htop']; rfl)
  rw [hhashes, hhashes] at hfirst
  have hhead := hfree.coinbase a ha b hb
  rw [hvtx, hvtx] at hhead
  exact hinj a b (Option.some.inj (hhead hfirst))

end Roots

section Generate
variable {p : PoolParams} {io : WorkIO} {tip : NodeTip} {template : CBlock}

/-- The workloads that are made one after the other. -/
theorem additionalWork_spec {n iPayload : ℕ} {blocks out : List CBlock}
    (h : additionalWork p io tip template n iPayload blocks = (true,out)) :
    (∀ j, iPayload ≤ j → j < iPayload+n →
      (makeWork p tip (io.pubkey j) (io.nonce j) template).1 = true) ∧
    out = blocks ++ (List.range' iPayload n).map fun j =>
      (makeWork p tip (io.pubkey j) (io.nonce j) template).2 := by
  induction n generalizing iPayload blocks with
  | zero =>
    obtain ⟨-,rfl⟩ := Prod.mk.inj h
    exact ⟨fun j hj hlt => absurd hj (not_le.mpr hlt), (List.append_nil _).symm⟩
  | succ n ih =>
    rw [additionalWork] at h
    cases hwork : makeWork p tip (io.pubkey iPayload) (io.nonce iPayload) template with
    | mk ok block =>
      rw [hwork] at h
      cases ok with
      | false => exact absurd (Prod.mk.inj h).1 Bool.false_ne_true
      | true =>
        obtain ⟨hok,hout⟩ := ih h
        constructor
        · intro j hj hlt
          by_cases hfirst : j = iPayload
          · rw [hfirst, hwork]
          · exact hok j (by omega) (by omega)
        · rw [hout, List.range'_succ, List.map_cons, hwork, List.append_assoc]
          rfl

/-- A call that succeeds leaves one block for each payload. -/
theorem generateWork_spec {server : XptServer} {client : WorkClient} {r : Generated}
    (htemplate : server.currentBlock = some template) (hpayload : 1 ≤ client.payloadNum)
    (h : generateWork p io tip server client = some r) (hok : r.ok = true) :
    (∀ j < client.payloadNum, (makeWork p tip (io.pubkey j) (io.nonce j) template).1 = true) ∧
    r.client.arrCurrentBlocks = (List.range client.payloadNum).map fun j =>
      (makeWork p tip (io.pubkey j) (io.nonce j) template).2 := by
  rw [generateWork, htemplate] at h
  dsimp only at h
  cases hwork : makeWork p tip (io.pubkey 0) (io.nonce 0) template with
  | mk ok block =>
    rw [hwork] at h
    cases ok with
    | false =>
      rw [← Option.some.inj h] at hok
      exact absurd hok Bool.false_ne_true
    | true =>
      dsimp only at h
      generalize hmore : additionalWork p io tip template (client.payloadNum-1) 1 [block] = more at h
      obtain ⟨ok,blocks⟩ := more
      obtain rfl := Option.some.inj h
      obtain rfl : ok = true := hok
      obtain ⟨hall,hout⟩ := additionalWork_spec hmore
      constructor
      · intro j hj
        by_cases hfirst : j = 0
        · rw [hfirst, hwork]
        · exact hall j (by omega) (by omega)
      · change blocks = _
        rw [hout, List.range_eq_range', show client.payloadNum = client.payloadNum-1+1 by omega,
          List.range'_succ, List.map_cons, hwork]
        rfl

end Generate

/-- When a call succeeds, the merkle roots of the payloads are pairwise distinct if and only if, for
any two of them, some block from the smaller of the nonces drawn up to the larger one, which is left
out, meets the minimum. A call without a key does not succeed. -/
theorem work_unique_iff (p : PoolParams) (tip : NodeTip) (server : XptServer) (client : WorkClient)
    (template : CBlock) (pubkey : List UInt8) (clock : ℕ → Timespec) (rand : ℕ → ℕ) (nTime : ℕ)
    (r : Generated) (htemplate : server.currentBlock = some template)
    (hcoinbase : HasCoinbase template) (hfree : NoCollision p tip pubkey template)
    (hpayload : 1 ≤ client.payloadNum)
    (h : generateWork p (clientWork (some pubkey) clock rand nTime) tip server client = some r)
    (hok : r.ok = true) :
    r.client.arrCurrentBlocks.length = client.payloadNum ∧
    ((r.client.arrCurrentBlocks.map fun block => block.hashMerkleRoot).Nodup ↔
      ∀ i j, i < j → j < client.payloadNum →
        let a := getRandomNonce (clock i) (rand i)
        let b := getRandomNonce (clock j) (rand j)
        ∃ k, min a b ≤ k ∧ k < max a b ∧ ¬ BelowLimit p tip pubkey template k) := by
  obtain ⟨hwork,hblocks⟩ := generateWork_spec htemplate hpayload h hok
  have hdrawn : ∀ i, getRandomNonce (clock i) (rand i) < 100000000 := fun i => getRandomNonce_lt _ _
  have hsettled : ∀ j, ∃ m, j < client.payloadNum →
      (makeWork p tip (some pubkey) (getRandomNonce (clock j) (rand j)) template).2 =
        workBlock p tip pubkey template m ∧
      Settled p tip pubkey template (getRandomNonce (clock j) (rand j)) m := by
    intro j
    by_cases hj : j < client.payloadNum
    · have hnonce : getRandomNonce (clock j) (rand j) < 0xffff0000 := (hdrawn j).trans (by norm_num)
      obtain ⟨m,hblock,hm⟩ := makeWork_spec hnonce (Prod.ext (hwork j hj) rfl)
      exact ⟨m, fun _ => ⟨hblock, hm⟩⟩
    · exact ⟨0, fun hlt => absurd hlt hj⟩
  choose m hm using hsettled
  have hlt : ∀ j < client.payloadNum, m j < 0xffff0000 := by
    intro j hj
    have hnonce := hdrawn j
    obtain ⟨-,hend⟩ := hm j hj
    by_cases hmore : getRandomNonce (clock j) (rand j) < m j
    · exact hend.lt hmore
    · omega
  have hroots : r.client.arrCurrentBlocks.map (fun block => block.hashMerkleRoot) =
      (List.range client.payloadNum).map fun j =>
        (workBlock p tip pubkey template (m j)).hashMerkleRoot := by
    rw [hblocks, List.map_map]
    apply List.map_congr_left
    intro j hj
    exact congrArg (fun block : CBlock => block.hashMerkleRoot) (hm j (List.mem_range.mp hj)).1
  refine ⟨by rw [hblocks, List.length_map, List.length_range], ?_⟩
  rw [hroots, List.nodup_map_iff_inj_on List.nodup_range]
  constructor
  · intro hinj i j hij hj
    by_contra hnone
    have hsame : m i = m j := by
      refine ((hm i (by omega)).2.eq_iff (hm j hj).2 (hdrawn i) (hdrawn j)).mpr fun k hlow hhigh => ?_
      by_contra habove
      exact hnone ⟨k, hlow, hhigh, habove⟩
    have heq := hinj i (List.mem_range.mpr (by omega)) j (List.mem_range.mpr hj) (by rw [hsame])
    omega
  · intro hall i hi j hj hroot
    rw [List.mem_range] at hi hj
    have hsame := workBlock_root_injective hcoinbase hfree (hlt i hi) (hlt j hj) hroot
    have hbetween := ((hm i hi).2.eq_iff (hm j hj).2 (hdrawn i) (hdrawn j)).mp hsame
    by_contra hne
    rcases Nat.lt_or_gt_of_ne hne with hij | hji
    · obtain ⟨k,hlow,hhigh,habove⟩ := hall i j hij hj
      exact habove (hbetween k hlow hhigh)
    · obtain ⟨k,hlow,hhigh,habove⟩ := hall j i hji hi
      rw [min_comm] at hlow
      rw [max_comm] at hhigh
      exact habove (hbetween k hlow hhigh)

section Sample

theorem lowBytes_length {fuel n size : ℕ} (h : n < 256^size) : (lowBytes fuel n).length ≤ size := by
  induction fuel generalizing n size with
  | zero => exact Nat.zero_le _
  | succ fuel ih =>
    rw [lowBytes]
    split_ifs with hzero
    · exact Nat.zero_le _
    · cases size with
      | zero =>
        rw [pow_zero] at h
        omega
      | succ size =>
        rw [pow_succ] at h
        have hrest : (lowBytes fuel (n/256)).length ≤ size := ih (by omega)
        rw [List.length_cons]
        omega

/-- A hash that reads the extra nonce out of a coinbase without a dedication. -/
def nonceExternals : Externals where
  txHash tx := BitVec.ofNat 256 (littleEndian (((tx.vin.head?.map CTxIn.scriptSig).getD []).drop 2))
  blockHash _ := 0
  nodeHash a b := 3*a+b
  verifyScript _ _ _ _ _ := true

def nonceParams : PoolParams := ⟨nonceExternals, fun _ => hashBlockHeaderLimit, mainNetParams, [], []⟩

/-- A current block with nothing but a coinbase, on the genesis block. -/
def nonceTemplate : CBlock := ⟨⟨2, 1, 0, 1400000000, 0x07000000, 0, 2⟩, [miningTx]⟩

def nonceTip : NodeTip := ⟨1, 0⟩
def nonceServer : XptServer := ⟨1, some nonceTemplate⟩

/-- A client that asks for two payloads. -/
def twoPayloads : WorkClient := ⟨false, true, 1, 1, 2, [], false⟩

theorem nonceTemplate_coinbase : HasCoinbase nonceTemplate := ⟨1, _, _, _, _, 0, [], rfl⟩

theorem nonceWork_vtx (k : ℕ) : ∃ scriptPubKey,
    (workBlock nonceParams nonceTip [] nonceTemplate k).vtx =
      [⟨1, [⟨⟨0, 2^32-1⟩, coinbaseScript nonceParams 1 k, 2^32-1⟩],
        [⟨10*coin, scriptPubKey⟩], 0⟩] := ⟨_, rfl⟩

/-- The hash of the coinbase is the extra nonce. -/
theorem nonceWork_hash {k : ℕ} (hk : k < 0xffff0000) :
    (workBlock nonceParams nonceTip [] nonceTemplate k).vtx.head?.map nonceExternals.txHash =
      some (BitVec.ofNat 256 k) := by
  obtain ⟨scriptPubKey,hvtx⟩ := nonceWork_vtx k
  have hsmall : (getvch k).length < opPushData1 := by
    have hlow : (lowBytes (k.log2+1) k).length ≤ 4 := lowBytes_length (by omega)
    rw [getvch, opPushData1]
    split_ifs
    · rw [List.length_append, List.length_singleton]
      omega
    · omega
  obtain ⟨size,hpush,hsize⟩ := pushData_eq (getvch k)
  rw [if_pos hsmall] at hsize
  obtain ⟨x,rfl⟩ := List.length_eq_one_iff.mp hsize
  have hscript : coinbaseScript nonceParams 1 k = 0x51 :: x :: (getvch k ++ [0]) := by
    rw [coinbaseScript, hpush]
    change [0x51] ++ ([x] ++ getvch k) ++ [0] ++ [] = _
    simp
  rw [hvtx, List.head?_cons, Option.map_some, hscript]
  change some (BitVec.ofNat 256 (littleEndian (getvch k ++ [0]))) = _
  rw [littleEndian_append_zero, littleEndian_getvch]

theorem nonceWork_free : NoCollision nonceParams nonceTip [] nonceTemplate := by
  constructor
  · intro a ha b hb heq
    change (workBlock nonceParams nonceTip [] nonceTemplate a).vtx.head?.map nonceExternals.txHash =
      (workBlock nonceParams nonceTip [] nonceTemplate b).vtx.head?.map nonceExternals.txHash at heq
    rw [nonceWork_hash ha, nonceWork_hash hb] at heq
    have hnat := congrArg BitVec.toNat (Option.some.inj heq)
    rw [BitVec.toNat_ofNat, BitVec.toNat_ofNat, Nat.mod_eq_of_lt (by omega),
      Nat.mod_eq_of_lt (by omega)] at hnat
    rw [hnat]
  · intro a ha b hb
    obtain ⟨_,hvtx⟩ := nonceWork_vtx a
    obtain ⟨_,hvtx'⟩ := nonceWork_vtx b
    rw [CBlock.txHashes, CBlock.txHashes, hvtx, hvtx']
    exact fun pair hpair => absurd hpair List.not_mem_nil

/-- The clock is read every microsecond. -/
def tickClock (i : ℕ) : Timespec := ⟨i/1000000, 5+1000*(i % 1000000), by omega⟩

theorem tickClock_increasing {i j : ℕ} (h : i < j) : (tickClock i).Before (tickClock j) := by
  rw [Timespec.Before, tickClock, tickClock]
  dsimp only
  omega

/-- What the client gets when `rand` returns `rand`. -/
def tickWork (rand : ℕ → ℕ) : Option Generated :=
  generateWork nonceParams (clientWork (some []) tickClock rand 1400000000) nonceTip nonceServer
    twoPayloads

theorem tickWork_some (rand : ℕ → ℕ) : ∃ r, tickWork rand = some r ∧ r.ok = true :=
  ⟨_, rfl, rfl⟩

/-- With the largest modulus the payloads differ. -/
theorem work_unique_iff_tick : ∃ r, tickWork (fun _ => 0) = some r ∧
    (r.client.arrCurrentBlocks.map fun block => block.hashMerkleRoot).Nodup := by
  obtain ⟨r,hr,hok⟩ := tickWork_some fun _ => 0
  obtain ⟨-,hiff⟩ := work_unique_iff nonceParams nonceTip nonceServer twoPayloads nonceTemplate []
    tickClock (fun _ => 0) 1400000000 r rfl nonceTemplate_coinbase nonceWork_free (by decide) hr hok
  refine ⟨r, hr, hiff.mpr ?_⟩
  intro i j hij hj
  have hj' : j < 2 := hj
  obtain rfl : i = 0 := by omega
  obtain rfl : j = 1 := by omega
  exact ⟨5, by decide, by decide, BitVec.lt_irrefl _⟩

/-- Two readings of the clock in two microseconds, with the smallest modulus: the call succeeds, and
both payloads have the same merkle root. -/
theorem work_not_unique : (∀ i j, i < j → (tickClock i).Before (tickClock j)) ∧
    NoCollision nonceParams nonceTip [] nonceTemplate ∧
    ∃ r, tickWork (fun _ => 3) = some r ∧ r.ok = true ∧ r.client.arrCurrentBlocks.length = 2 ∧
      ¬ (r.client.arrCurrentBlocks.map fun block => block.hashMerkleRoot).Nodup := by
  refine ⟨fun i j => tickClock_increasing, nonceWork_free, ?_⟩
  obtain ⟨r,hr,hok⟩ := tickWork_some fun _ => 3
  have hroots : (tickWork fun _ => 3).map (fun r =>
      r.client.arrCurrentBlocks.map fun block => block.hashMerkleRoot) = some [5,5] := by
    decide +kernel
  rw [hr, Option.map_some] at hroots
  have hlist := Option.some.inj hroots
  refine ⟨r, hr, hok, ?_, ?_⟩
  · have hlen := congrArg List.length hlist
    rwa [List.length_map] at hlen
  · rw [hlist]
    decide

end Sample

end Candypool.Pool
