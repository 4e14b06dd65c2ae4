import Candypool.Core.Block
import Candypool.Lib.PairTree

/-! What the merkle tree of a block says about its transactions. The odd levels let several lists
share a root; only one of them passes the test for duplicates. -/
namespace Candypool.Core
open Candypool.Prime Candypool.Lib

section Merkle
variable (nodeHash : Uint256 → Uint256 → Uint256)

/-- The number of levels of `vMerkleTree`; an empty block has none. -/
def merkleDepth (leaves : List Uint256) : ℕ :=
  ((merkleLevels nodeHash leaves.length leaves).filter fun level => !level.isEmpty).length

/-- The pairs `BuildMerkleTree` hashes. -/
def merklePairs (leaves : List Uint256) : List (Uint256 × Uint256) :=
  (merkleLevels nodeHash leaves.length leaves).flatMap fun level =>
    if level.length ≤ 1 then [] else pairUp level

theorem merkleLevel_eq (level : List Uint256) :
    merkleLevel nodeHash level = nextLevel nodeHash level := by
  induction level using pairUp.induct with
  | case1 => rfl
  | case2 a => rfl
  | case3 a b level ih =>
    rw [merkleLevel, ih]
    rfl

theorem merkleLevels_eq (nodeHash : Uint256 → Uint256 → Uint256) {leaves : List Uint256} (hne : leaves ≠ []) {fuel : ℕ}
    (hfuel : leaves.length ≤ fuel) : ∃ h, RootHeight leaves.length h ∧
      merkleLevels nodeHash fuel leaves = (List.range (h+1)).map (levelAt nodeHash leaves) := by
  induction fuel generalizing leaves with
  | zero => exact absurd (List.length_eq_zero_iff.mp (Nat.le_zero.mp hfuel)) hne
  | succ fuel ih =>
    have hpos := List.length_pos_of_ne_nil hne
    rw [merkleLevels]
    split_ifs with hone
    · refine ⟨0, ⟨?_, fun i hi => absurd hi (Nat.not_lt_zero i)⟩, rfl⟩
      rw [treeWidth_zero]
      omega
    · have hlen := nextLevel_length (f := nodeHash) leaves
      have hne' : nextLevel nodeHash leaves ≠ [] := by
        intro hnil
        rw [hnil, List.length_nil] at hlen
        omega
      -- the same tree stands over the pairs, one level lower
      obtain ⟨h,hroot,hlevels⟩ := ih hne' (by omega)
      have hwidth : ∀ i, treeWidth (nextLevel nodeHash leaves).length i =
          treeWidth leaves.length (i+1) := by
        intro i
        rw [← levelAt_length (f := nodeHash), levelAt_nextLevel, levelAt_length]
      refine ⟨h+1, ⟨?_, ?_⟩, ?_⟩
      · rw [← hwidth]
        exact hroot.single
      · intro i hi
        cases i with
        | zero =>
          rw [treeWidth_zero]
          omega
        | succ i =>
          rw [← hwidth]
          exact hroot.below i (by omega)
      · rw [merkleLevel_eq, hlevels, List.range_succ_eq_map (n := h+1), List.map_cons, List.map_map]
        congr 1
        apply List.map_congr_left
        intro i _
        exact levelAt_nextLevel leaves i

/-- The tree of a list that is not empty, read off its levels. -/
theorem merkle_tree_spec (nodeHash : Uint256 → Uint256 → Uint256) {leaves : List Uint256}
    (hne : leaves ≠ []) : ∃ h, RootHeight leaves.length h ∧
    merkleDepth nodeHash leaves = h+1 ∧
    levelAt nodeHash leaves h = [buildMerkleTree nodeHash leaves] ∧
    ∀ i < h, pairUp (levelAt nodeHash leaves i) ⊆ merklePairs nodeHash leaves := by
  obtain ⟨h,hroot,hlevels⟩ := merkleLevels_eq nodeHash hne le_rfl
  have hlen : ∀ i, (levelAt nodeHash leaves i).length = treeWidth leaves.length i :=
    levelAt_length leaves
  refine ⟨h, hroot, ?_, ?_, ?_⟩
  · have hfull : ∀ level ∈ merkleLevels nodeHash leaves.length leaves, (!level.isEmpty) = true := by
      intro level hmem
      rw [hlevels] at hmem
      obtain ⟨i,-,rfl⟩ := List.mem_map.mp hmem
      have hpos := treeWidth_pos (List.length_pos_of_ne_nil hne) i
      rw [← hlen] at hpos
      rw [List.isEmpty_eq_false_iff.mpr (List.ne_nil_of_length_pos hpos), Bool.not_false]
    rw [merkleDepth, List.filter_eq_self.mpr hfull, hlevels, List.length_map, List.length_range]
  · obtain ⟨root,hsingle⟩ := List.length_eq_one_iff.mp ((hlen h).trans hroot.single)
    rw [buildMerkleTree, hlevels, List.range_succ, List.map_append, List.flatten_append]
    simp [hsingle]
  · intro i hi pair hmem
    rw [merklePairs, hlevels, List.mem_flatMap]
    refine ⟨levelAt nodeHash leaves i, List.mem_map_of_mem (List.mem_range.mpr (by omega)), ?_⟩
    have := hroot.below i hi
    rwa [if_neg (by rw [hlen]; omega)]

variable {nodeHash}

theorem merkleDepth_eq_zero {leaves : List Uint256} :
    merkleDepth nodeHash leaves = 0 ↔ leaves = [] := by
  constructor
  · intro hzero
    by_contra hne
    obtain ⟨h,-,hdepth,-⟩ := merkle_tree_spec nodeHash hne
    omega
  · rintro rfl
    rfl

theorem leaves_eq_of_root_eq {leaves leaves' : List Uint256} (hnodup : leaves.Nodup)
    (hnodup' : leaves'.Nodup)
    (hfree : CollisionFree nodeHash (merklePairs nodeHash leaves ++ merklePairs nodeHash leaves'))
    (hdepth : merkleDepth nodeHash leaves = merkleDepth nodeHash leaves')
    (hroot : buildMerkleTree nodeHash leaves = buildMerkleTree nodeHash leaves') :
    leaves = leaves' := by
  by_cases hne : leaves = []
  · rw [hne, merkleDepth_eq_zero.mp (hdepth.symm.trans (merkleDepth_eq_zero.mpr hne))]
  · have hne' : leaves' ≠ [] := by
      intro hnil
      exact hne (merkleDepth_eq_zero.mp (hdepth.trans (merkleDepth_eq_zero.mpr hnil)))
    obtain ⟨h,-,hh,htop,hsub⟩ := merkle_tree_spec nodeHash hne
    obtain ⟨h',-,hh',htop',hsub'⟩ := merkle_tree_spec nodeHash hne'
    obtain rfl : h = h' := by omega
    refine levelAt_injOn hnodup hnodup' hfree ?_ ?_ (by rw [htop, htop', hroot])
    · exact fun i hi => List.subset_append_of_subset_left _ (hsub i hi)
    · exact fun i hi => List.subset_append_of_subset_right _ (hsub' i hi)

/-- Two transaction lists without duplicates whose trees have the same height and the same root are
equal, unless two of the pairs that were hashed collide. So a block that passes `CheckBlock` cannot
be altered under its header. -/
theorem merkle_root_binds_transactions (nodeHash : Uint256 → Uint256 → Uint256) :
    (∀ leaves leaves' : List Uint256, leaves.Nodup → leaves'.Nodup →
      CollisionFree nodeHash (merklePairs nodeHash leaves ++ merklePairs nodeHash leaves') →
      merkleDepth nodeHash leaves = merkleDepth nodeHash leaves' →
      buildMerkleTree nodeHash leaves = buildMerkleTree nodeHash leaves' → leaves = leaves') ∧
    ∀ (ext : Externals) (block block' : CBlock) (nAdjustedTime nAdjustedTime' : ℤ),
      CollisionFree ext.nodeHash (merklePairs ext.nodeHash (block.txHashes ext) ++
        merklePairs ext.nodeHash (block'.txHashes ext)) →
      block.checkBlock ext nAdjustedTime true = .ok () →
      block'.checkBlock ext nAdjustedTime' true = .ok () →
      block.toCBlockHeader = block'.toCBlockHeader →
      merkleDepth ext.nodeHash (block.txHashes ext) =
        merkleDepth ext.nodeHash (block'.txHashes ext) →
      block.txHashes ext = block'.txHashes ext ∧
        ((∀ tx ∈ block.vtx, ∀ tx' ∈ block'.vtx, ext.txHash tx = ext.txHash tx' → tx = tx') →
          block = block') := by
  refine ⟨fun leaves leaves' hnodup hnodup' hfree hdepth hroot =>
    leaves_eq_of_root_eq hnodup hnodup' hfree hdepth hroot, ?_⟩
  intro ext block block' time time' hfree hok hok' hheader hdepth
  obtain ⟨hchecked,hmerkle⟩ := checkBlock_ok hok
  obtain ⟨hchecked',hmerkle'⟩ := checkBlock_ok hok'
  -- equal headers have equal roots
  have hroot : buildMerkleTree ext.nodeHash (block.txHashes ext) =
      buildMerkleTree ext.nodeHash (block'.txHashes ext) := by
    rw [← hmerkle rfl, ← hmerkle' rfl, hheader]
  have hhashes := leaves_eq_of_root_eq hchecked.nodup hchecked'.nodup hfree hdepth hroot
  refine ⟨hhashes, fun hinj => ?_⟩
  have hlen : block.vtx.length = block'.vtx.length := by
    have hmap := congrArg List.length hhashes
    rwa [CBlock.txHashes, CBlock.txHashes, List.length_map, List.length_map] at hmap
  -- equal hashes at a place come from equal transactions
  have hvtx : block.vtx = block'.vtx := by
    apply List.ext_getElem hlen
    intro i hi hi'
    apply hinj _ (List.getElem_mem hi) _ (List.getElem_mem hi')
    have hget : (block.txHashes ext)[i]? = (block'.txHashes ext)[i]? := by rw [hhashes]
    rw [CBlock.txHashes, CBlock.txHashes, List.getElem?_map, List.getElem?_map,
      List.getElem?_eq_getElem hi, List.getElem?_eq_getElem hi'] at hget
    exact Option.some.inj hget
  cases block
  cases block'
  dsimp only at hheader hvtx
  rw [hheader, hvtx]

end Merkle

section Sample

def miningTx : CTransaction := ⟨1, [⟨⟨0, 2^32-1⟩, [1, 100], 2^32-1⟩], [⟨10*coin, [0x51]⟩], 0⟩
def spendingTx : CTransaction := ⟨1, [⟨⟨7, 0⟩, [], 2^32-1⟩], [⟨4*coin, [0x51]⟩], 0⟩

/-- Hashes that tell the transactions and the nodes of a small block apart. -/
def smallExternals : Externals where
  txHash tx := if tx = miningTx then 1 else 2
  blockHash _ := 5
  nodeHash a b := 4*a+b
  verifyScript _ _ _ _ _ := true

def smallBlock : CBlock := ⟨⟨2, 0x2222, 6, 1400000000, 0x07000000, 0, 2⟩, [miningTx, spendingTx]⟩

theorem merkle_root_binds_transactions_small :
    buildMerkleTree smallExternals.nodeHash [1,2,3] = 39 ∧ smallBlock = smallBlock := by
  have hfree : CollisionFree smallExternals.nodeHash
      (merklePairs smallExternals.nodeHash [1,2,3] ++ merklePairs smallExternals.nodeHash [1,2,3]) := by
    decide +kernel
  have hlists := (merkle_root_binds_transactions smallExternals.nodeHash).1 [1,2,3] [1,2,3]
    (by decide) (by decide) hfree rfl rfl
  obtain ⟨-,hblocks⟩ := (merkle_root_binds_transactions smallExternals.nodeHash).2
    smallExternals smallBlock smallBlock 1400000000 1400000000 (by decide +kernel) (by decide +kernel)
    (by decide +kernel) rfl rfl
  refine ⟨by decide +kernel, hblocks ?_⟩
  decide +kernel

end Sample

end Candypool.Core
