import Candypool.Core.PartialMerkleRoundTrip
import Candypool.Lib.LevelArray

/-! `vMerkleTree` as the array it is: `BuildMerkleTree` appends one level after the other, and
`GetMerkleBranch` walks it by offsets. Both find the tree that `CPartialMerkleTree` computes. -/
namespace Candypool.Core
open Candypool.Prime Candypool.Lib

section Array
variable (nodeHash : Uint256 → Uint256 → Uint256)

/-- The inner loop of `BuildMerkleTree`; `none` is an index outside of `vMerkleTree`. -/
def hashLevel (nSize j : ℕ) : ℕ → ℕ → List Uint256 → Option (List Uint256)
  | 0, _, vMerkleTree => some vMerkleTree
  | fuel+1, i, vMerkleTree =>
    if i < nSize then do
      let i2 := min (i+1) (nSize-1)
      let left ← vMerkleTree[j+i]?
      let right ← vMerkleTree[j+i2]?
      hashLevel nSize j fuel (i+2) (vMerkleTree ++ [nodeHash left right])
    else some vMerkleTree

/-- The outer loop; a level halves, so its size bounds the rounds. -/
def hashLevels : ℕ → ℕ → ℕ → List Uint256 → Option (List Uint256)
  | 0, _, _, vMerkleTree => some vMerkleTree
  | fuel+1, nSize, j, vMerkleTree =>
    if nSize > 1 then do
      let vMerkleTree ← hashLevel nodeHash nSize j nSize 0 vMerkleTree
      hashLevels fuel ((nSize+1)/2) (j+nSize) vMerkleTree
    else some vMerkleTree

/-- What `BuildMerkleTree` leaves in `vMerkleTree`. -/
def merkleArray (vtx : List Uint256) : Option (List Uint256) :=
  hashLevels nodeHash vtx.length vtx.length 0 vtx

/-- What `BuildMerkleTree` returns. -/
def arrayRoot (vMerkleTree : List Uint256) : Uint256 := vMerkleTree.getLastD 0

/-- `GetTxHash` of a block with `size` transactions, with its asserts. -/
def getTxHash (size : ℕ) (vMerkleTree : List Uint256) (nIndex : ℕ) : Option Uint256 :=
  if 0 < vMerkleTree.length ∧ nIndex < size then vMerkleTree[nIndex]? else none

/-- The loop of `GetMerkleBranch`. -/
def arrayBranchLoop (vMerkleTree : List Uint256) : ℕ → ℕ → ℕ → ℕ → Option (List Uint256)
  | 0, _, _, _ => some []
  | fuel+1, nSize, j, nIndex =>
    if nSize > 1 then do
      let i := min (nIndex ^^^ 1) (nSize-1)
      let otherside ← vMerkleTree[j+i]?
      let branch ← arrayBranchLoop vMerkleTree fuel ((nSize+1)/2) (j+nSize) (nIndex/2)
      some (otherside :: branch)
    else some []

/-- `GetMerkleBranch` of a block with `size` transactions whose tree was built. -/
def arrayBranch (size : ℕ) (vMerkleTree : List Uint256) (nIndex : ℕ) : Option (List Uint256) :=
  arrayBranchLoop vMerkleTree size size 0 nIndex

end Array

section Build
variable {nodeHash : Uint256 → Uint256 → Uint256} {leaves level : List Uint256}

/-- A level behind `below`, of whose nodes the first `k` pairs are hashed. -/
theorem hashLevel_eq (below : List Uint256) {fuel k : ℕ} (hfuel : level.length ≤ 2*k+fuel) :
    hashLevel nodeHash level.length below.length fuel (2*k)
      (below ++ level ++ (nextLevel nodeHash level).take k) =
        some (below ++ level ++ nextLevel nodeHash level) := by
  have hdone (hk : level.length ≤ 2*k) :
      (nextLevel nodeHash level).take k = nextLevel nodeHash level := by
    apply List.take_of_length_le
    rw [nextLevel_length]
    omega
  induction fuel generalizing k with
  | zero => rw [hashLevel, hdone (by omega)]
  | succ fuel ih =>
    rw [hashLevel]
    by_cases hlt : 2*k < level.length
    · have hget {i : ℕ} (hi : i < level.length) : (below ++ level ++
          (nextLevel nodeHash level).take k)[below.length+i]? = some level[i] := by
        rw [List.append_assoc, List.getElem?_append_right (Nat.le_add_right _ _),
          Nat.add_sub_cancel_left, List.getElem?_append_left hi, List.getElem?_eq_getElem hi]
      have hright : min (2*k+1) (level.length-1) < level.length := by omega
      have hflip : neighbour level.length (2*k) = min (2*k+1) (level.length-1) := by
        rw [neighbour, Nat.xor_one_of_even (even_two_mul k)]
      -- the pair that is hashed is the node above it
      have hparent : (nextLevel nodeHash level)[k]? =
          some (nodeHash level[2*k] level[min (2*k+1) (level.length-1)]) := by
        have hup := @levelAt_parent _ nodeHash level 0 (2*k) level[2*k]
          level[min (2*k+1) (level.length-1)] (List.getElem?_eq_getElem hlt)
          (by rw [treeWidth_zero, hflip]; exact List.getElem?_eq_getElem hright)
        rw [if_neg (by omega), Nat.mul_div_cancel_left _ (by decide)] at hup
        exact hup
      rw [if_pos hlt, hget hlt, Option.bind_eq_bind, Option.bind_some, hget hright,
        Option.bind_some, List.append_assoc]
      have hnext := @ih (k+1) (by omega) fun hk => List.take_of_length_le (by
        rw [nextLevel_length]
        omega)
      rw [List.take_add_one, hparent] at hnext
      exact hnext
    · rw [if_neg hlt, hdone (not_lt.mp hlt)]

/-- The levels from one height to the root. -/
theorem hashLevels_eq {fuel h height : ℕ} (hroot : RootHeight leaves.length height)
    (hh : h ≤ height) (hfuel : treeWidth leaves.length h ≤ fuel) :
    hashLevels nodeHash fuel (treeWidth leaves.length h) (levelOffset leaves.length h)
      (levelArray nodeHash leaves (h+1)) = some (levelArray nodeHash leaves (height+1)) := by
  induction fuel generalizing h with
  | zero =>
    have hsingle := hroot.single
    have hmono := treeWidth_mono (n := leaves.length) hh
    omega
  | succ fuel ih =>
    rw [hashLevels]
    by_cases hwide : treeWidth leaves.length h > 1
    · have hbelow : h < height := by
        by_contra hge
        have hsame : h = height := by omega
        have hsingle := hroot.single
        rw [hsame] at hwide
        omega
      have hlevel := @hashLevel_eq nodeHash (levelAt nodeHash leaves h)
        (levelArray nodeHash leaves h) (treeWidth leaves.length h) 0 (by
          rw [levelAt_length]
          omega)
      rw [levelAt_length, levelArray_length, List.take_zero, List.append_nil, Nat.mul_zero] at hlevel
      rw [if_pos hwide, levelArray, hlevel, Option.bind_eq_bind, Option.bind_some]
      have hnext := @ih (h+1) hbelow (by rw [treeWidth_succ]; omega)
      rw [treeWidth_succ] at hnext
      exact hnext
    · have htop : h = height := by
        by_contra hne
        exact hwide (hroot.below h (by omega))
      rw [if_neg hwide, htop]

theorem merkleArray_eq {height : ℕ} (hroot : RootHeight leaves.length height) :
    merkleArray nodeHash leaves = some (levelArray nodeHash leaves (height+1)) := by
  have hall := @hashLevels_eq nodeHash leaves leaves.length 0 height hroot (Nat.zero_le _)
    (by rw [treeWidth_zero])
  rw [treeWidth_zero] at hall
  exact hall

/-- The array is the list of levels that the rest of the development takes as the tree. -/
theorem merkleArray_eq_levels (hne : leaves ≠ []) : merkleArray nodeHash leaves =
    some (merkleLevels nodeHash leaves.length leaves).flatten := by
  obtain ⟨height,hroot,hlevels⟩ := merkleLevels_eq nodeHash hne le_rfl
  rw [merkleArray_eq hroot, levelArray_eq_flatten, hlevels]

end Build

section Branch
variable {nodeHash : Uint256 → Uint256 → Uint256} {leaves : List Uint256}

/-- The walk from a node finds a neighbour at every height, and they lead to the root. -/
theorem arrayBranchLoop_eq {fuel h height pos : ℕ} {v root : Uint256}
    (hroot : RootHeight leaves.length height) (htop : levelAt nodeHash leaves height = [root])
    (hh : h ≤ height) (hfuel : treeWidth leaves.length h ≤ fuel)
    (hv : (levelAt nodeHash leaves h)[pos]? = some v) :
    ∃ branch, arrayBranchLoop (levelArray nodeHash leaves (height+1)) fuel
        (treeWidth leaves.length h) (levelOffset leaves.length h) pos = some branch ∧
      checkMerkleBranch nodeHash v branch pos = root := by
  have hpos : pos < treeWidth leaves.length h := by
    rw [← levelAt_length (f := nodeHash) leaves]
    exact (List.getElem?_eq_some_iff.mp hv).1
  -- each turn goes up one level, and the width bounds the levels left
  induction fuel generalizing h pos v with
  | zero => omega
  | succ fuel ih =>
    rw [arrayBranchLoop]
    by_cases hwide : treeWidth leaves.length h > 1
    · have hbelow : h < height := by
        by_contra hge
        have hsame : h = height := by omega
        have hsingle := hroot.single
        rw [hsame] at hwide
        omega
      have hnear := neighbour_lt hpos
      obtain ⟨otherside,hother⟩ : ∃ otherside, (levelAt nodeHash leaves h)[neighbour
          (treeWidth leaves.length h) pos]? = some otherside :=
        ⟨_,List.getElem?_eq_getElem (by rw [levelAt_length]; exact hnear)⟩
      have hin : h < height+1 := by omega
      have hread := levelArray_getElem? (f := nodeHash) hin hnear
      rw [hother, neighbour] at hread
      have hparent := levelAt_parent hv hother
      have hhalf : pos/2 < treeWidth leaves.length (h+1) := by
        rw [treeWidth_succ]
        omega
      obtain ⟨branch,hbranch,hcheck⟩ := ih hbelow (by rw [treeWidth_succ]; omega) hparent hhalf
      rw [treeWidth_succ] at hbranch
      refine ⟨otherside :: branch,?_,?_⟩
      · rw [levelOffset] at hbranch
        rw [if_pos hwide]
        dsimp only
        rw [hread, Option.bind_eq_bind, Option.bind_some, hbranch]
        rfl
      · rw [checkMerkleBranch]
        split_ifs at hcheck ⊢
        · exact hcheck
        · exact hcheck
    · have hsame : h = height := by
        by_contra hne
        exact hwide (hroot.below h (by omega))
      refine ⟨[],by rw [if_neg hwide],?_⟩
      have hsingle := hroot.single
      have hzero : pos = 0 := by
        rw [hsame] at hpos
        omega
      rw [hsame, htop, hzero] at hv
      rw [checkMerkleBranch]
      exact (Option.some.inj hv).symm

/-- Twice the width that is left makes up for the levels above. -/
theorem levelOffset_le (n h : ℕ) : levelOffset n h+2*treeWidth n h ≤ 2*n+h := by
  induction h with
  | zero =>
    rw [levelOffset, treeWidth_zero]
    omega
  | succ h ih =>
    rw [levelOffset, treeWidth_succ]
    omega

/-- The branch of every transaction leads to the root, and the root is the one of a partial tree.
Every index is in the array, whose size is that of all levels and fits an `int`; `CheckBlock` lets
far fewer transactions pass. -/
theorem merkle_branches_verify (nodeHash : Uint256 → Uint256 → Uint256) {leaves : List Uint256}
    (hne : leaves ≠ []) (hlen : leaves.length ≤ 2^30-16) :
    ∃ vMerkleTree, merkleArray nodeHash leaves = some vMerkleTree ∧
      vMerkleTree.length = ((List.range (treeHeight leaves.length+1)).map
        (calcTreeWidth leaves.length)).sum ∧
      vMerkleTree.length < 2^31 ∧
      arrayRoot vMerkleTree =
        calcHash nodeHash leaves leaves.length (treeHeight leaves.length) 0 ∧
      ∀ i < leaves.length, ∃ hash branch,
        getTxHash leaves.length vMerkleTree i = some hash ∧
        arrayBranch leaves.length vMerkleTree i = some branch ∧
        checkMerkleBranch nodeHash hash branch i = arrayRoot vMerkleTree := by
  have hpos := List.length_pos_of_ne_nil hne
  have hn : leaves.length ≤ 2^31 := hlen.trans (by norm_num)
  obtain ⟨hroot,hheight⟩ := rootHeight_treeHeight hpos hn
  generalize treeHeight leaves.length = height at hroot hheight
  have hsingle := hroot.single
  have hcalc := @levelAt_calcHash nodeHash leaves height 0 hn hheight (by omega)
  -- the last level is the root alone
  obtain ⟨root,htop⟩ := List.length_eq_one_iff.mp ((levelAt_length leaves height).trans hsingle)
  rw [htop] at hcalc
  have hlast : arrayRoot (levelArray nodeHash leaves (height+1)) = root := by
    rw [arrayRoot, levelArray, htop, List.getLastD_concat]
  have hsize := levelArray_length (f := nodeHash) leaves (height+1)
  refine ⟨levelArray nodeHash leaves (height+1),merkleArray_eq hroot,?_,?_,?_,?_⟩
  · rw [hsize, levelOffset_eq_sum]
    congr 1
    apply List.map_congr_left
    intro h hh
    have hlt := List.mem_range.mp hh
    exact (calcTreeWidth_eq hn (by omega)).symm
  · have hle := levelOffset_le leaves.length height
    rw [hsize, levelOffset]
    omega
  · rw [hlast]
    exact Option.some.inj hcalc
  · intro i hi
    have hleaf : (levelAt nodeHash leaves 0)[i]? = some leaves[i] := List.getElem?_eq_getElem hi
    obtain ⟨branch,hbranch,hcheck⟩ := arrayBranchLoop_eq hroot htop (Nat.zero_le _)
      (treeWidth_zero _).le hleaf
    rw [treeWidth_zero] at hbranch
    have hread := levelArray_getElem? (f := nodeHash) (Nat.succ_pos height)
      ((treeWidth_zero leaves.length).symm ▸ hi)
    rw [hleaf, levelOffset, Nat.zero_add] at hread
    refine ⟨leaves[i],branch,?_,hbranch,hcheck.trans hlast.symm⟩
    have hfull : 0 < (levelArray nodeHash leaves (height+1)).length :=
      (Nat.zero_le i).trans_lt (List.getElem?_eq_some_iff.mp hread).1
    rw [getTxHash, if_pos ⟨hfull,hi⟩, hread]

/-- Three leaves, the third paired with itself: its branch leads to the root like the others. -/
theorem merkle_branches_verify_three :
    merkleArray smallExternals.nodeHash [1,2,3] = some [1,2,3,6,15,39] ∧
    ∀ i < 3, ∃ hash branch, getTxHash 3 [1,2,3,6,15,39] i = some hash ∧
      arrayBranch 3 [1,2,3,6,15,39] i = some branch ∧
      checkMerkleBranch smallExternals.nodeHash hash branch i = 39 := by
  have htree : merkleArray smallExternals.nodeHash [1,2,3] = some [1,2,3,6,15,39] := by
    decide +kernel
  obtain ⟨tree,hbuilt,-,-,-,hbranches⟩ :=
    merkle_branches_verify smallExternals.nodeHash (List.cons_ne_nil 1 [2,3]) (by decide)
  rw [htree] at hbuilt
  obtain rfl := Option.some.inj hbuilt
  exact ⟨htree,hbranches⟩

end Branch

end Candypool.Core
