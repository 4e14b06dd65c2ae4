import Candypool.Core.MerkleTree
import Candypool.Core.Serialize

/-! `CPartialMerkleTree`: the part of a merkle tree that shows which transactions of a block were
selected. The tree is walked depth first; a bit says whether there is a selected leaf below a node,
and the hash of a node that is not explored further is stored. -/
namespace Candypool.Core
open Candypool.Prime Candypool.Lib

structure CPartialMerkleTree where
  nTransactions : ℕ
  vBits : List Bool
  vHash : List Uint256
  fBad : Bool
  deriving DecidableEq, Repr

/-- The number of nodes at a height, in 32 bits. -/
def calcTreeWidth (nTransactions height : ℕ) : ℕ := (nTransactions+2^height-1) % 2^32 / 2^height

def treeHeightLoop (nTransactions : ℕ) : ℕ → ℕ → ℕ
  | 0, nHeight => nHeight
  | fuel+1, nHeight =>
    if calcTreeWidth nTransactions nHeight > 1 then treeHeightLoop nTransactions fuel (nHeight+1)
    else nHeight

/-- A width of 32 bits has no more than 32 heights. -/
def treeHeight (nTransactions : ℕ) : ℕ := treeHeightLoop nTransactions 32 0

section Build
variable (nodeHash : Uint256 → Uint256 → Uint256) (vTxid : List Uint256) (vMatch : List Bool)

def calcHash (nTransactions : ℕ) : ℕ → ℕ → Uint256
  | 0, pos => vTxid.getD pos 0
  | height+1, pos =>
    let left := calcHash nTransactions height (pos*2)
    let right := if pos*2+1 < calcTreeWidth nTransactions height then
      calcHash nTransactions height (pos*2+1) else left
    nodeHash left right

/-- Whether a node is the parent of at least one matched transaction. -/
def parentOfMatch (nTransactions height pos : ℕ) : Bool :=
  (List.range' (pos*2^height) (min ((pos+1)*2^height) nTransactions-pos*2^height)).any fun p =>
    vMatch.getD p false

def traverseAndBuild : ℕ → ℕ → CPartialMerkleTree → CPartialMerkleTree
  | 0, pos, t =>
    { t with
      vBits := t.vBits ++ [parentOfMatch vMatch t.nTransactions 0 pos]
      vHash := t.vHash ++ [calcHash nodeHash vTxid t.nTransactions 0 pos] }
  | height+1, pos, t =>
    let fParentOfMatch := parentOfMatch vMatch t.nTransactions (height+1) pos
    let t := { t with vBits := t.vBits ++ [fParentOfMatch] }
    if !fParentOfMatch then
      { t with vHash := t.vHash ++ [calcHash nodeHash vTxid t.nTransactions (height+1) pos] }
    else
      let t := traverseAndBuild height (pos*2) t
      if pos*2+1 < calcTreeWidth t.nTransactions height then traverseAndBuild height (pos*2+1) t
      else t

/-- The constructor from the transactions of a block and the selection. -/
def CPartialMerkleTree.build : CPartialMerkleTree :=
  traverseAndBuild nodeHash vTxid vMatch (treeHeight vTxid.length) 0 ⟨vTxid.length, [], [], false⟩

end Build

section Serialize

/-- The bits in bytes, the lowest one first. -/
def packBits (vBits : List Bool) : List UInt8 :=
  (List.range vBits.length).foldl
    (fun vBytes p => vBytes.modify (p/8) fun b =>
      b ||| (if vBits.getD p false then 1 else 0) <<< UInt8.ofNat (p % 8))
    (List.replicate ((vBits.length+7)/8) 0)

def unpackBits (vBytes : List UInt8) : List Bool :=
  (List.range (vBytes.length*8)).map fun p =>
    vBytes.getD (p/8) 0 &&& 1 <<< UInt8.ofNat (p % 8) != 0

def CPartialMerkleTree.serialize (t : CPartialMerkleTree) : List UInt8 :=
  numberBytes 4 t.nTransactions ++ serializeVector serializeUint256 t.vHash ++
    serializeVector (fun b => [b]) (packBits t.vBits)

def unserializeByte : Unserializer UInt8
  | [] => none
  | b :: rest => some (b, rest)

def CPartialMerkleTree.unserialize : Unserializer CPartialMerkleTree := fun bytes => do
  let (nTransactions,rest) ← unserializeNumber 4 bytes
  let (vHash,rest) ← unserializeVector unserializeUint256 rest
  let (vBytes,rest) ← unserializeVector unserializeByte rest
  some (⟨nTransactions, unpackBits vBytes, vHash, false⟩, rest)

end Serialize

section Extract
variable (nodeHash : Uint256 → Uint256 → Uint256) (t : CPartialMerkleTree)

/-- What the traversal changes. -/
structure ExtractState where
  nBitsUsed : ℕ
  nHashUsed : ℕ
  vMatch : List Uint256
  fBad : Bool
  deriving DecidableEq, Repr

/-- Use the next stored hash; the one of a matched leaf is collected. -/
def takeHash (matched : Bool) (s : ExtractState) : Uint256 × ExtractState :=
  match t.vHash[s.nHashUsed]? with
  | none => (0, { s with fBad := true })
  | some hash => (hash, { s with
    nHashUsed := s.nHashUsed+1
    vMatch := if matched then s.vMatch ++ [hash] else s.vMatch })

def traverseAndExtract : ℕ → ℕ → ExtractState → Uint256 × ExtractState
  | 0, _, s => match t.vBits[s.nBitsUsed]? with
    | none => (0, { s with fBad := true })
    | some fParentOfMatch => takeHash t fParentOfMatch { s with nBitsUsed := s.nBitsUsed+1 }
  | height+1, pos, s => match t.vBits[s.nBitsUsed]? with
    | none => (0, { s with fBad := true })
    | some false => takeHash t false { s with nBitsUsed := s.nBitsUsed+1 }
    | some true =>
      let (left,s) := traverseAndExtract height (pos*2) { s with nBitsUsed := s.nBitsUsed+1 }
      let (right,s) := if pos*2+1 < calcTreeWidth t.nTransactions height then
        traverseAndExtract height (pos*2+1) s else (left,s)
      (nodeHash left right, s)

/-- The pairs the traversal hashes. -/
def traversePairs : ℕ → ℕ → ExtractState → List (Uint256 × Uint256)
  | 0, _, _ => []
  | height+1, pos, s => match t.vBits[s.nBitsUsed]? with
    | some true =>
      let s := { s with nBitsUsed := s.nBitsUsed+1 }
      let (left,s') := traverseAndExtract nodeHash t height (pos*2) s
      if pos*2+1 < calcTreeWidth t.nTransactions height then
        (left, (traverseAndExtract nodeHash t height (pos*2+1) s').1) ::
          (traversePairs height (pos*2) s ++ traversePairs height (pos*2+1) s')
      else (left,left) :: traversePairs height (pos*2) s
    | _ => []

/-- The exits of `ExtractMatches` that return 0. -/
inductive ExtractFailure
  | noTransactions
  | tooManyTransactions
  | tooManyHashes
  | tooFewBits
  | badTraversal
  | unusedBits
  | unusedHashes
  deriving DecidableEq, Repr

structure Extracted where
  root : Except ExtractFailure Uint256
  vMatch : List Uint256
  tree : CPartialMerkleTree

/-- The hash the caller gets. -/
def Extracted.returned (e : Extracted) : Uint256 :=
  match e.root with
  | .ok hashMerkleRoot => hashMerkleRoot
  | .error _ => 0

def CPartialMerkleTree.traverse : Uint256 × ExtractState :=
  traverseAndExtract nodeHash t (treeHeight t.nTransactions) 0 ⟨0, 0, [], t.fBad⟩

def CPartialMerkleTree.extractPairs : List (Uint256 × Uint256) :=
  traversePairs nodeHash t (treeHeight t.nTransactions) 0 ⟨0, 0, [], t.fBad⟩

def CPartialMerkleTree.extractMatches : Extracted :=
  if t.nTransactions = 0 then ⟨.error .noTransactions, [], t⟩
  -- 60 is the lower bound for the size of a serialized transaction
  else if t.nTransactions > maxBlockSize/60 then ⟨.error .tooManyTransactions, [], t⟩
  else if t.vHash.length > t.nTransactions then ⟨.error .tooManyHashes, [], t⟩
  else if t.vBits.length < t.vHash.length then ⟨.error .tooFewBits, [], t⟩
  else
    let (hashMerkleRoot,s) := t.traverse nodeHash
    let t' := { t with fBad := s.fBad }
    if s.fBad then ⟨.error .badTraversal, s.vMatch, t'⟩
    else if (s.nBitsUsed+7)/8 ≠ (t.vBits.length+7)/8 then ⟨.error .unusedBits, s.vMatch, t'⟩
    else if s.nHashUsed ≠ t.vHash.length then ⟨.error .unusedHashes, s.vMatch, t'⟩
    else ⟨.ok hashMerkleRoot, s.vMatch, t'⟩

end Extract

section Widths

theorem calcTreeWidth_eq {n h : ℕ} (hn : n ≤ 2^31) (hh : h ≤ 31) :
    calcTreeWidth n h = treeWidth n h := by
  have hpow : 2^h ≤ 2^31 := Nat.pow_le_pow_right (by norm_num) hh
  rw [calcTreeWidth, treeWidth, Nat.mod_eq_of_lt (by omega)]

theorem treeWidth_le_one {n h : ℕ} (hn : n ≤ 2^h) : treeWidth n h ≤ 1 := by
  by_contra hlt
  have := lt_treeWidth_iff.mp (not_le.mp hlt)
  omega

theorem rootHeight_treeHeight {n : ℕ} (hpos : 0 < n) (hn : n ≤ 2^31) :
    RootHeight n (treeHeight n) ∧ treeHeight n ≤ 31 := by
  have hloop : ∀ fuel h, fuel+h = 32 → (∀ i < h, 1 < treeWidth n i) →
      RootHeight n (treeHeightLoop n fuel h) ∧ treeHeightLoop n fuel h ≤ 31 := by
    intro fuel
    induction fuel with
    | zero =>
      intro h hh hbelow
      have := hbelow 31 (by omega)
      have := treeWidth_le_one hn
      omega
    | succ fuel ih =>
      intro h hh hbelow
      rw [treeHeightLoop, calcTreeWidth_eq hn (by omega)]
      split_ifs with hwide
      · apply ih (h+1) (by omega)
        intro i hi
        rcases Nat.lt_succ_iff_lt_or_eq.mp hi with hlt | rfl
        · exact hbelow i hlt
        · exact hwide
      · have := treeWidth_pos hpos h
        exact ⟨⟨by omega, hbelow⟩, by omega⟩
  exact hloop 32 0 rfl fun i hi => absurd hi (Nat.not_lt_zero i)

end Widths

section Sound
variable (nodeHash : Uint256 → Uint256 → Uint256) {t : CPartialMerkleTree}

/-- The leaves below a node. -/
def leavesBelow (leaves : List Uint256) (h pos : ℕ) : List Uint256 :=
  (leaves.drop (pos*2^h)).take (2^h)

theorem leavesBelow_succ (leaves : List Uint256) (h pos : ℕ) :
    leavesBelow leaves (h+1) pos =
      leavesBelow leaves h (pos*2) ++ leavesBelow leaves h (pos*2+1) := by
  rw [leavesBelow, leavesBelow, leavesBelow, show pos*2^(h+1) = pos*2*2^h by ring,
    show 2^(h+1) = 2^h+2^h by ring, List.take_add, List.drop_drop]
  congr 3
  ring

/-- Taking a hash collects at most that hash. -/
theorem takeHash_cases (matched : Bool) (s : ExtractState) :
    (takeHash t matched s).2.fBad = true ∨
    ((takeHash t matched s).2.fBad = s.fBad ∧ ∃ found,
      (takeHash t matched s).2.vMatch = s.vMatch ++ found ∧
      found = if matched then [(takeHash t matched s).1] else []) := by
  rw [takeHash]
  cases t.vHash[s.nHashUsed]? with
  | none => exact Or.inl rfl
  | some hash =>
    refine Or.inr ⟨rfl, _, ?_, rfl⟩
    cases matched with
    | true => rfl
    | false => exact (List.append_nil _).symm

section Descend
variable {h pos : ℕ} {s : ExtractState}

theorem traverse_both (hbit : t.vBits[s.nBitsUsed]? = some true)
    (hwide : pos*2+1 < calcTreeWidth t.nTransactions h) :
    let left := traverseAndExtract nodeHash t h (pos*2) { s with nBitsUsed := s.nBitsUsed+1 }
    let right := traverseAndExtract nodeHash t h (pos*2+1) left.2
    traverseAndExtract nodeHash t (h+1) pos s = (nodeHash left.1 right.1, right.2) ∧
    traversePairs nodeHash t (h+1) pos s = (left.1,right.1) ::
      (traversePairs nodeHash t h (pos*2) { s with nBitsUsed := s.nBitsUsed+1 } ++
        traversePairs nodeHash t h (pos*2+1) left.2) := by
  constructor
  · rw [traverseAndExtract, hbit]
    dsimp only
    rw [if_pos hwide]
  · rw [traversePairs, hbit]
    dsimp only
    rw [if_pos hwide]

theorem traverse_left (hbit : t.vBits[s.nBitsUsed]? = some true)
    (hwide : ¬ pos*2+1 < calcTreeWidth t.nTransactions h) :
    let left := traverseAndExtract nodeHash t h (pos*2) { s with nBitsUsed := s.nBitsUsed+1 }
    traverseAndExtract nodeHash t (h+1) pos s = (nodeHash left.1 left.1, left.2) ∧
    traversePairs nodeHash t (h+1) pos s = (left.1,left.1) ::
      traversePairs nodeHash t h (pos*2) { s with nBitsUsed := s.nBitsUsed+1 } := by
  constructor
  · rw [traverseAndExtract, hbit]
    dsimp only
    rw [if_neg hwide]
  · rw [traversePairs, hbit]
    dsimp only
    rw [if_neg hwide]

end Descend

/-- What a traversal that goes well collects below a node whose hash is one of the real tree. -/
structure Collects (leaves : List Uint256) (t : CPartialMerkleTree) (h pos : ℕ) (s : ExtractState)
    (r : Uint256 × ExtractState) : Prop where
  good : s.fBad = false
  found : ∃ found, r.2.vMatch = s.vMatch ++ found ∧
    ∀ q, (levelAt nodeHash leaves h)[q]? = some r.1 →
      found ⊆ leaves ∧ (t.nTransactions = leaves.length → q = pos →
        found.Sublist (leavesBelow leaves h pos))

theorem takeHash_collects {leaves : List Uint256} {h pos : ℕ} {matched : Bool} {s s' : ExtractState}
    (hleaf : matched = true → h = 0) (hmatch : s'.vMatch = s.vMatch) (hbad : s'.fBad = s.fBad)
    (hgood : (takeHash t matched s').2.fBad = false) :
    Collects nodeHash leaves t h pos s (takeHash t matched s') := by
  rcases @takeHash_cases t matched s' with hfail | ⟨hsame,found,hfound,hone⟩
  · rw [hgood] at hfail
    exact absurd hfail Bool.false_ne_true
  · refine ⟨by rw [← hbad, ← hsame, hgood], found, by rw [hfound, hmatch], ?_⟩
    intro q hq
    cases matched with
    | false =>
      obtain rfl : found = [] := hone
      exact ⟨List.nil_subset _, fun _ _ => List.nil_sublist _⟩
    | true =>
      obtain rfl : h = 0 := hleaf rfl
      obtain rfl : found = [(takeHash t true s').1] := hone
      refine ⟨List.cons_subset.mpr ⟨List.mem_of_getElem? hq, List.nil_subset _⟩, ?_⟩
      rintro - rfl
      have hone : leavesBelow leaves 0 q = [(takeHash t true s').1] := by
        rw [leavesBelow, pow_zero, Nat.mul_one, List.take_one, List.head?_drop]
        exact congrArg Option.toList hq
      rw [hone]

/-- As long as no two of the hashed pairs collide, a traversal meets the nodes of the real tree. -/
theorem traverse_collects {leaves : List Uint256} {H : ℕ} {pairs : List (Uint256 × Uint256)}
    (hn : t.nTransactions ≤ 2^31) (hH : H ≤ 31) (hfree : CollisionFree nodeHash pairs)
    (hsub : ∀ i < H, pairUp (levelAt nodeHash leaves i) ⊆ pairs) :
    ∀ h ≤ H, ∀ pos s, traversePairs nodeHash t h pos s ⊆ pairs →
      (traverseAndExtract nodeHash t h pos s).2.fBad = false →
      Collects nodeHash leaves t h pos s (traverseAndExtract nodeHash t h pos s) := by
  intro h
  induction h with
  | zero =>
    intro _ pos s _ hgood
    cases hbit : t.vBits[s.nBitsUsed]? with
    | none =>
      rw [traverseAndExtract, hbit] at hgood
      exact absurd hgood.symm Bool.false_ne_true
    | some fParentOfMatch =>
      rw [traverseAndExtract, hbit] at hgood ⊢
      exact takeHash_collects nodeHash (fun _ => rfl) rfl rfl hgood
  | succ h ih =>
    intro hle pos s hpairs hgood
    cases hbit : t.vBits[s.nBitsUsed]? with
    | none =>
      rw [traverseAndExtract, hbit] at hgood
      exact absurd hgood.symm Bool.false_ne_true
    | some fParentOfMatch =>
      cases fParentOfMatch with
      | false =>
        rw [traverseAndExtract, hbit] at hgood ⊢
        exact takeHash_collects nodeHash (fun h => absurd h Bool.false_ne_true) rfl rfl hgood
      | true =>
        have hwidth : calcTreeWidth t.nTransactions h = treeWidth t.nTransactions h :=
          calcTreeWidth_eq hn (by omega)
        by_cases hwide : pos*2+1 < calcTreeWidth t.nTransactions h
        · obtain ⟨heq,hhashed⟩ := traverse_both nodeHash hbit hwide
          rw [hhashed] at hpairs
          obtain ⟨hpair,hpairs⟩ := List.cons_subset.mp hpairs
          obtain ⟨hpairsL,hpairsR⟩ := List.append_subset.mp hpairs
          rw [heq] at hgood ⊢
          obtain ⟨hgoodL,right,hright,hrightSub⟩ := ih (by omega) _ _ hpairsR hgood
          obtain ⟨hgood0,left,hleft,hleftSub⟩ := ih (by omega) _ _ hpairsL hgoodL
          refine ⟨hgood0, left ++ right, ?_, fun q hq => ?_⟩
          · rw [← List.append_assoc]
            exact hright.trans (congrArg (· ++ right) hleft)
          · obtain ⟨l,hl,hmem,hhash⟩ := children_of_node hq
            -- free of collisions, a node has the children it was built from
            have hchildren := hfree _ (hsub h (by omega) hmem) _ hpair hhash
            obtain ⟨rfl,hr⟩ := Prod.mk.inj hchildren
            obtain ⟨hinL,hposL⟩ := hleftSub (2*q) hl
            cases hsome : (levelAt nodeHash leaves h)[2*q+1]? with
            | none =>
              -- a lone left child is paired with itself
              rw [hsome, Option.getD_none] at hr
              rw [hr] at hl
              obtain ⟨hinR,-⟩ := hrightSub (2*q) hl
              refine ⟨List.append_subset.mpr ⟨hinL, hinR⟩, ?_⟩
              rintro hsame rfl
              rw [List.getElem?_eq_none_iff, levelAt_length, ← hsame, ← hwidth] at hsome
              omega
            | some r =>
              rw [hsome, Option.getD_some] at hr
              rw [hr] at hsome
              obtain ⟨hinR,hposR⟩ := hrightSub (2*q+1) hsome
              refine ⟨List.append_subset.mpr ⟨hinL, hinR⟩, ?_⟩
              rintro hsame rfl
              rw [leavesBelow_succ]
              exact (hposL hsame (by ring)).append (hposR hsame (by ring))
        · obtain ⟨heq,hhashed⟩ := traverse_left nodeHash hbit hwide
          rw [hhashed] at hpairs
          obtain ⟨hpair,hpairsL⟩ := List.cons_subset.mp hpairs
          rw [heq] at hgood ⊢
          obtain ⟨hgood0,left,hleft,hleftSub⟩ := ih (by omega) _ _ hpairsL hgood
          refine ⟨hgood0, left, hleft, fun q hq => ?_⟩
          obtain ⟨l,hl,hmem,hhash⟩ := children_of_node hq
          have hchildren := hfree _ (hsub h (by omega) hmem) _ hpair hhash
          obtain ⟨rfl,-⟩ := Prod.mk.inj hchildren
          obtain ⟨hinL,hposL⟩ := hleftSub (2*q) hl
          refine ⟨hinL, ?_⟩
          rintro hsame rfl
          rw [leavesBelow_succ]
          exact (hposL hsame (by ring)).trans (List.sublist_append_left _ _)

/-- A root that is returned went through every check. -/
theorem extractMatches_ok {hashMerkleRoot : Uint256}
    (hok : (t.extractMatches nodeHash).root = .ok hashMerkleRoot) :
    0 < t.nTransactions ∧ t.nTransactions ≤ maxBlockSize/60 ∧
    (t.traverse nodeHash).1 = hashMerkleRoot ∧ (t.traverse nodeHash).2.fBad = false ∧
    (t.extractMatches nodeHash).vMatch = (t.traverse nodeHash).2.vMatch := by
  rw [CPartialMerkleTree.extractMatches] at hok ⊢
  generalize t.traverse nodeHash = r at hok ⊢
  obtain ⟨root,s⟩ := r
  dsimp only at hok ⊢
  split_ifs at hok ⊢ with hzero hmany hhashes hbits hbad hunused hleft
  refine ⟨Nat.pos_of_ne_zero hzero, not_lt.mp hmany, Except.ok.inj hok, ?_, rfl⟩
  exact Bool.eq_false_iff.mpr hbad

/-- A partial merkle tree that yields the root of a list, being of the height of its tree, selects
transactions of that list only, and in their order if the number of transactions is right. -/
theorem extractMatches_sound (t : CPartialMerkleTree) (leaves : List Uint256) (hne : leaves ≠ [])
    (hheight : treeHeight t.nTransactions+1 = merkleDepth nodeHash leaves)
    (hfree : CollisionFree nodeHash (merklePairs nodeHash leaves ++ t.extractPairs nodeHash))
    (hroot : (t.extractMatches nodeHash).returned = buildMerkleTree nodeHash leaves)
    (hzero : buildMerkleTree nodeHash leaves ≠ 0) :
    (∀ txid ∈ (t.extractMatches nodeHash).vMatch, txid ∈ leaves) ∧
    (t.nTransactions = leaves.length → (t.extractMatches nodeHash).vMatch.Sublist leaves) := by
  obtain ⟨h,hrootHeight,hdepth,htop,hsub⟩ := merkle_tree_spec nodeHash hne
  obtain rfl : treeHeight t.nTransactions = h := by omega
  have hok : (t.extractMatches nodeHash).root = .ok (buildMerkleTree nodeHash leaves) := by
    rw [Extracted.returned] at hroot
    cases hres : (t.extractMatches nodeHash).root with
    | error e =>
      rw [hres] at hroot
      exact absurd hroot.symm hzero
    | ok r =>
      rw [hres] at hroot
      exact congrArg Except.ok hroot
  obtain ⟨hpos,hmax,hvalue,hgood,hmatch⟩ := extractMatches_ok nodeHash hok
  have hn : t.nTransactions ≤ 2^31 := hmax.trans (by norm_num [maxBlockSize])
  obtain ⟨-,hH⟩ := rootHeight_treeHeight hpos hn
  obtain ⟨-,found,hfound,hcollect⟩ := traverse_collects nodeHash hn hH hfree
    (fun i hi => List.subset_append_of_subset_left _ (hsub i hi)) _ le_rfl 0 _
    (List.subset_append_right _ _) hgood
  obtain ⟨hin,hsublist⟩ := hcollect 0 (by rw [htop]; exact congrArg some hvalue.symm)
  have hall : (t.extractMatches nodeHash).vMatch = found := hmatch.trans hfound
  rw [hall]
  refine ⟨fun txid hmem => hin hmem, fun hsame => (hsublist hsame rfl).trans ?_⟩
  exact (List.take_sublist _ _).trans (List.drop_sublist _ _)

/-- A received tree that shows the second of three transactions. -/
def receivedTree : CPartialMerkleTree := ⟨3, [true,true,false,true,false,false,false,false], [1,2,15], false⟩

theorem extractMatches_sound_received :
    (receivedTree.extractMatches smallExternals.nodeHash).vMatch.Sublist [1,2,3] := by
  obtain ⟨-,hsublist⟩ := extractMatches_sound smallExternals.nodeHash receivedTree [1,2,3] (by decide)
    (by decide +kernel) (by decide +kernel) (by decide +kernel) (by decide +kernel)
  exact hsublist rfl

end Sound

end Candypool.Core
