import Candypool.Core.PartialMerkleTree
import Mathlib.Data.List.GetD
import Mathlib.Data.Nat.Bitwise

/-! A partial merkle tree that was built from a block, sent and received yields the root of the block
and the selected transactions. -/
namespace Candypool.Core
open Candypool.Prime Candypool.Lib

section Bits

theorem shift_toNat {m : ℕ} (hm : m < 8) : ((1 : UInt8) <<< UInt8.ofNat m).toNat = 2^m := by
  revert m
  decide

theorem testBit_or_shift (b : UInt8) (bit : Bool) {m : ℕ} (hm : m < 8) (j : ℕ) :
    (b ||| (if bit then 1 else 0) <<< UInt8.ofNat m).toNat.testBit j =
      (b.toNat.testBit j || (bit && decide (m = j))) := by
  rw [UInt8.toNat_or, Nat.testBit_or]
  cases bit with
  | true => rw [if_pos rfl, shift_toNat hm, Nat.testBit_two_pow, Bool.true_and]
  | false =>
    rw [if_neg Bool.false_ne_true, UInt8.zero_shiftLeft, UInt8.toNat_zero, Nat.zero_testBit,
      Bool.false_and]

theorem and_shift_ne_zero (b : UInt8) {m : ℕ} (hm : m < 8) :
    (b &&& 1 <<< UInt8.ofNat m != 0) = b.toNat.testBit m := by
  have hand : (b &&& 1 <<< UInt8.ofNat m).toNat = (b.toNat.testBit m).toNat*2^m := by
    rw [UInt8.toNat_and, shift_toNat hm, Nat.and_two_pow]
  cases hbit : b.toNat.testBit m with
  | true =>
    rw [hbit, Bool.toNat_true, Nat.one_mul] at hand
    apply bne_iff_ne.mpr
    intro hzero
    rw [hzero, UInt8.toNat_zero] at hand
    have := Nat.two_pow_pos m
    omega
  | false =>
    rw [hbit, Bool.toNat_false, Nat.zero_mul] at hand
    rw [UInt8.toNat_inj.mp (hand.trans UInt8.toNat_zero.symm)]
    rfl

/-- The bits that are set after the first `k` steps of packing. -/
theorem packBits_step (vBits : List Bool) (size k : ℕ) (hk : k ≤ size*8) :
    let packed := (List.range k).foldl
      (fun vBytes p => vBytes.modify (p/8) fun b =>
        b ||| (if vBits.getD p false then 1 else 0) <<< UInt8.ofNat (p % 8))
      (List.replicate size 0)
    packed.length = size ∧ ∀ i < size, ∀ j < 8, (packed.getD i 0).toNat.testBit j =
      (decide (8*i+j < k) && vBits.getD (8*i+j) false) := by
  induction k with
  | zero =>
    refine ⟨List.length_replicate, fun i hi j _ => ?_⟩
    have hzero : (List.replicate size (0 : UInt8)).getD i 0 = 0 := by
      rw [List.getD_eq_getElem _ _ (by rwa [List.length_replicate]), List.getElem_replicate]
    rw [List.range_zero, List.foldl_nil, hzero, UInt8.toNat_zero, Nat.zero_testBit,
      decide_eq_false (Nat.not_lt_zero _), Bool.false_and]
  | succ k ih =>
    obtain ⟨hlen,hbits⟩ := ih (by omega)
    rw [List.range_succ, List.foldl_append, List.foldl_cons, List.foldl_nil]
    dsimp only at hlen hbits ⊢
    generalize (List.range k).foldl _ _ = packed at hlen hbits ⊢
    refine ⟨by rw [List.length_modify, hlen], fun i hi j hj => ?_⟩
    have hi' : i < packed.length := by rwa [hlen]
    have hbit := hbits i hi j hj
    rw [List.getD_eq_getElem _ _ hi'] at hbit
    rw [List.getD_eq_getElem _ _ (by rwa [List.length_modify]), List.getElem_modify]
    -- the new bit goes into the byte it belongs to, the others stay
    by_cases hbyte : k/8 = i
    · rw [if_pos hbyte, testBit_or_shift _ _ (Nat.mod_lt _ (by norm_num)), hbit]
      by_cases hsame : 8*i+j = k
      · rw [hsame, decide_eq_false (lt_irrefl k), decide_eq_true (show k % 8 = j by omega),
          decide_eq_true (Nat.lt_succ_self k), Bool.false_and, Bool.false_or, Bool.and_true,
          Bool.true_and]
      · rw [decide_eq_false (show ¬ k % 8 = j by omega), Bool.and_false, Bool.or_false]
        congr 1
        exact decide_eq_decide.mpr (by omega)
    · rw [if_neg hbyte, hbit]
      congr 1
      exact decide_eq_decide.mpr (by omega)

theorem packBits_length (vBits : List Bool) : (packBits vBits).length = (vBits.length+7)/8 :=
  (packBits_step vBits ((vBits.length+7)/8) vBits.length (by omega)).1

/-- The bits come back with the padding of the last byte. -/
theorem unpackBits_packBits (vBits : List Bool) : unpackBits (packBits vBits) =
    vBits ++ List.replicate ((vBits.length+7)/8*8-vBits.length) false := by
  obtain ⟨hlen,hbits⟩ := packBits_step vBits ((vBits.length+7)/8) vBits.length (by omega)
  apply List.ext_getElem
  · rw [unpackBits, List.length_map, List.length_range, packBits_length, List.length_append,
      List.length_replicate]
    omega
  · intro p hp hp'
    rw [unpackBits, List.length_map, List.length_range, packBits_length] at hp
    have hbit := hbits (p/8) (by omega) (p % 8) (Nat.mod_lt _ (by norm_num))
    rw [Nat.div_add_mod] at hbit
    simp only [unpackBits, List.getElem_map, List.getElem_range]
    rw [and_shift_ne_zero _ (Nat.mod_lt _ (by norm_num)), packBits, hbit]
    by_cases hin : p < vBits.length
    · rw [List.getElem_append_left hin, decide_eq_true hin, Bool.true_and,
        List.getD_eq_getElem _ _ hin]
    · rw [List.getElem_append_right (by omega), List.getElem_replicate, decide_eq_false hin,
        Bool.false_and]

theorem unserialize_serialize (t : CPartialMerkleTree) (hn : t.nTransactions < 2^32)
    (hhash : t.vHash.length ≤ maxSize) (hbits : t.vBits.length ≤ maxSize) (rest : List UInt8) :
    CPartialMerkleTree.unserialize (t.serialize ++ rest) =
      some (⟨t.nTransactions, unpackBits (packBits t.vBits), t.vHash, false⟩, rest) := by
  have hnumber := @unserializeNumber_numberBytes 4 t.nTransactions (lt_of_lt_of_eq hn (by norm_num))
  have hvHash := @unserializeVector_serialize _ _ _ unserializeUint256_serialize t.vHash hhash
  have hbytes : (packBits t.vBits).length ≤ maxSize := by
    rw [packBits_length]
    omega
  have hvBytes := @unserializeVector_serialize UInt8 (fun b => [b]) unserializeByte
    (fun _ _ => rfl) (packBits t.vBits) hbytes
  rw [CPartialMerkleTree.serialize, List.append_assoc, List.append_assoc,
    CPartialMerkleTree.unserialize]
  simp [hnumber, hvHash, hvBytes]

end Bits

section Subtrees

/-- The positions of the leaves below a node. -/
def nodeRange (n h pos : ℕ) : List ℕ :=
  List.range' (pos*2^h) (min ((pos+1)*2^h) n-pos*2^h)

theorem nodeRange_length_pos {n h pos : ℕ} (hpos : pos < treeWidth n h) :
    0 < (nodeRange n h pos).length := by
  have := lt_treeWidth_iff.mp hpos
  have := Nat.two_pow_pos h
  rw [nodeRange, List.length_range', Nat.add_mul]
  omega

theorem nodeRange_zero {n pos : ℕ} (hpos : pos < n) : nodeRange n 0 pos = [pos] := by
  rw [nodeRange, pow_zero, Nat.mul_one, Nat.mul_one, Nat.min_eq_left hpos,
    show pos+1-pos = 1 by omega]
  rfl

theorem nodeRange_left {n h pos : ℕ} (hwide : ¬ pos*2+1 < treeWidth n h) :
    nodeRange n (h+1) pos = nodeRange n h (pos*2) := by
  have hend : n ≤ (pos*2+1)*2^h := not_lt.mp fun hlt => hwide (lt_treeWidth_iff.mpr hlt)
  have hpow : (pos+1)*2^(h+1) = (pos*2+1)*2^h+2^h := by ring
  rw [nodeRange, nodeRange, hpow, Nat.min_eq_right hend,
    Nat.min_eq_right (hend.trans (Nat.le_add_right _ _)),
    show pos*2^(h+1) = pos*2*2^h by ring]

theorem nodeRange_both {n h pos : ℕ} (hwide : pos*2+1 < treeWidth n h) :
    nodeRange n (h+1) pos = nodeRange n h (pos*2) ++ nodeRange n h (pos*2+1) := by
  have hend : (pos*2+1)*2^h < n := lt_treeWidth_iff.mp hwide
  have hpow : (pos*2+1)*2^h = pos*2*2^h+2^h := by ring
  have hpow' : (pos+1)*2^(h+1) = pos*2*2^h+2^h+2^h := by ring
  have hpow'' : (pos*2+1+1)*2^h = pos*2*2^h+2^h+2^h := by ring
  rw [nodeRange, nodeRange, nodeRange, Nat.min_eq_left hend.le, hpow, Nat.add_sub_cancel_left,
    List.range'_append_1, show pos*2^(h+1) = pos*2*2^h by ring, hpow', hpow'']
  rw [hpow] at hend
  generalize pos*2*2^h = first at hend ⊢
  generalize 2^h = width at hend ⊢
  congr 1
  omega

variable (nodeHash : Uint256 → Uint256 → Uint256) (vTxid : List Uint256) (vMatch : List Bool)

/-- The matched transactions below a node. -/
def matchedBelow (n h pos : ℕ) : List Uint256 :=
  ((nodeRange n h pos).filter fun p => vMatch.getD p false).map fun p => vTxid.getD p 0

/-- The bits the builder stores for a node and what is explored below it. -/
def nodeBits (n : ℕ) : ℕ → ℕ → List Bool
  | 0, pos => [parentOfMatch vMatch n 0 pos]
  | h+1, pos =>
    if !parentOfMatch vMatch n (h+1) pos then [false]
    else true :: (nodeBits n h (pos*2) ++
      if pos*2+1 < calcTreeWidth n h then nodeBits n h (pos*2+1) else [])

/-- The hashes the builder stores for a node and what is explored below it. -/
def nodeHashes (n : ℕ) : ℕ → ℕ → List Uint256
  | 0, pos => [calcHash nodeHash vTxid n 0 pos]
  | h+1, pos =>
    if !parentOfMatch vMatch n (h+1) pos then [calcHash nodeHash vTxid n (h+1) pos]
    else nodeHashes n h (pos*2) ++
      if pos*2+1 < calcTreeWidth n h then nodeHashes n h (pos*2+1) else []

theorem traverseAndBuild_eq (h pos : ℕ) (t : CPartialMerkleTree) :
    traverseAndBuild nodeHash vTxid vMatch h pos t =
      { t with
        vBits := t.vBits ++ nodeBits vMatch t.nTransactions h pos
        vHash := t.vHash ++ nodeHashes nodeHash vTxid vMatch t.nTransactions h pos } := by
  induction h generalizing pos t with
  | zero => rfl
  | succ h ih =>
    rw [traverseAndBuild, nodeBits, nodeHashes]
    dsimp only
    cases hparent : parentOfMatch vMatch t.nTransactions (h+1) pos with
    | false => rfl
    | true =>
      simp only [Bool.not_true, Bool.false_eq_true, if_false, ih]
      split_ifs with hwide
      · rw [List.append_assoc, List.append_assoc, List.append_assoc, List.singleton_append]
      · rw [List.append_nil, List.append_nil, List.append_assoc, List.singleton_append]

variable {nodeHash vTxid vMatch}

theorem matchedBelow_nil {n h pos : ℕ} (hparent : parentOfMatch vMatch n h pos = false) :
    matchedBelow vTxid vMatch n h pos = [] := by
  rw [matchedBelow, List.map_eq_nil_iff, List.filter_eq_nil_iff]
  exact fun p hp => Bool.eq_false_iff.mp (List.any_eq_false.mp hparent p hp |> Bool.eq_false_iff.mpr)

theorem matchedBelow_zero {n pos : ℕ} (hpos : pos < n) : matchedBelow vTxid vMatch n 0 pos =
    if parentOfMatch vMatch n 0 pos then [calcHash nodeHash vTxid n 0 pos] else [] := by
  have hbit : parentOfMatch vMatch n 0 pos = vMatch.getD pos false := by
    change (nodeRange n 0 pos).any _ = _
    rw [nodeRange_zero hpos, List.any_cons, List.any_nil, Bool.or_false]
  rw [hbit, matchedBelow, nodeRange_zero hpos, calcHash]
  cases hmatched : vMatch.getD pos false with
  | false => simp only [List.filter_cons, hmatched, List.filter_nil]; rfl
  | true => simp only [List.filter_cons, hmatched, List.filter_nil]; rfl

theorem matchedBelow_both {n h pos : ℕ} (hwide : pos*2+1 < treeWidth n h) :
    matchedBelow vTxid vMatch n (h+1) pos =
      matchedBelow vTxid vMatch n h (pos*2) ++ matchedBelow vTxid vMatch n h (pos*2+1) := by
  rw [matchedBelow, nodeRange_both hwide, List.filter_append, List.map_append]
  rfl

theorem matchedBelow_left {n h pos : ℕ} (hwide : ¬ pos*2+1 < treeWidth n h) :
    matchedBelow vTxid vMatch n (h+1) pos = matchedBelow vTxid vMatch n h (pos*2) := by
  rw [matchedBelow, nodeRange_left hwide]
  rfl

/-- The hash the builder computes is the node of the tree. -/
theorem levelAt_calcHash {h pos : ℕ} (hn : vTxid.length ≤ 2^31) (hh : h ≤ 31)
    (hpos : pos < treeWidth vTxid.length h) : (levelAt nodeHash vTxid h)[pos]? =
      some (calcHash nodeHash vTxid vTxid.length h pos) := by
  induction h generalizing pos with
  | zero =>
    rw [treeWidth_zero] at hpos
    rw [levelAt, calcHash, List.getElem?_eq_getElem hpos, List.getD_eq_getElem _ _ hpos]
  | succ h ih =>
    rw [treeWidth_succ] at hpos
    have hleft := @ih (pos*2) (by omega) (by omega)
    rw [levelAt_succ_getElem?, Nat.mul_comm 2 pos, hleft, Option.map_some, calcHash,
      calcTreeWidth_eq hn (by omega)]
    split_ifs with hwide
    · rw [ih (by omega) hwide, Option.getD_some]
    · rw [List.getElem?_eq_none (by rw [levelAt_length]; omega), Option.getD_none]

/-- One hash for at least one leaf, and one bit for every hash. -/
theorem nodeHashes_length {n h pos : ℕ} (hn : n ≤ 2^31) (hh : h ≤ 31) (hpos : pos < treeWidth n h) :
    (nodeHashes nodeHash vTxid vMatch n h pos).length ≤ (nodeRange n h pos).length ∧
    (nodeHashes nodeHash vTxid vMatch n h pos).length ≤ (nodeBits vMatch n h pos).length := by
  induction h generalizing pos with
  | zero => exact ⟨nodeRange_length_pos hpos, le_rfl⟩
  | succ h ih =>
    have hleft : pos*2 < treeWidth n h := by
      rw [treeWidth_succ] at hpos
      omega
    obtain ⟨hrange,hbits⟩ := ih (by omega) hleft
    rw [nodeHashes, nodeBits, calcTreeWidth_eq hn (by omega)]
    cases parentOfMatch vMatch n (h+1) pos with
    | false => exact ⟨nodeRange_length_pos hpos, le_rfl⟩
    | true =>
      simp only [Bool.not_true, Bool.false_eq_true, if_false]
      split_ifs with hwide
      · obtain ⟨hrange',hbits'⟩ := ih (by omega) hwide
        rw [nodeRange_both hwide, List.length_append, List.length_append, List.length_cons,
          List.length_append]
        omega
      · rw [nodeRange_left hwide, List.length_append, List.length_nil, List.length_cons,
          List.length_append]
        omega

theorem getElem?_of_drop {α : Type} {l rest : List α} {k : ℕ} {a : α}
    (hdrop : l.drop k = a :: rest) : l[k]? = some a := by
  rw [← List.head?_drop, hdrop]
  rfl

theorem drop_of_drop {α : Type} {l first rest : List α} {k : ℕ} (hdrop : l.drop k = first ++ rest) :
    l.drop (k+first.length) = rest := by
  rw [← List.drop_drop, hdrop, List.drop_left]

theorem takeHash_of_drop {t : CPartialMerkleTree} {hash : Uint256} {rest found : List Uint256}
    {nBitsUsed nHashUsed : ℕ} {fBad : Bool} (hdrop : t.vHash.drop nHashUsed = hash :: rest)
    (matched : Bool) : takeHash t matched ⟨nBitsUsed, nHashUsed, found, fBad⟩ =
      (hash, ⟨nBitsUsed, nHashUsed+1, if matched then found ++ [hash] else found, fBad⟩) := by
  rw [takeHash, getElem?_of_drop hdrop]

/-- The extractor uses up what the builder stored for a node, and finds the node's hash and the
matched transactions below it. -/
theorem traverseAndExtract_built {t : CPartialMerkleTree} {h pos : ℕ} {s : ExtractState}
    {bits : List Bool} {hashes : List Uint256} (hn : t.nTransactions ≤ 2^31) (hh : h ≤ 31)
    (hpos : pos < treeWidth t.nTransactions h)
    (hbits : t.vBits.drop s.nBitsUsed = nodeBits vMatch t.nTransactions h pos ++ bits)
    (hhashes : t.vHash.drop s.nHashUsed =
      nodeHashes nodeHash vTxid vMatch t.nTransactions h pos ++ hashes) :
    traverseAndExtract nodeHash t h pos s = (calcHash nodeHash vTxid t.nTransactions h pos,
      ⟨s.nBitsUsed+(nodeBits vMatch t.nTransactions h pos).length,
        s.nHashUsed+(nodeHashes nodeHash vTxid vMatch t.nTransactions h pos).length,
        s.vMatch ++ matchedBelow vTxid vMatch t.nTransactions h pos, s.fBad⟩) := by
  induction h generalizing pos s bits hashes with
  | zero =>
    rw [treeWidth_zero] at hpos
    rw [traverseAndExtract, getElem?_of_drop hbits]
    dsimp only
    rw [takeHash_of_drop hhashes, @matchedBelow_zero nodeHash _ _ _ _ hpos]
    cases parentOfMatch vMatch t.nTransactions 0 pos with
    | false => rw [if_neg Bool.false_ne_true, if_neg Bool.false_ne_true, List.append_nil]; rfl
    | true => rfl
  | succ h ih =>
    have hleft : pos*2 < treeWidth t.nTransactions h := by
      rw [treeWidth_succ] at hpos
      omega
    have hwidth : calcTreeWidth t.nTransactions h = treeWidth t.nTransactions h :=
      calcTreeWidth_eq hn (by omega)
    rw [nodeBits] at hbits ⊢
    rw [nodeHashes] at hhashes ⊢
    -- without a match below, one hash stands for the node
    cases hparent : parentOfMatch vMatch t.nTransactions (h+1) pos with
    | false =>
      simp only [hparent, Bool.not_false, if_true, List.singleton_append] at hbits hhashes ⊢
      rw [traverseAndExtract, getElem?_of_drop hbits]
      dsimp only
      rw [takeHash_of_drop hhashes, matchedBelow_nil hparent, List.append_nil]
      rfl
    | true =>
      simp only [hparent, Bool.not_true, Bool.false_eq_true, if_false, List.cons_append] at hbits hhashes ⊢
      have hbit := getElem?_of_drop hbits
      have hrest : t.vBits.drop (s.nBitsUsed+1) = nodeBits vMatch t.nTransactions h (pos*2) ++
          ((if pos*2+1 < calcTreeWidth t.nTransactions h then
            nodeBits vMatch t.nTransactions h (pos*2+1) else []) ++ bits) := by
        rw [← List.append_assoc]
        exact @drop_of_drop _ _ [true] _ _ hbits
      rw [List.append_assoc] at hhashes
      -- the left child first, then the right one if the level is that wide
      have hsub := @ih (pos*2) { s with nBitsUsed := s.nBitsUsed+1 } _ _ (by omega) hleft hrest hhashes
      by_cases hwide : pos*2+1 < calcTreeWidth t.nTransactions h
      · obtain ⟨heq,-⟩ := traverse_both nodeHash hbit hwide
        rw [if_pos hwide] at hrest hhashes
        rw [hwidth] at hwide
        have hsub' := @ih (pos*2+1) ⟨s.nBitsUsed+1+(nodeBits vMatch t.nTransactions h (pos*2)).length,
          s.nHashUsed+(nodeHashes nodeHash vTxid vMatch t.nTransactions h (pos*2)).length,
          s.vMatch ++ matchedBelow vTxid vMatch t.nTransactions h (pos*2), s.fBad⟩ _ _ (by omega) hwide
          (drop_of_drop hrest) (drop_of_drop hhashes)
        rw [heq, hsub, hsub', calcHash, hwidth, if_pos hwide, if_pos hwide, if_pos hwide,
          matchedBelow_both hwide, List.length_cons, List.length_append, List.length_append,
          List.append_assoc]
        dsimp only
        congr 2 <;> omega
      · obtain ⟨heq,-⟩ := traverse_left nodeHash hbit hwide
        rw [hwidth] at hwide
        rw [heq, hsub, calcHash, hwidth, if_neg hwide, if_neg hwide, if_neg hwide,
          matchedBelow_left hwide, List.length_cons, List.append_nil, List.append_nil]
        dsimp only
        congr 2
        omega

theorem nodeBits_length (n h pos : ℕ) : (nodeBits vMatch n h pos).length < 2^(h+1) := by
  induction h generalizing pos with
  | zero => exact Nat.one_lt_two
  | succ h ih =>
    have hleft := ih (pos*2)
    have hright := ih (pos*2+1)
    rw [nodeBits, pow_succ]
    have := Nat.two_pow_pos (h+1)
    split_ifs with hparent hwide
    · rw [List.length_singleton]
      omega
    · rw [List.length_cons, List.length_append]
      omega
    · rw [List.length_cons, List.append_nil]
      omega

end Subtrees

section RoundTrip

/-- The matched transactions in the order of the block. -/
def matchedTxids (vTxid : List Uint256) (vMatch : List Bool) : List Uint256 :=
  ((vTxid.zip vMatch).filter Prod.snd).map Prod.fst

theorem matchedBelow_root {vTxid : List Uint256} {vMatch : List Bool}
    (hlen : vMatch.length = vTxid.length) {h : ℕ} (hroot : RootHeight vTxid.length h) :
    matchedBelow vTxid vMatch vTxid.length h 0 = matchedTxids vTxid vMatch := by
  have hpow : vTxid.length ≤ 2^h := by
    by_contra hlt
    have := lt_treeWidth_iff.mpr (show 1*2^h < vTxid.length by omega)
    have := hroot.single
    omega
  have hzip : vTxid.zip vMatch = (List.range vTxid.length).map fun p =>
      (vTxid.getD p 0, vMatch.getD p false) := by
    apply List.ext_getElem
    · rw [List.length_zip, hlen, min_self, List.length_map, List.length_range]
    · intro p hp hp'
      rw [List.length_map, List.length_range] at hp'
      rw [List.getElem_zip, List.getElem_map, List.getElem_range, List.getD_eq_getElem _ _ hp',
        List.getD_eq_getElem _ _ (by omega)]
  have hrange : nodeRange vTxid.length h 0 = List.range vTxid.length := by
    rw [nodeRange, Nat.zero_mul, Nat.zero_add, Nat.one_mul, Nat.min_eq_right hpow, Nat.sub_zero,
      List.range_eq_range']
  rw [matchedBelow, matchedTxids, hzip, hrange, List.filter_map, List.map_map]
  rfl

theorem build_eq (nodeHash : Uint256 → Uint256 → Uint256) (vTxid : List Uint256)
    (vMatch : List Bool) : CPartialMerkleTree.build nodeHash vTxid vMatch =
      ⟨vTxid.length, nodeBits vMatch vTxid.length (treeHeight vTxid.length) 0,
        nodeHashes nodeHash vTxid vMatch vTxid.length (treeHeight vTxid.length) 0, false⟩ := by
  rw [CPartialMerkleTree.build, traverseAndBuild_eq]
  rfl

/-- The tree of a list, sent and received, gives back the root of the list and the transactions that
were selected; no check of the extractor fails. -/
theorem partial_merkle_tree_round_trip (nodeHash : Uint256 → Uint256 → Uint256)
    (vTxid : List Uint256) (vMatch : List Bool) (hne : vTxid ≠ [])
    (hlen : vMatch.length = vTxid.length) (hmax : vTxid.length ≤ maxBlockSize/60) :
    ∃ t, CPartialMerkleTree.unserialize (CPartialMerkleTree.build nodeHash vTxid vMatch).serialize =
        some (t, []) ∧
      (t.extractMatches nodeHash).root = .ok (buildMerkleTree nodeHash vTxid) ∧
      (t.extractMatches nodeHash).vMatch = matchedTxids vTxid vMatch ∧
      (t.extractMatches nodeHash).tree.fBad = false := by
  have hpos := List.length_pos_of_ne_nil hne
  have hsmall : vTxid.length ≤ 16666 := hmax
  have hn : vTxid.length ≤ 2^31 := by omega
  obtain ⟨hroot,hheight⟩ := rootHeight_treeHeight hpos hn
  -- a tree of at most 16666 transactions has a height of at most 15
  have hheight' : treeHeight vTxid.length ≤ 15 := by
    by_contra hlt
    have := hroot.below 15 (by omega)
    have := @treeWidth_le_one vTxid.length 15 (by omega)
    omega
  have hwidth : 0 < treeWidth vTxid.length (treeHeight vTxid.length) := treeWidth_pos hpos _
  have hbits : (nodeBits vMatch vTxid.length (treeHeight vTxid.length) 0).length ≤ 2^16 :=
    (nodeBits_length _ _ _).le.trans (Nat.pow_le_pow_right (by norm_num) (by omega))
  obtain ⟨hrange,hfewer⟩ := @nodeHashes_length nodeHash vTxid vMatch _ _ 0 hn hheight hwidth
  have hhashes : (nodeHashes nodeHash vTxid vMatch vTxid.length (treeHeight vTxid.length) 0).length ≤
      vTxid.length := by
    rw [nodeRange, List.length_range', Nat.zero_mul, Nat.sub_zero] at hrange
    exact hrange.trans (Nat.min_le_right _ _)
  have hlevel := @levelAt_calcHash nodeHash vTxid _ 0 hn hheight hwidth
  obtain ⟨h,hroot',-,htop,-⟩ := merkle_tree_spec nodeHash hne
  rw [hroot.unique hroot', htop] at hlevel
  rw [← hroot.unique hroot'] at hlevel
  have hcalc := Option.some.inj hlevel
  have hwire := unserialize_serialize (CPartialMerkleTree.build nodeHash vTxid vMatch)
  rw [build_eq] at hwire ⊢
  specialize hwire (show vTxid.length < 2^32 by omega)
    (show _ ≤ 0x02000000 from hhashes.trans (by omega)) (show _ ≤ 0x02000000 from hbits.trans (by norm_num)) []
  rw [List.append_nil, unpackBits_packBits] at hwire
  refine ⟨_, hwire, ?_⟩
  generalize hb : nodeBits vMatch vTxid.length (treeHeight vTxid.length) 0 = bits at hbits hfewer ⊢
  generalize hv : nodeHashes nodeHash vTxid vMatch vTxid.length (treeHeight vTxid.length) 0 = hashes
    at hhashes hfewer ⊢
  -- the wire pads the bits to whole bytes
  generalize hpad : bits ++ List.replicate ((bits.length+7)/8*8-bits.length) false = padded
  have hpadded : padded.length = (bits.length+7)/8*8 := by
    rw [← hpad, List.length_append, List.length_replicate]
    omega
  have htraverse : (CPartialMerkleTree.mk vTxid.length padded hashes false).traverse nodeHash =
      (buildMerkleTree nodeHash vTxid,
        ⟨bits.length, hashes.length, matchedTxids vTxid vMatch, false⟩) := by
    have hbuilt := @traverseAndExtract_built nodeHash vTxid vMatch ⟨vTxid.length, padded, hashes, false⟩
      (treeHeight vTxid.length) 0 ⟨0, 0, [], false⟩ _ [] hn hheight hwidth
      (by rw [List.drop_zero, hb]; exact hpad.symm) (by rw [List.drop_zero, hv, List.append_nil])
    rw [CPartialMerkleTree.traverse, hbuilt, hb, hv, matchedBelow_root hlen hroot, hcalc, Nat.zero_add,
      Nat.zero_add, List.nil_append]
  rw [CPartialMerkleTree.extractMatches, htraverse]
  dsimp only
  rw [if_neg (by omega), if_neg (by omega), if_neg (by omega), if_neg (by omega),
    if_neg Bool.false_ne_true, if_neg (by rw [hpadded]; omega), if_neg (not_not.mpr rfl)]
  exact ⟨rfl, rfl, rfl⟩

theorem partial_merkle_tree_round_trip_three :
    ∃ t, CPartialMerkleTree.unserialize
        (CPartialMerkleTree.build smallExternals.nodeHash [1,2,3] [false,true,true]).serialize =
          some (t, []) ∧
      (t.extractMatches smallExternals.nodeHash).root = .ok 39 ∧
      (t.extractMatches smallExternals.nodeHash).vMatch = [2,3] := by
  obtain ⟨t,hwire,hroot,hmatch,-⟩ := partial_merkle_tree_round_trip smallExternals.nodeHash [1,2,3]
    [false,true,true] (by decide) rfl (by decide)
  have hvalue : buildMerkleTree smallExternals.nodeHash [1,2,3] = 39 := by decide +kernel
  rw [hvalue] at hroot
  exact ⟨t, hwire, hroot, hmatch⟩

end RoundTrip

end Candypool.Core
