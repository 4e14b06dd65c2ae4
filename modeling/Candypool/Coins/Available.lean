import Candypool.Coins.Visible
import Candypool.Coins.RoundTrip

/-! Which outputs can be spent from a view. A block takes away what its transactions spend and
nothing else, and taking it back takes away what it made. -/
namespace Candypool.Coins
open Candypool.Prime Candypool.Core

/-- The output is there and is not spent. -/
def available {V : Type} [CoinStore V] (view : V) (out : COutPoint) : Bool :=
  (getCoins view out.hash).any fun coins => coins.isAvailable out.n

/-- An output of the transaction. -/
def Makes (txHash : CTransaction → Uint256) (tx : CTransaction) (out : COutPoint) : Prop :=
  out.hash = txHash tx ∧ out.n < tx.vout.length

section Entries
variable {c c' : CCoins} {n m : ℕ} {undo : CTxInUndo}

theorem isAvailable_iff : c.isAvailable n = true ↔ ∃ txout, c.vout[n]? = some txout ∧
    txout.isNull = false := by
  rw [CCoins.isAvailable]
  cases c.vout[n]? with
  | none => simp
  | some txout => simp

/-- Spending one output leaves the others. -/
theorem spend_available (h : c.spend n = some (c',undo)) (hne : m ≠ n)
    (ha : c.isAvailable m = true) : c'.isAvailable m = true := by
  obtain ⟨txout,hout,hnull⟩ := isAvailable_iff.mp ha
  obtain ⟨-,-,-,rfl,-⟩ := spend_eq_some h
  rw [isAvailable_iff]
  refine ⟨txout, ?_, hnull⟩
  have hset : (c.vout.set n CTxOut.null)[m]? = some txout := by
    rw [List.getElem?_set_ne hne.symm, hout]
  have hsplit : CCoins.cleanup (c.vout.set n CTxOut.null) ++
      (c.vout.set n CTxOut.null).rtakeWhile CTxOut.isNull = c.vout.set n CTxOut.null :=
    List.rdropWhile_append_rtakeWhile
  rw [← hsplit, List.getElem?_append] at hset
  split_ifs at hset with hlt
  · exact hset
  · -- what `Cleanup` drops is null
    have hdropped := List.mem_rtakeWhile_imp (List.mem_of_getElem? hset)
    rw [hnull] at hdropped
    cases hdropped

/-- Putting an output back where undo data fits leaves the others. -/
theorem restore_available {entry : Option CCoins} (h : (CCoins.restore entry n undo).1 = true)
    (ha : (entry.any fun coins => coins.isAvailable m) = true) :
    (CCoins.restore entry n undo).2.isAvailable m = true := by
  rw [Option.any_eq_true] at ha
  obtain ⟨c,rfl,hc⟩ := ha
  obtain ⟨txout,hout,hnull⟩ := isAvailable_iff.mp hc
  rw [CCoins.restore] at h ⊢
  simp only [Option.getD_some] at h ⊢
  by_cases hheight : undo.nHeight ≠ 0
  · -- the undo data is for an entry that was empty
    rw [if_pos hheight] at h
    have hpruned : c.isPruned = true := by simpa using (Bool.and_eq_true_iff.mp h).1
    rw [isAvailable_pruned hpruned] at hc
    cases hc
  rw [if_neg hheight] at h ⊢
  have hfree : c.isAvailable n = false := by simpa using (Bool.and_eq_true_iff.mp h).2
  have hne : m ≠ n := by
    rintro rfl
    rw [hc] at hfree
    cases hfree
  rw [isAvailable_iff]
  refine ⟨txout, ?_, hnull⟩
  have hlt := (List.getElem?_eq_some_iff.mp hout).1
  dsimp only [CCoins.putOutput]
  rw [List.getElem?_set_ne hne.symm]
  split_ifs
  · rw [List.getElem?_append_left hlt, hout]
  · exact hout

/-- A fresh entry has all its outputs. -/
theorem ofTx_available {tx : CTransaction} (hc : tx.Checked) (nHeight : ℕ) (hn : n < tx.vout.length) :
    (CCoins.ofTx tx nHeight).isAvailable n = true := by
  rw [isAvailable_iff]
  exact ⟨tx.vout[n], List.getElem?_eq_getElem hn, checked_not_null hc _ (List.getElem_mem hn)⟩

theorem ofTx_available_lt {tx : CTransaction} {nHeight : ℕ}
    (ha : (CCoins.ofTx tx nHeight).isAvailable n = true) : n < tx.vout.length := by
  obtain ⟨txout,hout,-⟩ := isAvailable_iff.mp ha
  exact (List.getElem?_eq_some_iff.mp hout).1

end Entries

section Update
variable {V : Type} [CoinStore V] {txHash : CTransaction → Uint256} {nHeight : ℕ} {view view' : V}
  {out : COutPoint}

theorem available_setCoins_self {txid : Uint256} {coins : CCoins} (h : out.hash = txid) :
    available (setCoins view txid coins) out = coins.isAvailable out.n := by
  rw [available, getCoins_setCoins, h, Function.update_self, Option.any_some]

theorem available_setCoins_ne {txid : Uint256} {coins : CCoins} (h : out.hash ≠ txid) :
    available (setCoins view txid coins) out = available view out := by
  rw [available, getCoins_setCoins, Function.update_of_ne h, available]

theorem spendInput_available {prevout : COutPoint} {undo : CTxInUndo}
    (h : spendInput view prevout = some (view',undo)) (hne : out ≠ prevout)
    (ha : available view out = true) : available view' out = true := by
  obtain ⟨c,c',hc,hs,rfl⟩ := spendInput_eq_some h
  by_cases heq : out.hash = prevout.hash
  · rw [available_setCoins_self heq]
    rw [available, heq, hc, Option.any_some] at ha
    apply spend_available hs _ ha
    intro hn
    obtain ⟨hash,n⟩ := out
    obtain ⟨hash',n'⟩ := prevout
    exact hne (COutPoint.mk.injEq .. ▸ ⟨heq, hn⟩)
  · rw [available_setCoins_ne heq]
    exact ha

theorem spendInputs_available {vin : List CTxIn} {undos : List CTxInUndo}
    (h : spendInputs view vin = some (view',undos)) (hout : out ∉ vin.map CTxIn.prevout)
    (ha : available view out = true) : available view' out = true := by
  induction vin generalizing view undos with
  | nil =>
    obtain ⟨rfl,-⟩ := Prod.mk.inj (Option.some.inj h)
    exact ha
  | cons txin vin ih =>
    obtain ⟨view1,undo,undos',h1,h2,-⟩ := spendInputs_cons h
    rw [List.map_cons, List.mem_cons, not_or] at hout
    exact ih h2 hout.2 (spendInput_available h1 hout.1 ha)

/-- `UpdateCoins` takes away what the transaction spends, and an entry it overwrites. -/
theorem updateCoins_available {tx : CTransaction} {txhash : Uint256} {txundo : CTxUndo}
    (h : updateCoins view tx nHeight txhash = some (view',txundo)) (hne : out.hash ≠ txhash)
    (ha : available view out = true) : available view' out = true ∨ out ∈ tx.vin.map CTxIn.prevout := by
  by_cases hout : out ∈ tx.vin.map CTxIn.prevout
  · exact Or.inr hout
  left
  obtain ⟨view1,hspend,rfl⟩ := updateCoins_eq_some h
  rw [available_setCoins_ne hne]
  rw [markSpent] at hspend
  split_ifs at hspend
  · obtain ⟨rfl,-⟩ := Prod.mk.inj (Option.some.inj hspend)
    exact ha
  · exact spendInputs_available hspend hout ha

theorem updateCoins_makes {tx : CTransaction} {txundo : CTxUndo} (hc : tx.Checked)
    (h : updateCoins view tx nHeight (txHash tx) = some (view',txundo)) (hout : Makes txHash tx out) :
    available view' out = true := by
  obtain ⟨view1,-,rfl⟩ := updateCoins_eq_some h
  rw [available_setCoins_self hout.1]
  exact ofTx_available hc nHeight hout.2

/-- What a list of transactions spends. -/
def SpentIn (vtx : List CTransaction) (out : COutPoint) : Prop := ∃ tx ∈ vtx, out ∈ tx.vin.map CTxIn.prevout

theorem SpentIn.append_left {vtx vtx' : List CTransaction} {out : COutPoint} (h : SpentIn vtx out) :
    SpentIn (vtx ++ vtx') out := by
  obtain ⟨tx,htx,hout⟩ := h
  exact ⟨tx, List.mem_append_left _ htx, hout⟩

theorem SpentIn.append_right {vtx vtx' : List CTransaction} {out : COutPoint}
    (h : SpentIn vtx' out) : SpentIn (vtx ++ vtx') out := by
  obtain ⟨tx,htx,hout⟩ := h
  exact ⟨tx, List.mem_append_right _ htx, hout⟩

/-- What was there before a list of transactions, or was made by one of them, is there afterwards
unless one of them spends it. Their entries are new. -/
theorem updateTxs_available {vtx : List CTransaction} {vtxundo : List CTxUndo}
    (h : updateTxs txHash nHeight view vtx = some (view',vtxundo))
    (hchecked : ∀ tx ∈ vtx, tx.Checked) (hpos : 0 < nHeight) (hnodup : (vtx.map txHash).Nodup)
    (hfresh : ∀ tx ∈ vtx, live (getCoins view (txHash tx)) = none)
    (ha : available view out = true ∨ ∃ tx ∈ vtx, Makes txHash tx out) :
    available view' out = true ∨ SpentIn vtx out := by
  induction vtx generalizing view vtxundo with
  | nil =>
    obtain ⟨rfl,-⟩ := Prod.mk.inj (Option.some.inj h)
    rcases ha with ha | ⟨tx,hmem,-⟩
    · exact Or.inl ha
    · cases hmem
  | cons tx vtx ih =>
    obtain ⟨view1,txundo,vtxundo',h1,h2,-⟩ := updateTxs_cons h
    rw [List.map_cons, List.nodup_cons] at hnodup
    have htx := hchecked tx List.mem_cons_self
    have hrest : ∀ tx' ∈ vtx, live (getCoins view1 (txHash tx')) = none := by
      intro tx' hmem
      apply (updateCoins_keeps htx hpos h1).2 _ _ (hfresh tx' (List.mem_cons_of_mem _ hmem))
      intro heq
      exact hnodup.1 (heq ▸ List.mem_map_of_mem hmem)
    have hspent : SpentIn vtx out → SpentIn (tx :: vtx) out := by
      rintro ⟨tx',hmem,hout⟩
      exact ⟨tx', List.mem_cons_of_mem _ hmem, hout⟩
    have hnext (ha1 : available view1 out = true ∨ ∃ tx ∈ vtx, Makes txHash tx out) :
        available view' out = true ∨ SpentIn (tx :: vtx) out :=
      (ih h2 (fun tx' hmem => hchecked tx' (List.mem_cons_of_mem _ hmem)) hnodup.2 hrest ha1).imp_right
        hspent
    rcases ha with ha | ⟨tx',hmem,hout⟩
    · -- the entry of the transaction is new, so the output is not one of its own
      have hne : out.hash ≠ txHash tx := by
        intro heq
        rw [available, heq, any_isAvailable, visible, hfresh tx List.mem_cons_self] at ha
        cases ha
      rcases updateCoins_available h1 hne ha with ha1 | hout
      · exact hnext (Or.inl ha1)
      · exact Or.inr ⟨tx, List.mem_cons_self, hout⟩
    · rcases List.mem_cons.mp hmem with rfl | hmem
      · exact hnext (Or.inl (updateCoins_makes htx h1 hout))
      · exact hnext (Or.inr ⟨tx', hmem, hout⟩)

theorem updateBlock_available {vtx : List CTransaction} {blockundo : CBlockUndo}
    (h : updateBlock txHash nHeight view vtx = some (view',blockundo))
    (hchecked : ∀ tx ∈ vtx, tx.Checked) (hpos : 0 < nHeight) (hnodup : (vtx.map txHash).Nodup)
    (hfresh : ∀ tx ∈ vtx, live (getCoins view (txHash tx)) = none)
    (ha : available view out = true ∨ ∃ tx ∈ vtx, Makes txHash tx out) :
    available view' out = true ∨ SpentIn vtx out := by
  obtain ⟨vtxundo,hloop⟩ : ∃ vtxundo, updateTxs txHash nHeight view vtx = some (view',vtxundo) := by
    cases vtx with
    | nil =>
      obtain ⟨rfl,-⟩ := Prod.mk.inj (Option.some.inj h)
      exact ⟨[], rfl⟩
    | cons tx vtx =>
      obtain ⟨view1,txundo,h1,h2⟩ := updateBlock_cons h
      refine ⟨txundo :: blockundo.vtxundo, ?_⟩
      simp only [updateTxs, h1, h2, Option.bind_eq_bind, Option.bind_some, Option.pure_def]
  exact updateTxs_available hloop hchecked hpos hnodup hfresh ha

end Update

section Disconnect
variable {V : Type} [CoinStore V] {txHash : CTransaction → Uint256} {nHeight : ℕ} {view : V}
  {out : COutPoint}

/-- Outputs are taken back only if they are all there, and nothing else goes. -/
theorem removeOutputs_available {tx : CTransaction}
    (hsame : (removeOutputs txHash nHeight view tx).1 = true) (ha : available view out = true) :
    available (removeOutputs txHash nHeight view tx).2 out = true ∨ Makes txHash tx out := by
  by_cases heq : out.hash = txHash tx
  · right
    refine ⟨heq, ?_⟩
    rw [available, heq, Option.any_eq_true] at ha
    obtain ⟨c,hc,havail⟩ := ha
    rw [removeOutputs, hc] at hsame
    simp only [Option.isSome_some, Bool.true_and, Option.getD_some, decide_eq_true_eq] at hsame
    have hvout : c.vout = tx.vout := by
      split_ifs at hsame
      · exact congrArg CCoins.vout hsame
      · exact congrArg CCoins.vout hsame
    rw [isAvailable_iff, hvout] at havail
    obtain ⟨txout,hout,-⟩ := havail
    exact (List.getElem?_eq_some_iff.mp hout).1
  · left
    rw [removeOutputs]
    exact (available_setCoins_ne heq).trans ha

theorem restoreInputs_available {vin : List CTxIn} {undos : List CTxInUndo}
    (hclean : (restoreInputs view vin undos).1 = true) (ha : available view out = true) :
    available (restoreInputs view vin undos).2 out = true := by
  induction vin generalizing undos with
  | nil => cases undos <;> exact ha
  | cons txin vin ih =>
    cases undos with
    | nil => exact ha
    | cons undo undos =>
      rw [restoreInputs] at hclean ⊢
      dsimp only at hclean ⊢
      rw [Bool.and_eq_true] at hclean
      have hrest := ih hclean.1
      by_cases heq : out.hash = txin.prevout.hash
      · rw [available_setCoins_self heq]
        rw [available, heq] at hrest
        exact restore_available hclean.2 hrest
      · rw [available_setCoins_ne heq]
        exact hrest

theorem disconnectTxs_available {vtx : List CTransaction} {vtxundo : List CTxUndo}
    (hok : (disconnectTxs txHash nHeight view vtx vtxundo).error = none)
    (hclean : (disconnectTxs txHash nHeight view vtx vtxundo).fClean = true)
    (ha : available view out = true) :
    available (disconnectTxs txHash nHeight view vtx vtxundo).view out = true ∨
      ∃ tx ∈ vtx, Makes txHash tx out := by
  induction vtx generalizing vtxundo with
  | nil => cases vtxundo <;> exact Or.inl ha
  | cons tx vtx ih =>
    cases vtxundo with
    | nil => exact Or.inl ha
    | cons txundo vtxundo =>
      rw [disconnectTxs] at hok hclean ⊢
      dsimp only at hok hclean ⊢
      split_ifs at hok hclean ⊢ with herr hlen
      · rw [hok] at herr
        cases herr
      rw [Bool.not_eq_true, Option.isSome_eq_false_iff, Option.isNone_iff_eq_none] at herr
      rw [Bool.and_eq_true, Bool.and_eq_true] at hclean
      obtain ⟨⟨hrest,hsame⟩,hfits⟩ := hclean
      rcases ih herr hrest with ha | ⟨tx',hmem,hout⟩
      · rcases removeOutputs_available hsame ha with ha | hout
        · exact Or.inl (restoreInputs_available hfits ha)
        · exact Or.inr ⟨tx, List.mem_cons_self, hout⟩
      · exact Or.inr ⟨tx', List.mem_cons_of_mem _ hmem, hout⟩

end Disconnect

end Candypool.Coins
