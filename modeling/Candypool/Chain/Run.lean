import Candypool.Chain.Candidates

/-! Runs of the node: blocks arrive, the chain is switched, transactions come to the pool, in any
order, from a loaded genesis block on. -/
namespace Candypool.Chain
open Candypool.Prime Candypool.Core Candypool.Coins Candypool.Lib

/-- A call from outside, with the outcomes the node does not decide. `SetBestChain` is also
called for sync checkpoints, so its argument is any entry of the index. -/
inductive Op
  | setBestChain (pindexNew : BlockPtr) (io : ℕ → BlockPtr → ChainIO)
  | addToBlockIndex (block : CBlock) (io : AddIO)
  | acceptToMemoryPool (tx : CTransaction) (fCheckInputs fLimitFree : Bool) (io : AcceptIO)

section Defs
variable {W : Type} (cons : Consensus) (sync : WalletSync W)

/-- One call; `fuel` bounds how deep chain selection may be nested. -/
def Op.exec (fuel : ℕ) (s : NodeState W) : Op → ChainExit × NodeState W
  | .setBestChain p io =>
    Chain.setBestChain cons sync (connectBestBlock cons sync io fuel 1) (io 0 p) p s
  | .addToBlockIndex block io => Chain.addToBlockIndex cons sync io fuel block s
  | .acceptToMemoryPool tx fCheckInputs fLimitFree io =>
    (.ok, (s.acceptToMemoryPool cons sync io tx fCheckInputs fLimitFree).getD s)

/-- What the callers see to: `SetBestChain` gets an entry of the index, and `AcceptBlock` has
found the parent of the block. -/
def Op.Called (s : NodeState W) : Op → Prop
  | .setBestChain p _ => (s.mapBlockIndex p).isSome = true
  | .addToBlockIndex block _ => (s.mapBlockIndex block.hashPrevBlock).isSome = true
  | .acceptToMemoryPool .. => True

/-- The index entry of the genesis block. -/
def genesisIndex (genesis : CBlock) : CBlockIndex :=
  { newIndex cons (fun _ => none) genesis with phashBlock := some cons.hashGenesisBlock }

/-- The node with the genesis block loaded and nothing else. -/
def loadedGenesis (genesis : CBlock) (wallet : W) : NodeState W :=
  let hash := cons.hashGenesisBlock
  { mapBlockIndex := fun p => if p = hash then some (genesisIndex cons genesis) else none
    setBlockIndexValid := [hash]
    blockFile := fun p => if p = hash then some genesis else none
    undoFile := fun _ => none
    pcoinsdbview := ⟨fun _ => none, none⟩
    cacheCoins := fun _ => none
    pindexTip := some hash
    pindexBest := some hash
    hashBestChain := hash
    nBestHeight := 0
    nBestChainWork := (genesisIndex cons genesis).nChainWork
    nBestInvalidWork := 0
    mempool := CTxMemPool.empty
    wallet := wallet }

/-- The states a run can reach from `start` by calls that meet `ok`, and the calls return. -/
inductive Reaches (fuel : ℕ) (ok : NodeState W → Op → Prop) (start : NodeState W) :
    NodeState W → Prop
  | start : Reaches fuel ok start start
  | step {s : NodeState W} (op : Op) (rest : Reaches fuel ok start s) (called : op.Called s)
      (meets : ok s op) : Reaches fuel ok start (op.exec cons sync fuel s).2

end Defs

/-- Induction over a run. -/
theorem Reaches.invariant {W : Type} {cons : Consensus} {sync : WalletSync W} {fuel : ℕ}
    {ok : NodeState W → Op → Prop} {start : NodeState W} {Q : NodeState W → Prop}
    (hstart : Q start)
    (hstep : ∀ s op, Q s → op.Called s → ok s op → Q (op.exec cons sync fuel s).2)
    {s : NodeState W} (h : Reaches cons sync fuel ok start s) : Q s := by
  induction h with
  | start => exact hstart
  | step op _ called meets ih => exact hstep _ op ih called meets

/-- The outcomes a step holds ready for `SetBestChain`. -/
def Op.Uses : Op → ChainIO → Prop
  | .setBestChain _ io', io => ∃ depth p, io = io' depth p
  | .addToBlockIndex _ io', io => ∃ depth p, io = io'.chain depth p
  | .acceptToMemoryPool .., _ => False

/-- Whenever a call of this step writes the coin database, the two writes succeed. -/
def Op.Flushes (op : Op) : Prop := ∀ io, op.Uses io → io.Flushes

/-- The calls the coins, the index and the pool see: a new index entry, the connections and
disconnections of one `SetBestChain`, the marking of failed blocks by `ConnectBestBlock`, and a
transaction that comes to the pool. -/
inductive ChainCall
  | newBlock (block : CBlock)
  | setBestChain (pindexNew : BlockPtr) (io : ChainIO)
  | markFailed (descendants : List BlockPtr) (pindexNewBest : BlockPtr)
  | accept (tx : CTransaction) (fCheckInputs fLimitFree : Bool) (io : AcceptIO)

namespace ChainCall

/-- The database takes what is written to it. -/
def Flushes : ChainCall → Prop
  | .setBestChain _ io => io.Flushes
  | _ => True

section Defs
variable {W : Type} (cons : Consensus) (sync : WalletSync W)
  (nested : NodeState W → ChainExit × NodeState W)

def exec (s : NodeState W) : ChainCall → NodeState W
  | .newBlock block => insertIndex cons s block
  | .setBestChain p io => (Chain.setBestChain cons sync nested io p s).2
  | .markFailed descendants p => (Chain.markFailed s descendants).invalidChainFound p
  | .accept tx fCheckInputs fLimitFree io =>
    (s.acceptToMemoryPool cons sync io tx fCheckInputs fLimitFree).getD s

/-- What the callers see to: a new block is new and has its parent, and `SetBestChain` gets an
entry of the index. -/
def Called (s : NodeState W) : ChainCall → Prop
  | .newBlock block => s.mapBlockIndex (block.getHash cons.ext) = none ∧
    (s.mapBlockIndex block.hashPrevBlock).isSome = true
  | .setBestChain p _ => (s.mapBlockIndex p).isSome = true
  | _ => True

end Defs

end ChainCall

section Steps
variable {W : Type} {cons : Consensus} {sync : WalletSync W} {fuel : ℕ} {s : NodeState W}

/-- A transaction that comes to the pool changes the pool and the wallets. -/
theorem acceptToMemoryPool_eq (io : AcceptIO) (s : NodeState W) (tx : CTransaction)
    (fCheckInputs fLimitFree : Bool) : ∃ mempool wallet,
      (s.acceptToMemoryPool cons sync io tx fCheckInputs fLimitFree).getD s =
        { s with mempool := mempool, wallet := wallet } := by
  rw [NodeState.acceptToMemoryPool]
  cases accept cons io _ _ s.mempool tx fCheckInputs fLimitFree with
  | none => exact ⟨s.mempool, s.wallet, rfl⟩
  | some mempool => exact ⟨_, _, rfl⟩

/-- The invariant rule for one call: `Q` has to survive a new leaf, a `SetBestChain` call, the
marking of failed blocks, and changes of the pool and the wallets. -/
theorem Op.exec_keeps {Q : NodeState W → Prop} (htip : ∀ s, Q s → ∃ best, TipAt cons s best)
    (hpool : ∀ s mempool wallet, Q s → Q { s with mempool := mempool, wallet := wallet })
    (hmark : ∀ l s s', Q s → Marked l s s' → Q s') {op : Op} (hcalled : op.Called s)
    (hinsert : ∀ block io, op = .addToBlockIndex block io → Q s →
      s.mapBlockIndex (block.getHash cons.ext) = none → Q (insertIndex cons s block))
    (hset : ∀ nested io p s exit s', op.Uses io → Q s →
      (s.mapBlockIndex p).isSome = true → Chain.setBestChain cons sync nested io p s = (exit,s') →
      Q s' ∧ Proper exit ∧ SameTree s.mapBlockIndex s'.mapBlockIndex)
    (hQ : Q s) : Q (op.exec cons sync fuel s).2 ∧ Proper (op.exec cons sync fuel s).1 := by
  cases op with
  | setBestChain p io =>
    generalize hr : Op.exec cons sync fuel s (.setBestChain p io) = r
    obtain ⟨exit,s'⟩ := r
    obtain ⟨hQ',hproper,-⟩ := hset _ (io 0 p) p s exit s' ⟨0, p, rfl⟩ hQ hcalled hr
    exact ⟨hQ', hproper⟩
  | acceptToMemoryPool tx fCheckInputs fLimitFree io =>
    obtain ⟨mempool,wallet,h⟩ : ∃ mempool wallet,
      (s.acceptToMemoryPool cons sync io tx fCheckInputs fLimitFree).getD s = _ :=
      acceptToMemoryPool_eq io s tx fCheckInputs fLimitFree
    refine ⟨?_, trivial⟩
    change Q ((s.acceptToMemoryPool cons sync io tx fCheckInputs fLimitFree).getD s)
    rw [h]
    exact hpool s mempool wallet hQ
  | addToBlockIndex block io =>
    change Q (Chain.addToBlockIndex cons sync io fuel block s).2 ∧
      Proper (Chain.addToBlockIndex cons sync io fuel block s).1
    rw [Chain.addToBlockIndex]
    by_cases hdup : (s.mapBlockIndex (block.getHash cons.ext)).isSome = true
    · rw [if_pos hdup]
      exact ⟨hQ, trivial⟩
    rw [if_neg hdup]
    rw [Bool.not_eq_true, Option.isSome_eq_false_iff, Option.isNone_iff_eq_none] at hdup
    have hins := hinsert block io rfl hQ hdup
    by_cases hwrite : io.writeBlockIndex = true
    · rw [hwrite, Bool.not_true, if_neg Bool.false_ne_true]
      dsimp only
      generalize hr : connectBestBlock cons sync io.chain (fuel+1) 0 (insertIndex cons s block) = r
      obtain ⟨exit,s'⟩ := r
      obtain ⟨hQ',hproper⟩ := connectBestBlock_keeps htip
        (fun nested depth s p exit s' => hset nested (io.chain depth p) p s exit s'
          ⟨depth, p, rfl⟩) hmark hins hr
      split_ifs
      · exact ⟨hQ', trivial⟩
      · exact ⟨hQ', hproper⟩
    · rw [Bool.not_eq_true] at hwrite
      rw [hwrite, Bool.not_false, if_pos rfl]
      exact ⟨hins, trivial⟩

/-- A step whose database writes succeed keeps everything at one tip, and returns. -/
theorem Op.exec_tip {op : Op} (hcalled : op.Called s) (hflush : op.Flushes)
    (h : ∃ best, TipAt cons s best) :
    (∃ best, TipAt cons (op.exec cons sync fuel s).2 best) ∧
      Proper (op.exec cons sync fuel s).1 := by
  refine Op.exec_keeps (Q := fun s => ∃ best, TipAt cons s best) (fun s h => h) ?_ ?_ hcalled ?_ ?_ h
  · rintro s mempool wallet ⟨best,hbest⟩
    exact ⟨best, hbest.of_pool⟩
  · rintro l s s' ⟨best,hbest⟩ hmarked
    exact ⟨best, hbest.marked hmarked⟩
  · rintro block io rfl ⟨best,hbest⟩ hnew
    exact ⟨best, insertIndex_tip hbest hnew hcalled⟩
  · rintro nested io p s exit s' hio ⟨best,hbest⟩ hp hset
    rcases setBestChain_tip hbest hp hset with
      ⟨rfl,htip,htree,-,-⟩ | ⟨hexit,hsame,hblamed⟩ | ⟨hfail,-⟩
    · exact ⟨⟨p, htip⟩, trivial, htree⟩
    · exact ⟨⟨best, hbest.of_same hsame (hblamed.candidates hbest.candidates)⟩, hexit.proper,
        hsame.tree⟩
    · exact absurd (hflush io hio) hfail

end Steps

end Candypool.Chain
