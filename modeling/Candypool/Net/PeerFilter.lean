import Candypool.Core.Block
import Candypool.Net.BloomFilter
import Candypool.Script.Interpreter

/-! The filter that a peer has loaded: the messages about it, and what the node asks it. -/
namespace Candypool.Net
open Candypool.Core Candypool.Script Candypool.Prime

def maxInvSz : ℕ := 50000

namespace CBloomFilter

/-- The calls that change a filter. -/
inductive FilterCall
  | insert (vKey : List UInt8)
  | relevant (tx : CTransaction) (hash : Uint256)
  deriving DecidableEq

def call (filter : CBloomFilter) : FilterCall → Option (Bool × CBloomFilter)
  | .insert vKey => do
    let filter ← filter.insert vKey
    return (true,filter)
  | .relevant tx hash => filter.isRelevantAndUpdate tx hash

/-- A sequence of calls, with their answers. -/
def exec (filter : CBloomFilter) : List FilterCall → Option (List Bool × CBloomFilter)
  | [] => some ([],filter)
  | call :: calls => do
    let (answer,filter) ← filter.call call
    let (answers,filter) ← exec filter calls
    return (answer :: answers,filter)

section Calls
variable {f g k : CBloomFilter}

/-- Whatever was received, the filter is ready to be asked. -/
theorem updateEmptyFull_ok (filter : CBloomFilter) : filter.updateEmptyFull.Ok := by
  intro hfull hnil
  have hdata : filter.vData = [] := hnil
  rw [updateEmptyFull, hdata] at hfull
  cases hfull

theorem Ok.call (hf : f.Ok) (call : FilterCall) :
    ∃ answer g, f.call call = some (answer,g) ∧ Grows f g := by
  cases call with
  | insert vKey =>
    obtain ⟨g,hg,hgrows,-⟩ := hf.insert vKey
    refine ⟨true, g, ?_, hgrows⟩
    rw [CBloomFilter.call, hg]
    rfl
  | relevant tx hash =>
    obtain ⟨relevant,g,hg,hgrows,-⟩ := hf.isRelevantAndUpdate tx hash
    exact ⟨relevant, g, hg, hgrows⟩

theorem exec_cons {call : FilterCall} {answer : Bool} (h : f.call call = some (answer,g))
    {calls : List FilterCall} {answers : List Bool} (hrest : g.exec calls = some (answers,k)) :
    f.exec (call :: calls) = some (answer :: answers,k) := by
  simp only [exec, h, hrest, Option.bind_eq_bind, Option.bind_some, Option.pure_def]

theorem exec_cons_inv {call : FilterCall} {calls : List FilterCall} {answers : List Bool}
    (h : f.exec (call :: calls) = some (answers,k)) :
    ∃ answer g rest, f.call call = some (answer,g) ∧ g.exec calls = some (rest,k) ∧
      answers = answer :: rest := by
  rw [CBloomFilter.exec] at h
  obtain ⟨⟨answer,g⟩,hcall,h⟩ := Option.bind_eq_some_iff.mp h
  obtain ⟨⟨rest,k'⟩,hrest,h⟩ := Option.bind_eq_some_iff.mp h
  obtain ⟨rfl,rfl⟩ := Prod.mk.inj (Option.some.inj h)
  exact ⟨answer, g, rest, hcall, hrest, rfl⟩

/-- Every sequence of calls is answered, and the filter only grows. -/
theorem Ok.exec (hf : f.Ok) (calls : List FilterCall) :
    ∃ answers g, f.exec calls = some (answers,g) ∧ Grows f g := by
  induction calls generalizing f with
  | nil => exact ⟨[], f, rfl, Grows.refl f⟩
  | cons call calls ih =>
    obtain ⟨answer,g,hcall,hgrows⟩ := hf.call call
    obtain ⟨answers,k,hexec,hgrows'⟩ := ih (hgrows.ok hf)
    exact ⟨answer :: answers, k, exec_cons hcall hexec, hgrows.trans hgrows'⟩

theorem exec_one {call : FilterCall} {answer : Bool} (h : f.call call = some (answer,g)) :
    f.exec [call] = some ([answer],g) := exec_cons h rfl

theorem exec_append {calls calls' : List FilterCall} {answers answers' : List Bool}
    (h : f.exec calls = some (answers,g)) (h' : g.exec calls' = some (answers',k)) :
    f.exec (calls ++ calls') = some (answers ++ answers',k) := by
  induction calls generalizing f answers with
  | nil =>
    obtain ⟨rfl,rfl⟩ := Prod.mk.inj (Option.some.inj h)
    exact h'
  | cons call calls ih =>
    obtain ⟨answer,m,rest,hcall,hrest,rfl⟩ := exec_cons_inv h
    exact exec_cons hcall (ih hrest)

/-- An answer is that of the filter as the calls before it left it. -/
theorem exec_getElem {calls : List FilterCall} {answers : List Bool}
    (h : f.exec calls = some (answers,g)) {j : ℕ} {call : FilterCall} (hcall : calls[j]? = some call) :
    ∃ before k answer k', f.exec (calls.take j) = some (before,k) ∧
      k.call call = some (answer,k') ∧ answers[j]? = some answer := by
  induction calls generalizing f answers j with
  | nil => simp at hcall
  | cons first calls ih =>
    obtain ⟨answer,m,rest,hfirst,hrest,rfl⟩ := exec_cons_inv h
    cases j with
    | zero =>
      obtain rfl := Option.some.inj hcall
      exact ⟨[], f, answer, m, rfl, hfirst, rfl⟩
    | succ j =>
      obtain ⟨before,k,answer',k',hbefore,hk,hanswer⟩ := ih hrest hcall
      exact ⟨answer :: before, k, answer', k', exec_cons hfirst hbefore, hk, hanswer⟩

/-- Of two calls, the later one is answered by the filter of the earlier one, grown further. -/
theorem Ok.exec_later (hf : f.Ok) {calls : List FilterCall} {answers : List Bool}
    (h : f.exec calls = some (answers,g)) {i j : ℕ} (hij : i < j) {callI callJ : FilterCall}
    (hi : calls[i]? = some callI) (hj : calls[j]? = some callJ) :
    ∃ before k answerI m kJ answer kJ', f.exec (calls.take i) = some (before,k) ∧
      k.call callI = some (answerI,m) ∧ Grows m kJ ∧ kJ.call callJ = some (answer,kJ') ∧
      answers[j]? = some answer := by
  induction calls generalizing f answers i j with
  | nil => simp at hi
  | cons first calls ih =>
    obtain ⟨answer,m,rest,hfirst,hrest,rfl⟩ := exec_cons_inv h
    obtain ⟨answer',m',hcall,hgrows⟩ := hf.call first
    obtain ⟨rfl,rfl⟩ := Prod.mk.inj (Option.some.inj (hcall.symm.trans hfirst))
    obtain ⟨j,rfl⟩ := Nat.exists_eq_add_one_of_ne_zero (Nat.ne_zero_of_lt hij)
    cases i with
    | zero =>
      -- the first call is the earlier one: what the others do only lets the filter grow
      obtain rfl := Option.some.inj hi
      obtain ⟨before,kJ,answerJ,kJ',hbefore,hkJ,hanswer⟩ := exec_getElem hrest hj
      obtain ⟨before',k,hexec,hgrows'⟩ := (hgrows.ok hf).exec (calls.take j)
      obtain ⟨-,rfl⟩ := Prod.mk.inj (Option.some.inj (hexec.symm.trans hbefore))
      exact ⟨[], f, answer', m', k, answerJ, kJ', rfl, hfirst, hgrows', hkJ, hanswer⟩
    | succ i =>
      -- both calls are among the others
      obtain ⟨before,k,answerI,m,kJ,answerJ,kJ',hbefore,hk,hgrows',hkJ,hanswer⟩ :=
        ih (hgrows.ok hf) hrest (Nat.lt_of_succ_lt_succ hij) hi hj
      exact ⟨answer' :: before, k, answerI, m, kJ, answerJ, kJ', exec_cons hfirst hbefore, hk, hgrows',
        hkJ, hanswer⟩

/-- The spending of an output that was matched before is relevant. -/
theorem relevant_of_matchedOutput (hf : f.Ok) {tx : CTransaction} {hash : Uint256} {n : ℕ}
    (hall : f.nFlags &&& bloomUpdateMask = bloomUpdateAll) (h : f.MatchedOutput tx hash n)
    {relevant : Bool} (hg : f.isRelevantAndUpdate tx hash = some (relevant,g)) (hgrows : Grows g k)
    {tx' : CTransaction} (hspends : ⟨hash,n⟩ ∈ tx'.vin.map CTxIn.prevout) (hash' : Uint256) :
    ∃ k', k.isRelevantAndUpdate tx' hash' = some (true,k') := by
  obtain ⟨answer,g',hg',hgrows',-⟩ := hf.isRelevantAndUpdate tx hash
  obtain ⟨rfl,rfl⟩ := Prod.mk.inj (Option.some.inj (hg.symm.trans hg'))
  have hin := hgrows.contains (hgrows'.ok hf) (matchedOutput_contained hf hall h hg)
  obtain ⟨relevant',k',hk',-,hrelevant⟩ := (hgrows.ok (hgrows'.ok hf)).isRelevantAndUpdate tx' hash'
  obtain ⟨txin,htxin,hprevout⟩ := List.mem_map.mp hspends
  rw [hrelevant txin htxin (by rw [hprevout]; exact hin)] at hk'
  exact ⟨k', hk'⟩

end Calls

end CBloomFilter

structure CMerkleBlock where
  header : CBlockHeader
  txn : CPartialMerkleTree
  vMatchedTxn : List (ℕ × Uint256)

section MerkleBlock
variable (ext : Externals)

/-- The loop of the constructor: every transaction of the block is asked for. -/
def matchTxs : ℕ → List CTransaction → CBloomFilter →
    Option (List Bool × List (ℕ × Uint256) × CBloomFilter)
  | _, [], filter => some ([],[],filter)
  | i, tx :: vtx, filter => do
    let hash := ext.txHash tx
    let (relevant,filter) ← filter.isRelevantAndUpdate tx hash
    let (vMatch,vMatchedTxn,filter) ← matchTxs (i+1) vtx filter
    return (relevant :: vMatch,if relevant then (i,hash) :: vMatchedTxn else vMatchedTxn,filter)

def CMerkleBlock.build (block : CBlock) (filter : CBloomFilter) : Option (CMerkleBlock × CBloomFilter) := do
  let (vMatch,vMatchedTxn,filter) ← matchTxs ext 0 block.vtx filter
  return (⟨block.toCBlockHeader,CPartialMerkleTree.build ext.nodeHash (block.txHashes ext) vMatch,
    vMatchedTxn⟩,filter)

/-- The calls of the constructor. -/
def relevantCalls (vtx : List CTransaction) : List CBloomFilter.FilterCall :=
  vtx.map fun tx => .relevant tx (ext.txHash tx)

/-- The matched transactions are those with a positive answer. -/
theorem matchTxs_of_exec (i : ℕ) (vtx : List CTransaction) {f g : CBloomFilter} {answers : List Bool}
    (h : f.exec (relevantCalls ext vtx) = some (answers,g)) :
    ∃ vMatchedTxn, matchTxs ext i vtx f = some (answers,vMatchedTxn,g) ∧
      ∀ j tx, vtx[j]? = some tx → answers[j]? = some true → (i+j,ext.txHash tx) ∈ vMatchedTxn := by
  induction vtx generalizing i f answers with
  | nil =>
    obtain ⟨rfl,rfl⟩ := Prod.mk.inj (Option.some.inj h)
    exact ⟨[], rfl, fun j tx htx => by simp at htx⟩
  | cons tx vtx ih =>
    rw [relevantCalls, List.map_cons] at h
    obtain ⟨answer,m,rest,hcall,hrest,rfl⟩ := CBloomFilter.exec_cons_inv h
    have hrelevant : f.isRelevantAndUpdate tx (ext.txHash tx) = some (answer,m) := hcall
    obtain ⟨vMatchedTxn,hmatch,hmem⟩ := ih (i+1) hrest
    refine ⟨if answer then (i,ext.txHash tx) :: vMatchedTxn else vMatchedTxn, ?_, ?_⟩
    · simp only [matchTxs, hrelevant, hmatch, Option.bind_eq_bind, Option.bind_some, Option.pure_def]
    -- a match of this transaction is the head, one of a later transaction is in the tail
    · rintro (_ | j) tx' htx' hanswer
      · obtain rfl := Option.some.inj htx'
        rw [if_pos (Option.some.inj hanswer), Nat.add_zero]
        exact List.mem_cons_self
      · have hlater := hmem j tx' htx' hanswer
        rw [show i+1+j = i+(j+1) by omega] at hlater
        split_ifs
        · exact List.mem_cons_of_mem _ hlater
        · exact hlater

end MerkleBlock

/-- The fields of a peer that the filter messages use. -/
structure Peer where
  isLocal : Bool
  pfilter : Option CBloomFilter
  fRelayTxes : Bool
  nMisbehavior : ℤ

namespace Peer
variable (ext : Externals)

/-- A local peer is only warned about. -/
def misbehaving (peer : Peer) (howmuch : ℤ) : Peer :=
  if peer.isLocal then peer else { peer with nMisbehavior := peer.nMisbehavior+howmuch }

def filterLoad (peer : Peer) (filter : CBloomFilter) : Peer :=
  let peer := if !filter.isWithinSizeConstraints then peer.misbehaving 100
    else { peer with pfilter := some filter.updateEmptyFull }
  { peer with fRelayTxes := true }

def filterAdd (peer : Peer) (vData : List UInt8) : Option Peer :=
  if vData.length > maxScriptElementSize then some (peer.misbehaving 100)
  else
    match peer.pfilter with
    | some filter => do
      let filter ← filter.insert vData
      return { peer with pfilter := some filter }
    | none => some (peer.misbehaving 100)

/-- The new filter has no data, and it is full. Its other fields, here those of `stale`, are not
initialized. -/
def filterClear (peer : Peer) (stale : CBloomFilter) : Peer :=
  { peer with
    pfilter := some { stale with vData := [], isFull := true }
    fRelayTxes := true }

/-- `RelayTransaction` for one peer: whether the transaction is announced. -/
def relayTransaction (peer : Peer) (tx : CTransaction) (hash : Uint256) : Option (Bool × Peer) :=
  if !peer.fRelayTxes then some (false,peer)
  else
    match peer.pfilter with
    | some filter => do
      let (relevant,filter) ← filter.isRelevantAndUpdate tx hash
      return (relevant,{ peer with pfilter := some filter })
    | none => some (true,peer)

def mempoolLoop : List (Uint256 × CTransaction) → List Uint256 → CBloomFilter →
    Option (List Uint256 × CBloomFilter)
  | [], vInv, filter => some (vInv,filter)
  | (hash,tx) :: pool, vInv, filter => do
    let (relevant,filter) ← filter.isRelevantAndUpdate tx hash
    let vInv := vInv ++ (if relevant then [hash] else [])
    if vInv.length = maxInvSz then some (vInv,filter) else mempoolLoop pool vInv filter

/-- The answer to a `mempool` message. -/
def mempool (peer : Peer) (pool : List (Uint256 × CTransaction)) : Option (List Uint256 × Peer) :=
  match peer.pfilter with
  | some filter => do
    let (vInv,filter) ← mempoolLoop pool [] filter
    return (vInv,{ peer with pfilter := some filter })
  | none => some ((pool.map Prod.fst).take maxInvSz,peer)

/-- The answer to a request for a filtered block. -/
def filteredBlock (peer : Peer) (block : CBlock) : Option (Option CMerkleBlock × Peer) :=
  match peer.pfilter with
  | some filter => do
    let (merkleBlock,filter) ← CMerkleBlock.build ext block filter
    return (some merkleBlock,{ peer with pfilter := some filter })
  | none => some (none,peer)

/-- What can happen to the filter of a peer. -/
inductive FilterEvent
  | filterLoad (filter : CBloomFilter)
  | filterAdd (vData : List UInt8)
  | filterClear (stale : CBloomFilter)
  | relayTransaction (tx : CTransaction) (hash : Uint256)
  | mempool (pool : List (Uint256 × CTransaction))
  | filteredBlock (block : CBlock)

/-- The peer chooses a new filter. -/
def FilterEvent.Resets : FilterEvent → Prop
  | .filterLoad _ | .filterClear _ => True
  | _ => False

def handle (peer : Peer) : FilterEvent → Option Peer
  | .filterLoad filter => some (peer.filterLoad filter)
  | .filterAdd vData => peer.filterAdd vData
  | .filterClear stale => some (peer.filterClear stale)
  | .relayTransaction tx hash => (peer.relayTransaction tx hash).map Prod.snd
  | .mempool pool => (peer.mempool pool).map Prod.snd
  | .filteredBlock block => (peer.filteredBlock ext block).map Prod.snd

def run (peer : Peer) : List FilterEvent → Option Peer
  | [] => some peer
  | event :: events => do
    let peer ← peer.handle ext event
    run peer events

/-- The filter, where there is one, can be asked. -/
def Ok (peer : Peer) : Prop := ∀ filter, peer.pfilter = some filter → filter.Ok

/-- The filter of the second peer is the one of the first after some calls. -/
def Calls (peer peer' : Peer) : Prop :=
  match peer.pfilter with
  | none => peer'.pfilter = none
  | some filter => ∃ calls answers filter',
    filter.exec calls = some (answers,filter') ∧ peer'.pfilter = some filter'

section Run
variable {peer peer' peer'' : Peer}

theorem Calls.of_pfilter (h : peer'.pfilter = peer.pfilter) : peer.Calls peer' := by
  rw [Calls, h]
  cases peer.pfilter with
  | none => rfl
  | some filter => exact ⟨[], [], filter, rfl, rfl⟩

theorem Calls.of_exec {f g : CBloomFilter} (hfilter : peer.pfilter = some f)
    {calls : List CBloomFilter.FilterCall} {answers : List Bool} (hexec : f.exec calls = some (answers,g)) :
    peer.Calls { peer with pfilter := some g } := by
  rw [Calls, hfilter]
  exact ⟨calls, answers, g, hexec, rfl⟩

theorem Calls.trans (h : peer.Calls peer') (h' : peer'.Calls peer'') : peer.Calls peer'' := by
  rw [Calls] at h ⊢
  cases hfilter : peer.pfilter with
  | none =>
    rw [hfilter] at h
    rw [Calls, h] at h'
    exact h'
  | some filter =>
    rw [hfilter] at h
    obtain ⟨calls,answers,filter',hexec,hfilter'⟩ := h
    rw [Calls, hfilter'] at h'
    obtain ⟨calls',answers',filter'',hexec',hfilter''⟩ := h'
    exact ⟨calls ++ calls', answers ++ answers', filter'', CBloomFilter.exec_append hexec hexec', hfilter''⟩

theorem Calls.ok (h : peer.Calls peer') (hp : peer.Ok) : peer'.Ok := by
  intro filter' hfilter'
  rw [Calls] at h
  cases hfilter : peer.pfilter with
  | none =>
    rw [hfilter] at h
    cases h.symm.trans hfilter'
  | some filter =>
    rw [hfilter] at h
    obtain ⟨calls,answers,g,hexec,hg⟩ := h
    obtain ⟨answers',g',hexec',hgrows⟩ := (hp filter hfilter).exec calls
    obtain ⟨-,rfl⟩ := Prod.mk.inj (Option.some.inj (hexec.symm.trans hexec'))
    obtain rfl := Option.some.inj (hg.symm.trans hfilter')
    exact hgrows.ok (hp filter hfilter)

@[simp] theorem misbehaving_pfilter (peer : Peer) (howmuch : ℤ) :
    (peer.misbehaving howmuch).pfilter = peer.pfilter := by
  rw [misbehaving]
  split <;> rfl

theorem Ok.filterLoad (hp : peer.Ok) (filter : CBloomFilter) : (peer.filterLoad filter).Ok := by
  intro filter' hfilter'
  simp only [Peer.filterLoad] at hfilter'
  split at hfilter'
  · rw [misbehaving_pfilter] at hfilter'
    exact hp filter' hfilter'
  · rw [← Option.some.inj hfilter']
    exact CBloomFilter.updateEmptyFull_ok filter

theorem Ok.filterClear (stale : CBloomFilter) : (peer.filterClear stale).Ok := by
  intro filter hfilter hfull
  rw [← Option.some.inj hfilter] at hfull
  cases hfull

theorem exec_mempoolLoop {f : CBloomFilter} (hf : f.Ok) (pool : List (Uint256 × CTransaction))
    (vInv : List Uint256) : ∃ calls answers vInv' g,
      mempoolLoop pool vInv f = some (vInv',g) ∧ f.exec calls = some (answers,g) := by
  induction pool generalizing f vInv with
  | nil => exact ⟨[], [], vInv, f, rfl, rfl⟩
  | cons entry pool ih =>
    obtain ⟨hash,tx⟩ := entry
    obtain ⟨relevant,g,hg,hgrows,-⟩ := hf.isRelevantAndUpdate tx hash
    have hcall : f.call (.relevant tx hash) = some (relevant,g) := hg
    simp only [mempoolLoop, hg, Option.bind_eq_bind, Option.bind_some]
    generalize vInv ++ (if relevant then [hash] else []) = vNext
    split
    · exact ⟨[.relevant tx hash], [relevant], vNext, g, rfl, CBloomFilter.exec_cons hcall rfl⟩
    · obtain ⟨calls,answers,vInv',k,hloop,hexec⟩ := ih (hgrows.ok hf) vNext
      exact ⟨.relevant tx hash :: calls, relevant :: answers, vInv', k, hloop,
        CBloomFilter.exec_cons hcall hexec⟩

theorem exec_matchTxs {f : CBloomFilter} (hf : f.Ok) (block : CBlock) : ∃ answers merkleBlock g,
    f.exec (relevantCalls ext block.vtx) = some (answers,g) ∧
      CMerkleBlock.build ext block f = some (merkleBlock,g) := by
  obtain ⟨answers,g,hexec,-⟩ := hf.exec (relevantCalls ext block.vtx)
  obtain ⟨vMatchedTxn,hmatch,-⟩ := matchTxs_of_exec ext 0 block.vtx hexec
  refine ⟨answers, ⟨block.toCBlockHeader,
    CPartialMerkleTree.build ext.nodeHash (block.txHashes ext) answers, vMatchedTxn⟩, g, hexec, ?_⟩
  simp only [CMerkleBlock.build, hmatch, Option.bind_eq_bind, Option.bind_some, Option.pure_def]

theorem Ok.filterAdd (hp : peer.Ok) (vData : List UInt8) :
    ∃ peer', peer.filterAdd vData = some peer' ∧ peer.Calls peer' := by
  have hwarned := Calls.of_pfilter (misbehaving_pfilter peer 100)
  rw [Peer.filterAdd]
  split
  · exact ⟨_, rfl, hwarned⟩
  · cases hfilter : peer.pfilter with
    | none => exact ⟨_, rfl, hwarned⟩
    | some filter =>
      obtain ⟨answer,g,hcall,-⟩ := (hp filter hfilter).call (.insert vData)
      obtain ⟨g',hg',h⟩ := Option.bind_eq_some_iff.mp hcall
      obtain ⟨-,rfl⟩ := Prod.mk.inj (Option.some.inj h)
      refine ⟨{ peer with pfilter := some g' }, ?_, Calls.of_exec hfilter (CBloomFilter.exec_one hcall)⟩
      simp only [hg', Option.bind_eq_bind, Option.bind_some, Option.pure_def]

theorem Ok.relayTransaction (hp : peer.Ok) (tx : CTransaction) (hash : Uint256) :
    ∃ announced peer', peer.relayTransaction tx hash = some (announced,peer') ∧ peer.Calls peer' := by
  rw [Peer.relayTransaction]
  split
  · exact ⟨false, peer, rfl, Calls.of_pfilter rfl⟩
  · cases hfilter : peer.pfilter with
    | none => exact ⟨true, peer, rfl, Calls.of_pfilter rfl⟩
    | some filter =>
      obtain ⟨answer,g,hcall,-⟩ := (hp filter hfilter).call (.relevant tx hash)
      have hg : filter.isRelevantAndUpdate tx hash = some (answer,g) := hcall
      refine ⟨answer, { peer with pfilter := some g }, ?_,
        Calls.of_exec hfilter (CBloomFilter.exec_one hcall)⟩
      simp only [hg, Option.bind_eq_bind, Option.bind_some, Option.pure_def]

theorem Ok.mempool (hp : peer.Ok) (pool : List (Uint256 × CTransaction)) :
    ∃ vInv peer', peer.mempool pool = some (vInv,peer') ∧ peer.Calls peer' := by
  rw [Peer.mempool]
  cases hfilter : peer.pfilter with
  | none => exact ⟨_, peer, rfl, Calls.of_pfilter rfl⟩
  | some filter =>
    obtain ⟨calls,answers,vInv,g,hloop,hexec⟩ := exec_mempoolLoop (hp filter hfilter) pool []
    refine ⟨vInv, { peer with pfilter := some g }, ?_, Calls.of_exec hfilter hexec⟩
    simp only [hloop, Option.bind_eq_bind, Option.bind_some, Option.pure_def]

theorem Ok.filteredBlock (hp : peer.Ok) (block : CBlock) :
    ∃ answer peer', peer.filteredBlock ext block = some (answer,peer') ∧ peer.Calls peer' := by
  rw [Peer.filteredBlock]
  cases hfilter : peer.pfilter with
  | none => exact ⟨none, peer, rfl, Calls.of_pfilter rfl⟩
  | some filter =>
    obtain ⟨answers,merkleBlock,g,hexec,hbuild⟩ := exec_matchTxs ext (hp filter hfilter) block
    refine ⟨some merkleBlock, { peer with pfilter := some g }, ?_, Calls.of_exec hfilter hexec⟩
    simp only [hbuild, Option.bind_eq_bind, Option.bind_some, Option.pure_def]

/-- Every event is handled, and one that does not reset the filter is a sequence of calls to it. -/
theorem Ok.handle (hp : peer.Ok) (event : FilterEvent) :
    ∃ peer', peer.handle ext event = some peer' ∧ peer'.Ok ∧ (¬event.Resets → peer.Calls peer') := by
  -- everything but a reset reaches the filter by its calls
  have keeps {peer' : Peer} (h : peer.handle ext event = some peer') (hcalls : peer.Calls peer') :
      ∃ peer', peer.handle ext event = some peer' ∧ peer'.Ok ∧ (¬event.Resets → peer.Calls peer') :=
    ⟨peer', h, hcalls.ok hp, fun _ => hcalls⟩
  cases event with
  | filterLoad filter => exact ⟨_, rfl, hp.filterLoad filter, fun h => absurd trivial h⟩
  | filterClear stale => exact ⟨_, rfl, Ok.filterClear stale, fun h => absurd trivial h⟩
  | filterAdd vData =>
    obtain ⟨peer',h,hcalls⟩ := hp.filterAdd vData
    exact keeps h hcalls
  | relayTransaction tx hash =>
    obtain ⟨announced,peer',h,hcalls⟩ := hp.relayTransaction tx hash
    exact keeps (by rw [Peer.handle, h]; rfl) hcalls
  | mempool pool =>
    obtain ⟨vInv,peer',h,hcalls⟩ := hp.mempool pool
    exact keeps (by rw [Peer.handle, h]; rfl) hcalls
  | filteredBlock block =>
    obtain ⟨answer,peer',h,hcalls⟩ := hp.filteredBlock ext block
    exact keeps (by rw [Peer.handle, h]; rfl) hcalls

theorem Ok.run (hp : peer.Ok) (events : List FilterEvent) :
    ∃ peer', peer.run ext events = some peer' ∧ peer'.Ok ∧
      ((∀ event ∈ events, ¬event.Resets) → peer.Calls peer') := by
  induction events generalizing peer with
  | nil => exact ⟨peer, rfl, hp, fun _ => Calls.of_pfilter rfl⟩
  | cons event events ih =>
    obtain ⟨next,hnext,hok,hcalls⟩ := hp.handle ext event
    obtain ⟨peer',hrun,hok',hcalls'⟩ := ih hok
    refine ⟨peer', ?_, hok', fun hkeep => ?_⟩
    · rw [Peer.run, hnext, Option.bind_eq_bind, Option.bind_some, hrun]
    · rw [List.forall_mem_cons] at hkeep
      exact (hcalls hkeep.1).trans (hcalls' hkeep.2)

end Run

end Peer

section NoFalseNegatives
variable (ext : Externals) {f : CBloomFilter}

/-- The filter `f` is used further, and misses nothing. -/
structure NoFalseNegatives (f : CBloomFilter) (after : List CBloomFilter.FilterCall) : Prop where
  contained : ∃ answers g, f.exec after = some (answers,g) ∧
    ∀ vKey, f.contains vKey = some true → g.contains vKey = some true
  inserted : ∀ vKey, ∃ answers g, f.exec (.insert vKey :: after) = some (answers,g) ∧
    g.contains vKey = some true
  spent : f.nFlags &&& bloomUpdateMask = bloomUpdateAll → ∀ tx hash n, f.MatchedOutput tx hash n →
    ∃ answers g, f.exec (.relevant tx hash :: after) = some (answers,g) ∧
      ∀ tx' hash', ⟨hash,n⟩ ∈ tx'.vin.map CTxIn.prevout →
        ∃ g', g.isRelevantAndUpdate tx' hash' = some (true,g')

/-- A spending in the block of the matched output is one of the matched transactions. -/
def BlockMatches (f : CBloomFilter) (block : CBlock) : Prop :=
  ∃ merkleBlock g, CMerkleBlock.build ext block f = some (merkleBlock,g) ∧
    (f.nFlags &&& bloomUpdateMask = bloomUpdateAll → ∀ (i j n : ℕ) (tx tx' : CTransaction),
      block.vtx[i]? = some tx → block.vtx[j]? = some tx' → i < j →
      (∃ answers k, f.exec (relevantCalls ext (block.vtx.take i)) = some (answers,k) ∧
        k.MatchedOutput tx (ext.txHash tx) n) →
      ⟨ext.txHash tx,n⟩ ∈ tx'.vin.map CTxIn.prevout → (j,ext.txHash tx') ∈ merkleBlock.vMatchedTxn)

theorem CBloomFilter.Ok.noFalseNegatives (hf : f.Ok) (after : List CBloomFilter.FilterCall) :
    NoFalseNegatives f after where
  contained := by
    obtain ⟨answers,g,hexec,hgrows⟩ := hf.exec after
    exact ⟨answers, g, hexec, fun vKey => hgrows.contains hf⟩
  inserted vKey := by
    obtain ⟨k,hinsert,hgrows,hin⟩ := hf.insert vKey
    obtain ⟨answers,g,hexec,hgrows'⟩ := (hgrows.ok hf).exec after
    have hcall : f.call (.insert vKey) = some (true,k) := by
      simp only [CBloomFilter.call, hinsert, Option.bind_eq_bind, Option.bind_some, Option.pure_def]
    exact ⟨true :: answers, g, CBloomFilter.exec_cons hcall hexec, hgrows'.contains (hgrows.ok hf) hin⟩
  spent hall tx hash n hmatched := by
    obtain ⟨relevant,k,hk,hgrows⟩ := hf.call (.relevant tx hash)
    obtain ⟨answers,g,hexec,hgrows'⟩ := (hgrows.ok hf).exec after
    exact ⟨relevant :: answers, g, CBloomFilter.exec_cons hk hexec, fun tx' hash' hspends =>
      CBloomFilter.relevant_of_matchedOutput hf hall hmatched hk hgrows' hspends hash'⟩

theorem CBloomFilter.Ok.blockMatches (hf : f.Ok) (block : CBlock) : BlockMatches ext f block := by
  obtain ⟨answers,g,hexec,-⟩ := hf.exec (relevantCalls ext block.vtx)
  obtain ⟨vMatchedTxn,hmatch,hmem⟩ := matchTxs_of_exec ext 0 block.vtx hexec
  refine ⟨⟨block.toCBlockHeader,
    CPartialMerkleTree.build ext.nodeHash (block.txHashes ext) answers, vMatchedTxn⟩, g, ?_, ?_⟩
  · simp only [CMerkleBlock.build, hmatch, Option.bind_eq_bind, Option.bind_some, Option.pure_def]
  · intro hall i j n tx tx' htx htx' hij ⟨answersI,k,hk,hmatched⟩ hspends
    have hcall (j : ℕ) (tx : CTransaction) (htx : block.vtx[j]? = some tx) :
        (relevantCalls ext block.vtx)[j]? = some (.relevant tx (ext.txHash tx)) := by
      rw [relevantCalls, List.getElem?_map, htx]
      rfl
    -- the filter when the turn of the spending comes
    obtain ⟨before,k',relevant,m,kJ,answer,kJ',hbefore,hrelevant,hgrows,hanswer,hget⟩ :=
      hf.exec_later hexec hij (hcall i tx htx) (hcall j tx' htx')
    have htake : (relevantCalls ext block.vtx).take i = relevantCalls ext (block.vtx.take i) :=
      List.map_take.symm
    rw [htake] at hbefore
    obtain ⟨-,rfl⟩ := Prod.mk.inj (Option.some.inj (hbefore.symm.trans hk))
    obtain ⟨before',k'',hk'',hgrowsK⟩ := hf.exec (relevantCalls ext (block.vtx.take i))
    obtain ⟨-,rfl⟩ := Prod.mk.inj (Option.some.inj (hk''.symm.trans hk))
    obtain ⟨last,hlast⟩ := CBloomFilter.relevant_of_matchedOutput (hgrowsK.ok hf)
      (by rw [hgrowsK.nFlags]; exact hall) hmatched hrelevant hgrows hspends (ext.txHash tx')
    have htrue : answer = true := (Prod.mk.inj (Option.some.inj (hanswer.symm.trans hlast))).1
    have hin := hmem j tx' htx' (by rw [hget, htrue])
    rwa [Nat.zero_add] at hin

/-- A peer loads a filter of an accepted size. Whatever it does next, the node answers; until the peer
chooses another filter its messages are calls to this one; and after any calls the filter has no false
negatives. -/
theorem loaded_filter_has_no_false_negatives (peer : Peer) (filter : CBloomFilter)
    (hsize : filter.isWithinSizeConstraints = true) :
    (∀ events, ∃ peer', (peer.filterLoad filter).run ext events = some peer' ∧
      ((∀ event ∈ events, ¬event.Resets) → ∃ calls answers f,
        filter.updateEmptyFull.exec calls = some (answers,f) ∧ peer'.pfilter = some f)) ∧
    ∀ before, ∃ answers f, filter.updateEmptyFull.exec before = some (answers,f) ∧
      f.nFlags = filter.nFlags ∧ (∀ after, NoFalseNegatives f after) ∧ ∀ block, BlockMatches ext f block := by
  have hok := CBloomFilter.updateEmptyFull_ok filter
  have hloaded : (peer.filterLoad filter).pfilter = some filter.updateEmptyFull := by
    simp only [Peer.filterLoad, hsize, Bool.not_true, Bool.false_eq_true, if_false]
  have hpeer : (peer.filterLoad filter).Ok := by
    intro f hf
    rw [← Option.some.inj (hloaded.symm.trans hf)]
    exact hok
  refine ⟨fun events => ?_, fun before => ?_⟩
  · obtain ⟨peer',hrun,-,hcalls⟩ := hpeer.run ext events
    refine ⟨peer', hrun, fun hkeep => ?_⟩
    have h := hcalls hkeep
    rw [Peer.Calls, hloaded] at h
    exact h
  · obtain ⟨answers,f,hexec,hgrows⟩ := hok.exec before
    exact ⟨answers, f, hexec, hgrows.nFlags, (hgrows.ok hok).noFalseNegatives,
      (hgrows.ok hok).blockMatches ext⟩

theorem loaded_filter_sample : NoFalseNegatives
    (CBloomFilter.updateEmptyFull ⟨[0x61,0x00], false, false, 3, 7, bloomUpdateAll⟩) [.insert [1,2,3]] := by
  obtain ⟨-,hcalls⟩ := loaded_filter_has_no_false_negatives smallExternals ⟨false, none, false, 0⟩
    ⟨[0x61,0x00], false, false, 3, 7, bloomUpdateAll⟩ (by decide)
  obtain ⟨answers,f,hexec,-,hfilter,-⟩ := hcalls []
  obtain ⟨-,rfl⟩ := Prod.mk.inj (Option.some.inj hexec)
  exact hfilter _

end NoFalseNegatives

end Candypool.Net
