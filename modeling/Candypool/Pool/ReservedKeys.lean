import Candypool.Wallet.KeyPool
import Mathlib.Data.Set.Card

/-! The keys that the pool server reserves: one for each template and one for each client. The
objects that hold the reservations are made with `new`, and none of them is ever deleted. -/
namespace Candypool.Pool
open Candypool.Wallet

/-- `currentKey` is the address of the client's reservation. -/
structure KeyClient where
  thread : ℕ
  loggedIn : Bool
  currentKey : Option ℕ
  deriving DecidableEq, Repr

/-- A server thread. `currentBlock` is the address of the reservation whose key the current template
pays to. -/
structure KeyThread where
  coinTypeBlockHeight : ℕ
  currentBlock : Option ℕ
  deriving DecidableEq, Repr

/-- The node's height, the wallet and the reservations by address, the address the next reservation
gets, the server threads and the connected clients. -/
structure KeyServer where
  nHeight : ℕ
  keys : KeyState
  nextKey : ℕ
  threads : Finset ℕ
  thread : ℕ → KeyThread
  clients : Finset ℕ
  client : ℕ → KeyClient

/-- `created` is whether `CreateNewBlock`, once it has a key, makes a block, or throws. `made` is whether
a workload meets the minimum before the nonces run out. `submitBlock` is a share that is a block on the
tip. The polls of a thread come in any order. -/
inductive KeyEvent
  | tip (nHeight : ℕ)
  | start (t coinTypeBlockHeight : ℕ) (created : Bool)
  | connect (c t : ℕ)
  | login (c : ℕ) (made : Bool)
  | generateWork (c : ℕ) (made : Bool)
  | poll (t : ℕ) (created : Bool)
  | submitBlock (c : ℕ)
  | disconnect (c : ℕ)
  deriving DecidableEq, Repr

namespace KeyServer

/-- `new CReserveKey(pWallet)` -/
def newKey (s : KeyServer) : KeyServer :=
  { s with keys := { s.keys with held := Function.update s.keys.held s.nextKey CReserveKey.empty }
           nextKey := s.nextKey+1 }

def setThread (s : KeyServer) (t : ℕ) (thread : KeyThread) : KeyServer :=
  { s with threads := insert t s.threads, thread := Function.update s.thread t thread }

def setClient (s : KeyServer) (c : ℕ) (client : KeyClient) : KeyServer :=
  { s with clients := insert c s.clients, client := Function.update s.client c client }

/-- `~xptServerClient_t` -/
def deleteClient (s : KeyServer) (c : ℕ) : KeyServer :=
  { s with clients := s.clients.erase c
           client := Function.update s.client c { s.client c with currentKey := none } }

end KeyServer

section Code
variable (nTargetSize : ℕ)

/-- `GetReservedKey` of the reservation at an address; `none` if the wallet throws, which ends the
process. -/
def getReservedKeyAt (s : KeyServer) (a : ℕ) : Option (Option ℕ × KeyServer) :=
  if (s.keys.held a).nIndex = -1 ∧ (s.keys.wallet.reserveKeyFromKeyPool nTargetSize).1.thrown then none
  else
    let r := (KeyOp.getReservedKey a).exec nTargetSize s.keys
    some (r.1, { s with keys := r.2 })

/-- `CreateNewBlock(*new CReserveKey(pWallet))`: the address the new template pays to, or `NULL`. -/
def createTemplate (s : KeyServer) (created : Bool) : Option (Option ℕ × KeyServer) :=
  match getReservedKeyAt nTargetSize s.newKey s.nextKey with
  | none => none
  | some (none, s') => some (none, s')
  | some (some _, s') => if created then some (some s.nextKey, s') else none

/-- What `xptCallback_generateWork` does with keys, and `none` where it reads through a null pointer. -/
def generateKeyWork (s : KeyServer) (c : ℕ) (made : Bool) : Option KeyServer :=
  let client := s.client c
  let thread := s.thread client.thread
  if thread.currentBlock = none then none
  else
    let a := client.currentKey.getD s.nextKey
    let s := if client.currentKey = none then
      s.newKey.setClient c { client with currentKey := some a } else s
    (getReservedKeyAt nTargetSize s a).map fun (key,s) =>
      if key.isSome && made then
        { s with thread :=
          Function.update s.thread client.thread { thread with coinTypeBlockHeight := s.nHeight+1 } }
      else s

/-- `none` is the end of the process. -/
def KeyEvent.exec (s : KeyServer) : KeyEvent → Option KeyServer
  | .tip nHeight => some { s with nHeight := nHeight }
  | .start t coinTypeBlockHeight created =>
    if t ∈ s.threads then some s
    else (createTemplate nTargetSize s created).map fun (template,s) =>
      if template.isSome then s.setThread t ⟨coinTypeBlockHeight, template⟩ else s
  | .connect c t =>
    if c ∈ s.clients ∨ t ∉ s.threads then some s else some (s.setClient c ⟨t, false, none⟩)
  | .login c made =>
    if c ∉ s.clients then some s
    else generateKeyWork nTargetSize (s.setClient c { s.client c with loggedIn := true }) c made
  | .generateWork c made =>
    if c ∉ s.clients ∨ (s.client c).loggedIn = false then some s
    else generateKeyWork nTargetSize s c made
  | .poll t created =>
    if t ∉ s.threads ∨ s.nHeight+1 ≤ (s.thread t).coinTypeBlockHeight then some s
    else (createTemplate nTargetSize s created).map fun (template,s) =>
      if template.isSome then s.setThread t ⟨s.nHeight+1, template⟩
      else s.setThread t { s.thread t with currentBlock := none }
  | .submitBlock c =>
    if c ∉ s.clients then some s
    else match (s.client c).currentKey with
      | none => some s
      | some a => some { s with keys := ((KeyOp.keepKey a).exec nTargetSize s.keys).2 }
  | .disconnect c => if c ∉ s.clients then some s else some (s.deleteClient c)

/-- The states that a list of events leads to, each event meeting `ok` where it happens. -/
inductive KeyRun (ok : KeyServer → KeyEvent → Prop) (start : KeyServer) :
    List KeyEvent → KeyServer → Prop
  | start : KeyRun ok start [] start
  | step {events : List KeyEvent} {s s' : KeyServer} (event : KeyEvent)
      (rest : KeyRun ok start events s) (meets : ok s event)
      (result : event.exec nTargetSize s = some s') : KeyRun ok start (events ++ [event]) s'

end Code

section Property

/-- The indexes that are reserved but neither kept nor returned: their records are in the database
while they are not in the set. -/
def outstanding (w : CWallet) : Set ℤ := {i | (∃ key, w.pool i = some key) ∧ i ∉ w.setKeyPool}

namespace KeyServer

/-- The threads that have a template. -/
def served (s : KeyServer) : Finset ℕ := s.threads.filter fun t => (s.thread t).currentBlock.isSome

/-- At most one reservation for each client and one for each current template. -/
def NoLeak (s : KeyServer) : Prop :=
  (outstanding s.keys.wallet).encard ≤ (s.clients.card+s.served.card : ℕ)

/-- The index that client `c` holds is available in `s'`. -/
def KeyAvailable (s s' : KeyServer) (c : ℕ) : Prop :=
  ∀ a, (s.client c).currentKey = some a → (s.keys.held a).nIndex ≠ -1 →
    (s.keys.held a).nIndex ∈ s'.keys.wallet.setKeyPool

/-- Before any thread is started. -/
def fresh (nHeight : ℕ) (w : CWallet) : KeyServer :=
  ⟨nHeight, KeyState.start w, 0, ∅, fun _ => ⟨0, none⟩, ∅, fun _ => ⟨0, false, none⟩⟩

end KeyServer

/-- A key pool as it is loaded: it has all the records, and indexes count from one. -/
structure LoadedPool (w : CWallet) : Prop where
  pos : ∀ i ∈ w.setKeyPool, 0 < i
  all : ∀ i key, w.pool i = some key → i ∈ w.setKeyPool

/-- No live reservation is dropped: the template that a poll replaces and the client that disconnects
hold no index. -/
def KeyEvent.DropsNothing (s : KeyServer) : KeyEvent → Prop
  | .poll t _ => t ∈ s.threads → s.nHeight+1 > (s.thread t).coinTypeBlockHeight →
    ∀ a, (s.thread t).currentBlock = some a → (s.keys.held a).nIndex = -1
  | .disconnect c => c ∈ s.clients →
    ∀ a, (s.client c).currentKey = some a → (s.keys.held a).nIndex = -1
  | _ => True

end Property

section Wallet
variable {w : CWallet} {nTargetSize : ℕ}

theorem addKey_outstanding {i : ℤ} (h : i ∈ outstanding w.addKey) : i ∈ outstanding w := by
  obtain ⟨⟨key,hkey⟩,hset⟩ := h
  have hne : i ≠ w.nEnd := by
    intro heq
    apply hset
    rw [heq]
    exact Finset.mem_insert_self _ _
  rw [CWallet.addKey_pool, Function.update_of_ne hne] at hkey
  exact ⟨⟨key,hkey⟩, fun hmem => hset (Finset.mem_insert_of_mem hmem)⟩

theorem nEnd_pos (hpos : ∀ i ∈ w.setKeyPool, 0 < i) : 0 < w.nEnd := by
  rw [CWallet.nEnd]
  by_cases hne : w.setKeyPool.Nonempty
  · have hmax := hpos _ (Finset.max'_mem _ hne)
    rw [dif_pos hne]
    omega
  · rw [dif_neg hne]
    exact Int.one_pos

theorem addKey_pos (hpos : ∀ i ∈ w.setKeyPool, 0 < i) : ∀ i ∈ w.addKey.setKeyPool, 0 < i := by
  intro i hi
  rcases Finset.mem_insert.mp hi with rfl | hold
  · exact nEnd_pos hpos
  · exact hpos i hold

/-- What keeps: the indexes are positive and those that are out were out before. -/
structure Grown (w w' : CWallet) : Prop where
  pos : ∀ i ∈ w'.setKeyPool, 0 < i
  out : ∀ i ∈ outstanding w', i ∈ outstanding w

theorem addKeys_grown (n : ℕ) (hpos : ∀ i ∈ w.setKeyPool, 0 < i) :
    Grown w (CWallet.addKey^[n] w) := by
  induction n generalizing w with
  | zero => exact ⟨hpos, fun i hi => hi⟩
  | succ n ih =>
    have hrest := ih (addKey_pos hpos)
    exact ⟨hrest.pos, fun i hi => addKey_outstanding (hrest.out i hi)⟩

/-- A reservation takes out at most the index it returns. -/
theorem reserve_outstanding (hpos : ∀ i ∈ w.setKeyPool, 0 < i) :
    (∀ i ∈ (w.reserveKeyFromKeyPool nTargetSize).2.setKeyPool, 0 < i) ∧
      ∀ i ∈ outstanding (w.reserveKeyFromKeyPool nTargetSize).2, i ∈ outstanding w ∨
        i = (w.reserveKeyFromKeyPool nTargetSize).1.nIndex ∧ 0 < i := by
  have hgrown : Grown w (if w.fLocked then w else (w.topUpKeyPool nTargetSize).2) := by
    by_cases hlocked : w.fLocked = true
    · rw [if_pos hlocked]
      exact ⟨hpos, fun i hi => hi⟩
    · rw [if_neg hlocked, CWallet.topUpKeyPool, if_neg hlocked]
      exact addKeys_grown _ hpos
  rw [CWallet.reserveKeyFromKeyPool]
  dsimp only
  generalize (if w.fLocked then w else (w.topUpKeyPool nTargetSize).2) = v at hgrown ⊢
  by_cases hne : v.setKeyPool.Nonempty
  · have hmin := hgrown.pos _ (Finset.min'_mem _ hne)
    have herase : (∀ i ∈ v.setKeyPool.erase (v.setKeyPool.min' hne), 0 < i) ∧
        ∀ i ∈ outstanding { v with setKeyPool := v.setKeyPool.erase (v.setKeyPool.min' hne) },
          i ∈ outstanding w ∨ i = v.setKeyPool.min' hne ∧ 0 < i := by
      refine ⟨fun i hi => hgrown.pos i (Finset.mem_of_mem_erase hi), ?_⟩
      intro i hi
      by_cases heq : i = v.setKeyPool.min' hne
      · exact Or.inr ⟨heq, by rw [heq]; exact hmin⟩
      · left
        apply hgrown.out
        exact ⟨hi.1, fun hmem => hi.2 (Finset.mem_erase.mpr ⟨heq,hmem⟩)⟩
    rw [dif_pos hne]
    cases v.pool (v.setKeyPool.min' hne) with
    | none => exact herase
    | some key => exact herase
  · rw [dif_neg hne]
    exact ⟨hgrown.pos, fun i hi => Or.inl (hgrown.out i hi)⟩

/-- A reservation that fails without throwing holds nothing. -/
theorem reserve_none (hthrown : (w.reserveKeyFromKeyPool nTargetSize).1.thrown = false)
    (hkey : (w.reserveKeyFromKeyPool nTargetSize).1.vchPubKey = none) :
    (w.reserveKeyFromKeyPool nTargetSize).1.nIndex = -1 := by
  rw [CWallet.reserveKeyFromKeyPool] at hthrown hkey ⊢
  dsimp only at hthrown hkey ⊢
  generalize (if w.fLocked then w else (w.topUpKeyPool nTargetSize).2) = v at hthrown hkey ⊢
  by_cases hne : v.setKeyPool.Nonempty
  · rw [dif_pos hne] at hthrown hkey
    cases hpool : v.pool (v.setKeyPool.min' hne) with
    | none =>
      rw [hpool] at hthrown
      cases hthrown
    | some key =>
      rw [hpool] at hkey
      cases hkey
  · rw [dif_neg hne]

end Wallet

section Cover

/-- Every index that is out is held by one of the reservations `own`. -/
structure KeysCovered (k : KeyState) (own : ℕ → Prop) : Prop where
  pos : ∀ i ∈ k.wallet.setKeyPool, 0 < i
  cover : ∀ i ∈ outstanding k.wallet, i ≠ -1 ∧ ∃ a, own a ∧ (k.held a).nIndex = i

variable {k : KeyState} {own own' : ℕ → Prop} {nTargetSize a : ℕ}

theorem KeysCovered.mono (h : KeysCovered k own) (hown : ∀ a, own a → own' a) : KeysCovered k own' := by
  refine ⟨h.pos, ?_⟩
  intro i hi
  obtain ⟨hne,b,hb,hindex⟩ := h.cover i hi
  exact ⟨hne, b, hown b hb, hindex⟩

/-- A reservation that holds nothing can be forgotten. -/
theorem KeysCovered.forget (h : KeysCovered k own) (ha : (k.held a).nIndex = -1) :
    KeysCovered k fun b => own b ∧ b ≠ a := by
  refine ⟨h.pos, ?_⟩
  intro i hi
  obtain ⟨hne,b,hb,hindex⟩ := h.cover i hi
  refine ⟨hne, b, ⟨hb, ?_⟩, hindex⟩
  intro heq
  rw [heq, ha] at hindex
  exact hne hindex.symm

/-- A new reservation takes no one's place. -/
theorem KeysCovered.new (h : KeysCovered k own) (ha : ¬ own a) (r : CReserveKey) :
    KeysCovered { k with held := Function.update k.held a r } own := by
  refine ⟨h.pos, ?_⟩
  intro i hi
  obtain ⟨hne,b,hb,hindex⟩ := h.cover i hi
  refine ⟨hne, b, hb, ?_⟩
  have hba : b ≠ a := by
    intro heq
    rw [heq] at hb
    exact ha hb
  change (Function.update k.held a r b).nIndex = i
  rw [Function.update_of_ne hba]
  exact hindex

/-- What `GetReservedKey` does to the reservation at `a` and to the wallet. -/
theorem KeysCovered.getReservedKey (h : KeysCovered k own) (ha : own a) :
    KeysCovered ((KeyOp.getReservedKey a).exec nTargetSize k).2 own := by
  have hreserve := @reserve_outstanding k.wallet nTargetSize h.pos
  rw [KeyOp.exec, CReserveKey.getReservedKey]
  by_cases hindex : (k.held a).nIndex = -1
  · -- the reservation holds nothing before
    have hnext {r : CReserveKey} (hr : ∀ i, 0 < i →
        i = (k.wallet.reserveKeyFromKeyPool nTargetSize).1.nIndex → r.nIndex = i) :
        KeysCovered
          { k with wallet := (k.wallet.reserveKeyFromKeyPool nTargetSize).2,
                   held := Function.update k.held a r } own := by
      refine ⟨hreserve.1, ?_⟩
      intro i hi
      rcases hreserve.2 i hi with hold | ⟨hnew,hpos⟩
      · obtain ⟨hne,b,hb,hbindex⟩ := h.cover i hold
        have hba : b ≠ a := by
          intro heq
          rw [heq, hindex] at hbindex
          exact hne hbindex.symm
        refine ⟨hne, b, hb, ?_⟩
        change (Function.update k.held a r b).nIndex = i
        rw [Function.update_of_ne hba]
        exact hbindex
      · refine ⟨by omega, a, ha, ?_⟩
        change (Function.update k.held a r a).nIndex = i
        rw [Function.update_self]
        exact hr i hpos hnew
    rw [if_pos hindex]
    dsimp only
    by_cases hthrown : (k.wallet.reserveKeyFromKeyPool nTargetSize).1.thrown = true
    · rw [if_pos hthrown]
      exact hnext fun i _ heq => heq.symm
    · rw [if_neg hthrown]
      by_cases hfound : (k.wallet.reserveKeyFromKeyPool nTargetSize).1.nIndex ≠ -1
      · rw [if_pos hfound]
        exact hnext fun i _ heq => heq.symm
      · rw [if_neg hfound]
        rw [not_not] at hfound
        cases (k.wallet.reserveKeyFromKeyPool nTargetSize).2.vchDefaultKey with
        | none => exact hnext fun i hpos heq => by omega
        | some key => exact hnext fun i hpos heq => by omega
  · rw [if_neg hindex]
    dsimp only
    rw [Function.update_eq_self]
    exact h

/-- Keeping a key takes its record away. -/
theorem KeysCovered.keepKey (h : KeysCovered k own) (a : ℕ) :
    KeysCovered ((KeyOp.keepKey a).exec nTargetSize k).2 own := by
  rw [KeyOp.exec, CReserveKey.keepKey]
  dsimp only
  by_cases hindex : (k.held a).nIndex ≠ -1
  · rw [if_pos hindex, if_pos hindex]
    refine ⟨h.pos, ?_⟩
    intro i hi
    obtain ⟨⟨key,hkey⟩,hset⟩ := hi
    change (k.wallet.keepKey (k.held a).nIndex).pool i = some key at hkey
    -- another index of the pool than the one kept
    have hne : i ≠ (k.held a).nIndex := by
      intro heq
      rw [heq, CWallet.keepKey_pool, Function.update_self] at hkey
      cases hkey
    rw [CWallet.keepKey_pool, Function.update_of_ne hne] at hkey
    obtain ⟨hneg,b,hb,hbindex⟩ := h.cover i ⟨⟨key,hkey⟩,hset⟩
    have hba : b ≠ a := by
      intro heq
      rw [heq] at hbindex
      exact hne hbindex.symm
    refine ⟨hneg, b, hb, ?_⟩
    change (Function.update k.held a CReserveKey.empty b).nIndex = i
    rw [Function.update_of_ne hba]
    exact hbindex
  · rw [if_neg hindex, if_neg hindex]
    rw [not_not] at hindex
    refine ⟨h.pos, ?_⟩
    intro i hi
    obtain ⟨hne,b,hb,hbindex⟩ := h.cover i hi
    have hba : b ≠ a := by
      intro heq
      rw [heq, hindex] at hbindex
      exact hne hbindex.symm
    refine ⟨hne, b, hb, ?_⟩
    change (Function.update k.held a CReserveKey.empty b).nIndex = i
    rw [Function.update_of_ne hba]
    exact hbindex

/-- A `GetReservedKey` that fails leaves a reservation without an index. -/
theorem getReservedKey_none (hthrown : ¬ ((k.held a).nIndex = -1 ∧
      (k.wallet.reserveKeyFromKeyPool nTargetSize).1.thrown = true))
    (hindex : (k.held a).nIndex = -1)
    (h : ((KeyOp.getReservedKey a).exec nTargetSize k).1 = none) :
    (((KeyOp.getReservedKey a).exec nTargetSize k).2.held a).nIndex = -1 := by
  have hfalse : (k.wallet.reserveKeyFromKeyPool nTargetSize).1.thrown = false := by
    rw [Bool.eq_false_iff]
    exact fun ht => hthrown ⟨hindex,ht⟩
  rw [KeyOp.exec, CReserveKey.getReservedKey, if_pos hindex] at h ⊢
  dsimp only at h ⊢
  rw [hfalse, if_neg Bool.false_ne_true] at h ⊢
  by_cases hfound : (k.wallet.reserveKeyFromKeyPool nTargetSize).1.nIndex ≠ -1
  · rw [if_pos hfound] at h
    exact absurd (reserve_none hfalse h) hfound
  · rw [if_neg hfound]
    cases (k.wallet.reserveKeyFromKeyPool nTargetSize).2.vchDefaultKey with
    | none =>
      dsimp only
      rw [Function.update_self]
    | some key =>
      dsimp only
      rw [Function.update_self]

end Cover

section Server
variable {s s' : KeyServer} {own : ℕ → Prop} {nTargetSize a c t : ℕ}

/-- The reservations that a client or a current template refers to. -/
def KeyServer.Owner (s : KeyServer) (a : ℕ) : Prop :=
  (∃ c ∈ s.clients, (s.client c).currentKey = some a) ∨
    ∃ t ∈ s.threads, (s.thread t).currentBlock = some a

/-- Nothing is out that no one refers to, and the address that comes next is unused. -/
structure KeyServer.Inv (s : KeyServer) : Prop where
  covered : KeysCovered s.keys s.Owner
  used : ∀ a, s.Owner a → a < s.nextKey

theorem owner_setThread (h : s.Owner a) (hold : t ∈ s.threads → (s.thread t).currentBlock ≠ some a)
    (thread : KeyThread) : (s.setThread t thread).Owner a := by
  rcases h with hclient | ⟨t',ht',hblock⟩
  · exact Or.inl hclient
  · have hne : t' ≠ t := by
      intro heq
      rw [heq] at ht' hblock
      exact hold ht' hblock
    refine Or.inr ⟨t', Finset.mem_insert_of_mem ht', ?_⟩
    change (Function.update s.thread t thread t').currentBlock = some a
    rw [Function.update_of_ne hne]
    exact hblock

theorem owner_setThread_self {thread : KeyThread} (h : thread.currentBlock = some a) :
    (s.setThread t thread).Owner a := by
  refine Or.inr ⟨t, Finset.mem_insert_self _ _, ?_⟩
  change (Function.update s.thread t thread t).currentBlock = some a
  rw [Function.update_self]
  exact h

theorem owner_setThread_cases {thread : KeyThread} (h : (s.setThread t thread).Owner a) :
    s.Owner a ∨ thread.currentBlock = some a := by
  rcases h with hclient | ⟨t',ht',hblock⟩
  · exact Or.inl (Or.inl hclient)
  · change (Function.update s.thread t thread t').currentBlock = some a at hblock
    by_cases heq : t' = t
    · rw [heq, Function.update_self] at hblock
      exact Or.inr hblock
    · rw [Function.update_of_ne heq] at hblock
      exact Or.inl (Or.inr ⟨t', Finset.mem_of_mem_insert_of_ne ht' heq, hblock⟩)

theorem owner_setClient (h : s.Owner a) (hold : c ∈ s.clients → (s.client c).currentKey ≠ some a)
    (client : KeyClient) : (s.setClient c client).Owner a := by
  rcases h with ⟨c',hc',hkey⟩ | hthread
  · have hne : c' ≠ c := by
      intro heq
      rw [heq] at hc' hkey
      exact hold hc' hkey
    refine Or.inl ⟨c', Finset.mem_insert_of_mem hc', ?_⟩
    change (Function.update s.client c client c').currentKey = some a
    rw [Function.update_of_ne hne]
    exact hkey
  · exact Or.inr hthread

theorem owner_setClient_self {client : KeyClient} (h : client.currentKey = some a) :
    (s.setClient c client).Owner a := by
  refine Or.inl ⟨c, Finset.mem_insert_self _ _, ?_⟩
  change (Function.update s.client c client c).currentKey = some a
  rw [Function.update_self]
  exact h

theorem owner_setClient_cases {client : KeyClient} (h : (s.setClient c client).Owner a) :
    s.Owner a ∨ client.currentKey = some a := by
  rcases h with ⟨c',hc',hkey⟩ | hthread
  · change (Function.update s.client c client c').currentKey = some a at hkey
    by_cases heq : c' = c
    · rw [heq, Function.update_self] at hkey
      exact Or.inr hkey
    · rw [Function.update_of_ne heq] at hkey
      exact Or.inl (Or.inl ⟨c', Finset.mem_of_mem_insert_of_ne hc' heq, hkey⟩)
  · exact Or.inl (Or.inr hthread)

/-- A client that keeps its key keeps every reservation referred to. -/
theorem KeyServer.Inv.setClient_same (hs : s.Inv) (hc : c ∈ s.clients) {client : KeyClient}
    (hkey : client.currentKey = (s.client c).currentKey) : (s.setClient c client).Inv := by
  constructor
  · apply hs.covered.mono
    intro a ha
    by_cases hmine : (s.client c).currentKey = some a
    · exact owner_setClient_self (hkey.trans hmine)
    · exact owner_setClient ha (fun _ => hmine) client
  · intro a ha
    rcases owner_setClient_cases ha with hold | hnew
    · exact hs.used a hold
    · exact hs.used a (Or.inl ⟨c, hc, hkey.symm.trans hnew⟩)

theorem getReservedKeyAt_some {key : Option ℕ}
    (h : getReservedKeyAt nTargetSize s a = some (key,s')) :
    s' = { s with keys := ((KeyOp.getReservedKey a).exec nTargetSize s.keys).2 } ∧
      key = ((KeyOp.getReservedKey a).exec nTargetSize s.keys).1 ∧
      ¬ ((s.keys.held a).nIndex = -1 ∧
        (s.keys.wallet.reserveKeyFromKeyPool nTargetSize).1.thrown = true) := by
  rw [getReservedKeyAt] at h
  by_cases hthrown : (s.keys.held a).nIndex = -1 ∧
      (s.keys.wallet.reserveKeyFromKeyPool nTargetSize).1.thrown = true
  · rw [if_pos hthrown] at h
    cases h
  · rw [if_neg hthrown, Option.some.injEq, Prod.mk.injEq] at h
    exact ⟨h.2.symm, h.1.symm, hthrown⟩

/-- `CreateNewBlock` takes out at most the index of its own reservation, and none if it returns
`NULL`. -/
theorem createTemplate_covered {created : Bool} {template : Option ℕ} (h : KeysCovered s.keys own)
    (hown : ¬ own s.nextKey) (hcreate : createTemplate nTargetSize s created = some (template,s')) :
    ∃ k, s' = { s with keys := k, nextKey := s.nextKey+1 } ∧
      (template = none ∧ KeysCovered k own ∨
        template = some s.nextKey ∧ KeysCovered k fun a => own a ∨ a = s.nextKey) := by
  have hnew : KeysCovered s.newKey.keys fun a => own a ∨ a = s.nextKey :=
    (h.new hown CReserveKey.empty).mono fun a ha => Or.inl ha
  have hindex : (s.newKey.keys.held s.nextKey).nIndex = -1 := by
    change (Function.update s.keys.held s.nextKey CReserveKey.empty s.nextKey).nIndex = -1
    rw [Function.update_self]
    rfl
  rw [createTemplate] at hcreate
  cases hget : getReservedKeyAt nTargetSize s.newKey s.nextKey with
  | none =>
    rw [hget] at hcreate
    cases hcreate
  | some r =>
    obtain ⟨key,s1⟩ := r
    obtain ⟨rfl,hkey,hthrown⟩ := getReservedKeyAt_some hget
    have hcovered : KeysCovered ((KeyOp.getReservedKey s.nextKey).exec nTargetSize s.newKey.keys).2
        fun a => own a ∨ a = s.nextKey := hnew.getReservedKey (Or.inr rfl)
    rw [hget] at hcreate
    cases key with
    | none =>
      cases hcreate
      refine ⟨_, rfl, Or.inl ⟨rfl, ?_⟩⟩
      apply (hcovered.forget (getReservedKey_none hthrown hindex hkey.symm)).mono
      intro a ha
      exact ha.1.resolve_right ha.2
    | some key =>
      cases created with
      | false => cases hcreate
      | true =>
        cases hcreate
        exact ⟨_, rfl, Or.inr ⟨rfl, hcovered⟩⟩

theorem KeyServer.Inv.of_keys (hs : s.Inv) {k : KeyState} (h : KeysCovered k s.Owner) :
    KeyServer.Inv { s with keys := k } := ⟨h, hs.used⟩

/-- The height of a thread has nothing to do with its keys. -/
theorem KeyServer.Inv.setHeight (hs : s.Inv) (t nHeight : ℕ) : KeyServer.Inv { s with
    thread := Function.update s.thread t { s.thread t with coinTypeBlockHeight := nHeight } } := by
  have hblock (t' : ℕ) : (Function.update s.thread t
      { s.thread t with coinTypeBlockHeight := nHeight } t').currentBlock =
        (s.thread t').currentBlock := by
    by_cases heq : t' = t
    · rw [heq, Function.update_self]
    · rw [Function.update_of_ne heq]
  constructor
  · apply hs.covered.mono
    intro a ha
    exact ha.imp_right fun ⟨t',ht',h⟩ => ⟨t', ht', (hblock t').trans h⟩
  · intro a ha
    exact hs.used a (ha.imp_right fun ⟨t',ht',h⟩ => ⟨t', ht', (hblock t').symm.trans h⟩)

theorem generateKeyWork_inv {made : Bool} (hs : s.Inv) (hc : c ∈ s.clients)
    (h : generateKeyWork nTargetSize s c made = some s') : s'.Inv := by
  rw [generateKeyWork] at h
  dsimp only at h
  by_cases hblock : (s.thread (s.client c).thread).currentBlock = none
  · rw [if_pos hblock] at h
    cases h
  rw [if_neg hblock] at h
  -- the client's own reservation, made if it has none
  have hready : ∃ s1 : KeyServer, s1.Inv ∧ s1.Owner ((s.client c).currentKey.getD s.nextKey) ∧
      s1.thread = s.thread ∧ s1 = (if (s.client c).currentKey = none then
        s.newKey.setClient c { s.client c with
          currentKey := some ((s.client c).currentKey.getD s.nextKey) } else s) := by
    cases hkey : (s.client c).currentKey with
    | none =>
      refine ⟨s.newKey.setClient c { s.client c with currentKey := some s.nextKey }, ?_,
        owner_setClient_self rfl, rfl, (if_pos rfl).symm⟩
      have hfree : ¬ s.Owner s.nextKey := fun hown => Nat.lt_irrefl _ (hs.used _ hown)
      constructor
      · apply (hs.covered.new hfree CReserveKey.empty).mono
        intro a ha
        have hnew : s.newKey.Owner a := ha
        apply owner_setClient hnew
        intro _ hmine
        rw [show s.newKey.client c = s.client c from rfl, hkey] at hmine
        cases hmine
      · intro a ha
        rcases owner_setClient_cases ha with hold | hnew
        · exact Nat.lt_succ_of_lt (hs.used a hold)
        · rw [← Option.some.inj hnew]
          exact Nat.lt_succ_self _
    | some a =>
      exact ⟨s, hs, Or.inl ⟨c, hc, hkey⟩, rfl, (if_neg (Option.some_ne_none a)).symm⟩
  obtain ⟨s1,hinv,hown,hthread,heq⟩ := hready
  rw [← heq] at h
  obtain ⟨⟨key,s2⟩,hget,hs2⟩ := Option.map_eq_some_iff.mp h
  obtain ⟨rfl,_,_⟩ := getReservedKeyAt_some hget
  have hcovered : KeysCovered ((KeyOp.getReservedKey ((s.client c).currentKey.getD s.nextKey)).exec
      nTargetSize s1.keys).2 s1.Owner := hinv.covered.getReservedKey hown
  have hinv' := hinv.of_keys hcovered
  dsimp only at hs2
  by_cases hmade : (key.isSome && made) = true
  · rw [if_pos hmade] at hs2
    rw [← hs2, ← hthread]
    exact hinv'.setHeight (s.client c).thread (s1.nHeight+1)
  · rw [if_neg hmade] at hs2
    rw [← hs2]
    exact hinv'

theorem start_inv {coinTypeBlockHeight : ℕ} {created : Bool} (hs : s.Inv)
    (h : (KeyEvent.start t coinTypeBlockHeight created).exec nTargetSize s = some s') : s'.Inv := by
  rw [KeyEvent.exec] at h
  by_cases ht : t ∈ s.threads
  · rw [if_pos ht, Option.some.injEq] at h
    rw [← h]
    exact hs
  rw [if_neg ht] at h
  obtain ⟨⟨template,s1⟩,hcreate,hs1⟩ := Option.map_eq_some_iff.mp h
  have hfree : ¬ s.Owner s.nextKey := fun hown => Nat.lt_irrefl _ (hs.used _ hown)
  obtain ⟨k,rfl,hk⟩ := createTemplate_covered hs.covered hfree hcreate
  rcases hk with ⟨rfl,hk⟩ | ⟨rfl,hk⟩
  · rw [← hs1]
    exact ⟨hk, fun a ha => Nat.lt_succ_of_lt (hs.used a ha)⟩
  · rw [← hs1]
    constructor
    · apply hk.mono
      intro a ha
      rcases ha with hold | rfl
      · exact owner_setThread (s := { s with keys := k, nextKey := s.nextKey+1 }) hold
          (fun hmem => absurd hmem ht) _
      · exact owner_setThread_self rfl
    · intro a ha
      rcases owner_setThread_cases ha with hold | hnew
      · exact Nat.lt_succ_of_lt (hs.used a hold)
      · rw [← Option.some.inj hnew]
        exact Nat.lt_succ_self _

theorem poll_inv {created : Bool} (hs : s.Inv) (hdrops : (KeyEvent.poll t created).DropsNothing s)
    (h : (KeyEvent.poll t created).exec nTargetSize s = some s') : s'.Inv := by
  rw [KeyEvent.exec] at h
  by_cases hidle : t ∉ s.threads ∨ s.nHeight+1 ≤ (s.thread t).coinTypeBlockHeight
  · rw [if_pos hidle, Option.some.injEq] at h
    rw [← h]
    exact hs
  rw [if_neg hidle] at h
  obtain ⟨⟨template,s1⟩,hcreate,hs1⟩ := Option.map_eq_some_iff.mp h
  rw [not_or, not_not, not_le] at hidle
  -- the reservations that stay without the template that is replaced
  have hrest : KeysCovered s.keys fun a => s.Owner a ∧ (s.thread t).currentBlock ≠ some a := by
    cases hblock : (s.thread t).currentBlock with
    | none => exact hs.covered.mono fun a ha => ⟨ha, fun hnone => by cases hnone⟩
    | some b =>
      apply (hs.covered.forget (hdrops hidle.1 hidle.2 b hblock)).mono
      intro a ha
      exact ⟨ha.1, fun heq => ha.2 (Option.some.inj heq).symm⟩
  have hfree : ¬ (s.Owner s.nextKey ∧ (s.thread t).currentBlock ≠ some s.nextKey) :=
    fun hown => Nat.lt_irrefl _ (hs.used _ hown.1)
  obtain ⟨k,rfl,hk⟩ := createTemplate_covered hrest hfree hcreate
  have hkeep {a : ℕ} (thread : KeyThread)
      (ha : s.Owner a ∧ (s.thread t).currentBlock ≠ some a) :
      ({ s with keys := k, nextKey := s.nextKey+1 }.setThread t thread).Owner a :=
    owner_setThread (s := { s with keys := k, nextKey := s.nextKey+1 }) ha.1 (fun _ => ha.2) thread
  rcases hk with ⟨rfl,hk⟩ | ⟨rfl,hk⟩
  · rw [← hs1]
    constructor
    · exact hk.mono fun a ha => hkeep _ ha
    · intro a ha
      rcases owner_setThread_cases ha with hold | hnew
      · exact Nat.lt_succ_of_lt (hs.used a hold)
      · cases hnew
  · rw [← hs1]
    constructor
    · apply hk.mono
      intro a ha
      rcases ha with hold | rfl
      · exact hkeep _ hold
      · exact owner_setThread_self rfl
    · intro a ha
      rcases owner_setThread_cases ha with hold | hnew
      · exact Nat.lt_succ_of_lt (hs.used a hold)
      · rw [← Option.some.inj hnew]
        exact Nat.lt_succ_self _

theorem disconnect_inv (hs : s.Inv) (hc : c ∈ s.clients)
    (hdrops : (KeyEvent.disconnect c).DropsNothing s) : (s.deleteClient c).Inv := by
  have hrest : KeysCovered s.keys fun a => s.Owner a ∧ (s.client c).currentKey ≠ some a := by
    cases hkey : (s.client c).currentKey with
    | none => exact hs.covered.mono fun a ha => ⟨ha, fun hnone => by cases hnone⟩
    | some b =>
      apply (hs.covered.forget (hdrops hc b hkey)).mono
      intro a ha
      exact ⟨ha.1, fun heq => ha.2 (Option.some.inj heq).symm⟩
  constructor
  · apply hrest.mono
    intro a ha
    rcases ha.1 with ⟨c',hc',hkey⟩ | hthread
    · have hne : c' ≠ c := by
        intro heq
        rw [heq] at hkey
        exact ha.2 hkey
      refine Or.inl ⟨c', Finset.mem_erase.mpr ⟨hne,hc'⟩, ?_⟩
      change (Function.update s.client c _ c').currentKey = some a
      rw [Function.update_of_ne hne]
      exact hkey
    · exact Or.inr hthread
  · intro a ha
    rcases ha with ⟨c',hc',hkey⟩ | hthread
    · obtain ⟨hne,hmem⟩ := Finset.mem_erase.mp hc'
      change (Function.update s.client c _ c').currentKey = some a at hkey
      rw [Function.update_of_ne hne] at hkey
      exact hs.used a (Or.inl ⟨c', hmem, hkey⟩)
    · exact hs.used a (Or.inr hthread)

/-- One event that drops no live reservation. -/
theorem KeyServer.Inv.exec (hs : s.Inv) {event : KeyEvent} (hdrops : event.DropsNothing s)
    (h : event.exec nTargetSize s = some s') : s'.Inv := by
  cases event with
  | tip nHeight =>
    cases h
    exact ⟨hs.covered, hs.used⟩
  | start t coinTypeBlockHeight created => exact start_inv hs h
  | connect c t =>
    rw [KeyEvent.exec] at h
    by_cases hskip : c ∈ s.clients ∨ t ∉ s.threads
    · rw [if_pos hskip, Option.some.injEq] at h
      rw [← h]
      exact hs
    · rw [if_neg hskip, Option.some.injEq] at h
      rw [← h]
      constructor
      · apply hs.covered.mono
        intro a ha
        exact owner_setClient ha (fun hmem => absurd (Or.inl hmem) hskip) _
      · intro a ha
        rcases owner_setClient_cases ha with hold | hnew
        · exact hs.used a hold
        · cases hnew
  | login c made =>
    rw [KeyEvent.exec] at h
    by_cases hc : c ∉ s.clients
    · rw [if_pos hc, Option.some.injEq] at h
      rw [← h]
      exact hs
    · rw [if_neg hc] at h
      rw [not_not] at hc
      have hlogged : (s.setClient c { s.client c with loggedIn := true }).Inv :=
        hs.setClient_same hc rfl
      exact generateKeyWork_inv hlogged (Finset.mem_insert_self _ _) h
  | generateWork c made =>
    rw [KeyEvent.exec] at h
    by_cases hskip : c ∉ s.clients ∨ (s.client c).loggedIn = false
    · rw [if_pos hskip, Option.some.injEq] at h
      rw [← h]
      exact hs
    · rw [if_neg hskip] at h
      rw [not_or, not_not] at hskip
      exact generateKeyWork_inv hs hskip.1 h
  | poll t created => exact poll_inv hs hdrops h
  | submitBlock c =>
    rw [KeyEvent.exec] at h
    by_cases hc : c ∉ s.clients
    · rw [if_pos hc, Option.some.injEq] at h
      rw [← h]
      exact hs
    · rw [if_neg hc] at h
      cases hkey : (s.client c).currentKey with
      | none =>
        rw [hkey, Option.some.injEq] at h
        rw [← h]
        exact hs
      | some a =>
        rw [hkey, Option.some.injEq] at h
        rw [← h]
        exact hs.of_keys (hs.covered.keepKey a)
  | disconnect c =>
    rw [KeyEvent.exec] at h
    by_cases hc : c ∉ s.clients
    · rw [if_pos hc, Option.some.injEq] at h
      rw [← h]
      exact hs
    · rw [if_neg hc, Option.some.injEq] at h
      rw [← h]
      exact disconnect_inv hs (not_not.mp hc) hdrops

theorem fresh_inv {w : CWallet} (hw : LoadedPool w) (nHeight : ℕ) : (KeyServer.fresh nHeight w).Inv := by
  refine ⟨⟨hw.pos, ?_⟩, ?_⟩
  · intro i hi
    obtain ⟨⟨key,hkey⟩,hset⟩ := hi
    exact absurd (hw.all i key hkey) hset
  · intro a ha
    rcases ha with ⟨c,hc,_⟩ | ⟨t,ht,_⟩
    · exact absurd hc (Finset.notMem_empty c)
    · exact absurd ht (Finset.notMem_empty t)

/-- Each index that is out is that of a client or of a template. -/
theorem KeyServer.Inv.noLeak (hs : s.Inv) : s.NoLeak := by
  let held (key : Option ℕ) : ℤ := (s.keys.held (key.getD 0)).nIndex
  have hsub : outstanding s.keys.wallet ⊆
      ((s.clients.image fun c => held (s.client c).currentKey) ∪
        s.served.image fun t => held (s.thread t).currentBlock : Finset ℤ) := by
    intro i hi
    obtain ⟨_,a,hown,hindex⟩ := hs.covered.cover i hi
    rw [Finset.mem_coe, Finset.mem_union, Finset.mem_image, Finset.mem_image]
    rcases hown with ⟨c,hc,hkey⟩ | ⟨t,ht,hblock⟩
    · left
      refine ⟨c, hc, ?_⟩
      rw [hkey]
      exact hindex
    · right
      refine ⟨t, Finset.mem_filter.mpr ⟨ht, by rw [hblock]; rfl⟩, ?_⟩
      rw [hblock]
      exact hindex
  have hcard : ((s.clients.image fun c => held (s.client c).currentKey) ∪
      s.served.image fun t => held (s.thread t).currentBlock).card ≤ s.clients.card+s.served.card :=
    (Finset.card_union_le _ _).trans (Nat.add_le_add Finset.card_image_le Finset.card_image_le)
  calc (outstanding s.keys.wallet).encard
      ≤ _ := Set.encard_le_encard hsub
    _ = _ := Set.encard_coe_eq_coe_finsetCard _
    _ ≤ (s.clients.card+s.served.card : ℕ) := by exact_mod_cast hcard

/-- In every run that drops no live reservation the keys that are out are at most one for each
client and one for each current template, and a client that disconnects leaves its key available. -/
theorem reserved_keys_not_leaked (nTargetSize nHeight : ℕ) {w : CWallet} (hw : LoadedPool w)
    (events : List KeyEvent) (s : KeyServer)
    (hrun : KeyRun nTargetSize KeyEvent.DropsNothing (KeyServer.fresh nHeight w) events s) :
    s.NoLeak ∧ ∀ c s', c ∈ s.clients → KeyEvent.DropsNothing s (.disconnect c) →
      (KeyEvent.disconnect c).exec nTargetSize s = some s' → s.KeyAvailable s' c := by
  have hinv : s.Inv := by
    induction hrun with
    | start => exact fresh_inv hw nHeight
    | step event rest meets result ih => exact ih.exec meets result
  refine ⟨hinv.noLeak, ?_⟩
  intro c s' hc hdrops _ a hkey hindex
  exact absurd (hdrops hc a hkey) hindex

end Server

section Samples

theorem emptyWallet_loaded : LoadedPool emptyWallet where
  pos := fun i hi => absurd hi (Finset.notMem_empty i)
  all := fun i key hi => by cases hi

def keyStep (event : KeyEvent) (s : KeyServer) : KeyServer := (event.exec 5 s).getD s

theorem exec_keyStep {event : KeyEvent} {s : KeyServer} (h : (event.exec 5 s).isSome = true) :
    event.exec 5 s = some (keyStep event s) := by
  obtain ⟨s',hs'⟩ := Option.isSome_iff_exists.mp h
  rw [keyStep, hs', Option.getD_some]

/-- A thread is started and a client logs in. -/
def keyStart : KeyServer := keyStep (.start 0 0 true) (KeyServer.fresh 0 emptyWallet)
def keyConnected : KeyServer := keyStep (.connect 1 0) keyStart
def keyLoggedIn : KeyServer := keyStep (.login 1 true) keyConnected

theorem keyLoggedIn_run (ok : KeyServer → KeyEvent → Prop)
    (hstart : ok (KeyServer.fresh 0 emptyWallet) (.start 0 0 true))
    (hconnect : ok keyStart (.connect 1 0)) (hlogin : ok keyConnected (.login 1 true)) :
    KeyRun 5 ok (KeyServer.fresh 0 emptyWallet)
      [.start 0 0 true, .connect 1 0, .login 1 true] keyLoggedIn := by
  have hstarted := KeyRun.step (KeyEvent.start 0 0 true) KeyRun.start hstart
    (exec_keyStep (by decide +kernel))
  have hconnected := hstarted.step (.connect 1 0) hconnect (exec_keyStep (by decide +kernel))
  exact hconnected.step (.login 1 true) hlogin (exec_keyStep (by decide +kernel))

theorem reserved_keys_not_leaked_sample : keyLoggedIn.NoLeak ∧ ∀ c s', c ∈ keyLoggedIn.clients →
    KeyEvent.DropsNothing keyLoggedIn (.disconnect c) →
      (KeyEvent.disconnect c).exec 5 keyLoggedIn = some s' → keyLoggedIn.KeyAvailable s' c :=
  reserved_keys_not_leaked 5 0 emptyWallet_loaded _ keyLoggedIn
    (keyLoggedIn_run KeyEvent.DropsNothing trivial trivial trivial)

/-- The node gets a new block and the server polls. -/
def keyMoved : KeyServer := keyStep (.tip 1) keyLoggedIn
def keyPolled : KeyServer := keyStep (.poll 0 true) keyMoved

/-- After the poll three keys are out for one client and one template. A client that disconnects
does not bring its key back either. -/
theorem polled_keys_leaked :
    (KeyRun 5 (fun _ _ => True) (KeyServer.fresh 0 emptyWallet)
        [.start 0 0 true, .connect 1 0, .login 1 true, .tip 1, .poll 0 true] keyPolled ∧
      ¬ keyPolled.NoLeak) ∧
    KeyRun 5 (fun _ _ => True) (KeyServer.fresh 0 emptyWallet)
        [.start 0 0 true, .connect 1 0, .login 1 true] keyLoggedIn ∧
      ¬ keyLoggedIn.KeyAvailable (keyStep (.disconnect 1) keyLoggedIn) 1 := by
  have hrun := keyLoggedIn_run (fun _ _ => True) trivial trivial trivial
  refine ⟨⟨?_, ?_⟩, hrun, ?_⟩
  · have hmoved := hrun.step (.tip 1) trivial (exec_keyStep (by decide +kernel))
    exact hmoved.step (.poll 0 true) trivial (exec_keyStep (by decide +kernel))
  · intro h
    have hout : (({1,2,3} : Finset ℤ) : Set ℤ) ⊆ outstanding keyPolled.keys.wallet := by
      intro i hi
      have hall : ∀ i ∈ ({1,2,3} : Finset ℤ), (keyPolled.keys.wallet.pool i).isSome = true ∧
          i ∉ keyPolled.keys.wallet.setKeyPool := by decide +kernel
      obtain ⟨hsome,hset⟩ := hall i hi
      exact ⟨Option.isSome_iff_exists.mp hsome, hset⟩
    have hcard : keyPolled.clients.card+keyPolled.served.card = 2 := by decide +kernel
    have hle := (Set.encard_le_encard hout).trans h
    rw [Set.encard_coe_eq_coe_finsetCard, hcard] at hle
    have hthree : (3 : ℕ) ≤ 2 := by exact_mod_cast hle
    omega
  · intro h
    have hmem := h 1 (by decide +kernel) (by decide +kernel)
    revert hmem
    decide +kernel

end Samples

end Candypool.Pool
