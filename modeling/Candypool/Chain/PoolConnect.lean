import Candypool.Chain.PoolIndex
import Candypool.Chain.Consistency
import Candypool.Coins.Available

/-! Whether the transactions of the memory pool can be connected: each input spends an output of
the best chain or of another transaction of the pool. A switch of the chain keeps this if the
pool spends nothing of a disconnected transaction that is not brought back. -/
namespace Candypool.Chain
open Candypool.Prime Candypool.Core Candypool.Coins Candypool.Lib

section Pool
variable {txHash : CTransaction → Uint256} {T : Set CTransaction} {pool pool' : CTxMemPool}
  {tx : CTransaction} {out : COutPoint}

/-- The output is one of a transaction of the pool. -/
def CTxMemPool.Holds (pool : CTxMemPool) (out : COutPoint) : Prop :=
  ∃ ptx, pool.mapTx.lookup out.hash = some ptx ∧ out.n < ptx.vout.length

/-- Every input of the pool spends an output of the pool, or one that `P` holds of. -/
def CTxMemPool.Linked (P : COutPoint → Prop) (pool : CTxMemPool) : Prop :=
  ∀ hash tx, pool.mapTx.lookup hash = some tx → ∀ out ∈ prevouts tx, P out ∨ pool.Holds out

theorem CTxMemPool.Linked.mono {P Q : COutPoint → Prop} (h : pool.Linked P)
    (hPQ : ∀ out, P out → Q out) : pool.Linked Q :=
  fun hash tx hlookup out hout => (h hash tx hlookup out hout).imp_left (hPQ out)

/-- An output without an entry in the index is spent by no transaction of the pool. -/
theorem CTxMemPool.Ok.unspent_iff (h : pool.Ok txHash T) : pool.mapNextTx.lookup out = none ↔
    ∀ hash tx, pool.mapTx.lookup hash = some tx → out ∉ prevouts tx := by
  constructor
  · intro hnone hash tx hlookup hout
    obtain ⟨i,hi⟩ := List.mem_iff_getElem?.mp hout
    rw [(h.exact.index out hash i).mpr ⟨tx, hlookup, hi⟩] at hnone
    cases hnone
  · intro hfree
    rw [← Option.not_isSome_iff_eq_none]
    intro hsome
    obtain ⟨⟨hash,i⟩,hnext⟩ := Option.isSome_iff_exists.mp hsome
    obtain ⟨tx,hlookup,hi⟩ := (h.exact.index out hash i).mp hnext
    exact hfree hash tx hlookup (List.mem_of_getElem? hi)

theorem CTxMemPool.Ok.unspent_sub (h : pool.Ok txHash T) (h' : pool'.Ok txHash T)
    (hsub : pool'.Sub pool) (hfree : pool.mapNextTx.lookup out = none) :
    pool'.mapNextTx.lookup out = none := by
  rw [h'.unspent_iff]
  exact fun hash tx hlookup => h.unspent_iff.mp hfree hash tx (hsub hash tx hlookup)

/-- When the transaction that spends an output has left, nothing in the pool spends it. -/
theorem CTxMemPool.Ok.unspent_of_left (h : pool.Ok txHash T) (h' : pool'.Ok txHash T)
    (hsub : pool'.Sub pool) {hash : Uint256} {n : ℕ}
    (hnext : pool.mapNextTx.lookup out = some (hash,n)) (hleft : pool'.mapTx.lookup hash = none) :
    pool'.mapNextTx.lookup out = none := by
  rw [h'.unspent_iff]
  intro hash' tx' hlookup hout
  obtain ⟨i,hi⟩ := List.mem_iff_getElem?.mp hout
  have hnext' := (h.exact.index out hash' i).mpr ⟨tx', hsub hash' tx' hlookup, hi⟩
  obtain ⟨rfl,-⟩ := Prod.mk.inj (Option.some.inj (hnext.symm.trans hnext'))
  rw [hleft] at hlookup
  cases hlookup

/-- The recursion of `remove` keeps the pool in order and takes its transaction out. -/
theorem RemovesFrom.ok (hT : CollisionFree txHash T) {i : ℕ}
    (h : RemovesFrom txHash pool tx i pool') : pool.Ok txHash T → tx ∈ T →
      pool'.Ok txHash T ∧ pool'.Sub pool ∧ pool'.mapTx.lookup (txHash tx) = none := by
  induction h with
  | done _ =>
    intro hok htx
    exact ⟨removeEntry_ok hT hok htx, removeEntry_sub _ _, removeEntry_lookup _ _⟩
  | unspent _ _ _ ih => exact ih
  | spent _ _ found _ _ ihcall ihrest =>
    intro hok htx
    obtain ⟨hok1,hsub1,-⟩ := ihcall hok (hok.mem _ _ found)
    obtain ⟨hok2,hsub2,hgone⟩ := ihrest hok1 htx
    exact ⟨hok2, hsub2.trans hsub1, hgone⟩

/-- What the recursion takes out of the pool, and the transaction itself, have no spender left. -/
theorem RemovesFrom.clears (hT : CollisionFree txHash T) {i : ℕ}
    (h : RemovesFrom txHash pool tx i pool') : pool.Ok txHash T → tx ∈ T →
      (∀ j < i, pool.mapNextTx.lookup ⟨txHash tx, j⟩ = none) →
      (∀ j < tx.vout.length, pool'.mapNextTx.lookup ⟨txHash tx, j⟩ = none) ∧
      ∀ hash ptx, pool.mapTx.lookup hash = some ptx → pool'.mapTx.lookup hash = none →
        ∀ j < ptx.vout.length, pool'.mapNextTx.lookup ⟨hash, j⟩ = none := by
  induction h with
  | @done pool tx i last =>
    intro hok htx hfree
    have hok' := removeEntry_ok hT hok htx
    have hself : ∀ j < tx.vout.length,
        (pool.removeEntry txHash tx).mapNextTx.lookup ⟨txHash tx, j⟩ = none :=
      fun j hj => hok.unspent_sub hok' (removeEntry_sub pool tx) (hfree j (by omega))
    refine ⟨hself, fun hash ptx hlookup hgone j hj => ?_⟩
    -- only the transaction itself was taken out
    have hhash : hash = txHash tx := by
      by_contra hne
      rw [CTxMemPool.removeEntry] at hgone
      split_ifs at hgone
      · rw [AList.lookup_erase_ne hne, hlookup] at hgone
        cases hgone
      · rw [hlookup] at hgone
        cases hgone
    have hptx : ptx = tx := hT.inj (hok.mem hash ptx hlookup) htx
      ((hok.exact.key hash ptx hlookup).symm.trans hhash)
    rw [hhash]
    exact hself j (hptx ▸ hj)
  | @unspent pool pool' tx i _ free _ ih =>
    intro hok htx hfree
    apply ih hok htx
    intro j hj
    rcases Nat.lt_succ_iff_lt_or_eq.mp hj with hj | rfl
    · exact hfree j hj
    · exact free
  | @spent pool pool1 pool' tx ptx i n hash more entry found call rest ihcall ihrest =>
    intro hok htx hfree
    have hptx := hok.mem hash ptx found
    obtain ⟨hok1,hsub1,hgone1⟩ := call.ok hT hok hptx
    obtain ⟨hok2,hsub2,-⟩ := rest.ok hT hok1 htx
    obtain ⟨-,hcleared1⟩ := ihcall hok hptx fun j hj => absurd hj (Nat.not_lt_zero j)
    have hfree1 : ∀ j < i+1, pool1.mapNextTx.lookup ⟨txHash tx, j⟩ = none := by
      intro j hj
      rcases Nat.lt_succ_iff_lt_or_eq.mp hj with hj | rfl
      · exact hok.unspent_sub hok1 hsub1 (hfree j hj)
      · rw [← hok.exact.key hash ptx found] at hgone1
        exact hok.unspent_of_left hok1 hsub1 entry hgone1
    obtain ⟨hself,hcleared2⟩ := ihrest hok1 htx hfree1
    refine ⟨hself, fun hash' ptx' hlookup hgone j hj => ?_⟩
    cases hlookup1 : pool1.mapTx.lookup hash' with
    | none => exact hok1.unspent_sub hok2 hsub2 (hcleared1 hash' ptx' hlookup hlookup1 j hj)
    | some ptx1 =>
      obtain rfl := Option.some.inj (hlookup.symm.trans (hsub1 hash' ptx1 hlookup1))
      exact hcleared2 hash' ptx' hlookup1 hgone j hj

/-- `remove` with `fRecursive` keeps the pool linked, and nothing spends the transaction any
more. -/
theorem CTxMemPool.Linked.remove (hT : CollisionFree txHash T) (hok : pool.Ok txHash T)
    (htx : tx ∈ T) {P Q : COutPoint → Prop} (h : pool.Linked P)
    (hPQ : ∀ out, P out → Q out ∨ Makes txHash tx out) :
    (pool.remove txHash tx true).Linked Q := by
  obtain ⟨hok',hsub,hremoves⟩ := remove_spec hT hok htx true
  obtain ⟨hself,hcleared⟩ := (hremoves rfl).clears hT hok htx fun j hj => absurd hj (Nat.not_lt_zero j)
  intro hash tx' hlookup out hout
  have hspent : (pool.remove txHash tx true).mapNextTx.lookup out ≠ none :=
    fun hfree => hok'.unspent_iff.mp hfree hash tx' hlookup hout
  rcases h hash tx' (hsub hash tx' hlookup) out hout with hP | ⟨ptx,hptx,hn⟩
  · rcases hPQ out hP with hQ | ⟨hhash,hn⟩
    · exact Or.inl hQ
    · have hfree := hself out.n hn
      rw [← hhash] at hfree
      exact absurd hfree hspent
  · right
    cases hleft : (pool.remove txHash tx true).mapTx.lookup out.hash with
    | none => exact absurd (hcleared out.hash ptx hptx hleft out.n hn) hspent
    | some ptx' =>
      obtain rfl := Option.some.inj (hptx.symm.trans (hsub out.hash ptx' hleft))
      exact ⟨ptx, hleft, hn⟩

/-- Taking out one transaction keeps the pool linked if its outputs are to be had elsewhere. -/
theorem CTxMemPool.Linked.removeEntry (hT : CollisionFree txHash T) (hok : pool.Ok txHash T)
    (htx : tx ∈ T) {P : COutPoint → Prop} (h : pool.Linked P)
    (hmade : ∀ out, Makes txHash tx out → P out) : (pool.removeEntry txHash tx).Linked P := by
  intro hash tx' hlookup out hout
  rcases h hash tx' (removeEntry_sub pool tx hash tx' hlookup) out hout with hP | ⟨ptx,hptx,hn⟩
  · exact Or.inl hP
  by_cases heq : out.hash = txHash tx
  · have hself : ptx = tx := hT.inj (hok.mem _ ptx hptx) htx
      ((hok.exact.key _ ptx hptx).symm.trans heq)
    exact Or.inl (hmade out ⟨heq, hself ▸ hn⟩)
  · right
    refine ⟨ptx, ?_, hn⟩
    rw [CTxMemPool.removeEntry]
    split_ifs
    · exact (AList.lookup_erase_ne heq).trans hptx
    · exact hptx

theorem CTxMemPool.Sub.lookup_none (h : pool'.Sub pool) {hash : Uint256}
    (hnone : pool.mapTx.lookup hash = none) : pool'.mapTx.lookup hash = none := by
  cases hlookup : pool'.mapTx.lookup hash with
  | none => rfl
  | some tx =>
    rw [h hash tx hlookup] at hnone
    cases hnone

/-- The body of the loop of `removeConflicts`. -/
def CTxMemPool.removeConflict (txHash : CTransaction → Uint256) (tx : CTransaction)
    (pool : CTxMemPool) (txin : CTxIn) : CTxMemPool :=
  match (pool.mapNextTx.lookup txin.prevout).bind fun next => pool.mapTx.lookup next.1 with
  | none => pool
  | some txConflict => if txConflict ≠ tx then pool.remove txHash txConflict true else pool

theorem removeConflicts_eq (pool : CTxMemPool) (tx : CTransaction) :
    pool.removeConflicts txHash tx = tx.vin.foldl (CTxMemPool.removeConflict txHash tx) pool := rfl

/-- One turn for a transaction that is not in the pool: the spender of the input leaves. -/
theorem CTxMemPool.Linked.removeConflict (hT : CollisionFree txHash T) (hok : pool.Ok txHash T)
    {P : COutPoint → Prop} (h : pool.Linked P) (hnot : pool.mapTx.lookup (txHash tx) = none)
    (txin : CTxIn) : (pool.removeConflict txHash tx txin).Ok txHash T ∧
      (pool.removeConflict txHash tx txin).Sub pool ∧
      (pool.removeConflict txHash tx txin).Linked P ∧
      (pool.removeConflict txHash tx txin).mapNextTx.lookup txin.prevout = none := by
  rw [CTxMemPool.removeConflict]
  cases hnext : pool.mapNextTx.lookup txin.prevout with
  | none => exact ⟨hok, Sub.refl pool, h, hnext⟩
  | some next =>
    obtain ⟨hash,n⟩ := next
    obtain ⟨txConflict,hfound,-⟩ := (hok.exact.index _ hash n).mp hnext
    have hne : txConflict ≠ tx := by
      rintro rfl
      rw [hok.exact.key hash txConflict hfound, hnot] at hfound
      cases hfound
    have hmem := hok.mem hash txConflict hfound
    rw [Option.bind_some, hfound]
    dsimp only
    rw [if_pos hne]
    obtain ⟨hok',hsub,hremoves⟩ := remove_spec hT hok hmem true
    obtain ⟨-,-,hgone⟩ := (hremoves rfl).ok hT hok hmem
    refine ⟨hok', hsub, h.remove hT hok hmem fun out => Or.inl, ?_⟩
    rw [← hok.exact.key hash txConflict hfound] at hgone
    exact hok.unspent_of_left hok' hsub hnext hgone

/-- `removeConflicts` for a transaction that is not in the pool: nothing there spends what it
spends. -/
theorem CTxMemPool.Linked.removeConflicts (hT : CollisionFree txHash T) (hok : pool.Ok txHash T)
    {P : COutPoint → Prop} (h : pool.Linked P) (hnot : pool.mapTx.lookup (txHash tx) = none) :
    (pool.removeConflicts txHash tx).Linked P ∧
      ∀ out ∈ prevouts tx, (pool.removeConflicts txHash tx).mapNextTx.lookup out = none := by
  rw [removeConflicts_eq, prevouts]
  suffices hloop : ∀ vin : List CTxIn, (vin.foldl (CTxMemPool.removeConflict txHash tx) pool).Ok txHash T ∧
      (vin.foldl (CTxMemPool.removeConflict txHash tx) pool).Sub pool ∧
      (vin.foldl (CTxMemPool.removeConflict txHash tx) pool).Linked P ∧
      ∀ out ∈ vin.map CTxIn.prevout,
        (vin.foldl (CTxMemPool.removeConflict txHash tx) pool).mapNextTx.lookup out = none from
    ⟨(hloop tx.vin).2.2.1, (hloop tx.vin).2.2.2⟩
  intro vin
  induction vin generalizing pool with
  | nil => exact ⟨hok, Sub.refl pool, h, fun out hout => absurd hout List.not_mem_nil⟩
  | cons txin vin ih =>
    obtain ⟨hok1,hsub1,h1,hfree⟩ := h.removeConflict hT hok hnot txin
    obtain ⟨hok2,hsub2,h2,hrest⟩ := ih hok1 h1 (hsub1.lookup_none hnot)
    rw [List.foldl_cons]
    refine ⟨hok2, hsub2.trans hsub1, h2, fun out hout => ?_⟩
    rcases List.mem_cons.mp hout with rfl | hout
    · exact hok1.unspent_sub hok2 hsub2 hfree
    · exact hrest out hout

/-- The loop over `vDelete`: when the outputs of the connected transactions are to be had
elsewhere the pool stays linked, and nothing in it spends what they spend. -/
theorem deleteAll_linked (hT : CollisionFree txHash T) (hok : pool.Ok txHash T)
    {P : COutPoint → Prop} (h : pool.Linked P) {vDelete : List CTransaction}
    (hmem : ∀ tx ∈ vDelete, tx ∈ T) (hmade : ∀ tx ∈ vDelete, ∀ out, Makes txHash tx out → P out) :
    (pool.deleteAll txHash vDelete).Ok txHash T ∧ (pool.deleteAll txHash vDelete).Sub pool ∧
      (pool.deleteAll txHash vDelete).Linked P ∧
      ∀ out, SpentIn vDelete out → (pool.deleteAll txHash vDelete).mapNextTx.lookup out = none := by
  rw [CTxMemPool.deleteAll]
  induction vDelete generalizing pool with
  | nil =>
    refine ⟨hok, CTxMemPool.Sub.refl pool, h, fun out => ?_⟩
    rintro ⟨tx,htx,-⟩
    cases htx
  | cons tx vDelete ih =>
    have htx := hmem tx List.mem_cons_self
    have hok1 := removeEntry_ok hT hok htx
    have h1 := h.removeEntry hT hok htx (hmade tx List.mem_cons_self)
    have hgone : (pool.removeEntry txHash tx).mapTx.lookup (txHash tx) = none := removeEntry_lookup _ _
    obtain ⟨hok2,hsub2⟩ := removeConflicts_ok hT hok1 tx
    obtain ⟨h2,hfree⟩ := h1.removeConflicts hT hok1 hgone
    obtain ⟨hok3,hsub3,h3,hrest⟩ := ih hok2 h2 (fun tx' hmem' => hmem tx' (List.mem_cons_of_mem _ hmem'))
      fun tx' hmem' => hmade tx' (List.mem_cons_of_mem _ hmem')
    rw [List.foldl_cons]
    refine ⟨hok3, hsub3.trans (hsub2.trans (removeEntry_sub pool tx)), h3, fun out => ?_⟩
    rintro ⟨tx',htx',hout⟩
    rcases List.mem_cons.mp htx' with rfl | htx'
    · exact hok2.unspent_sub hok3 hsub3 (hfree out hout)
    · exact hrest out ⟨tx', htx', hout⟩

end Pool

section Accept
variable {cons : Consensus} {T : Set CTransaction} {pool pool' : CTxMemPool} {tx : CTransaction}
  {out : COutPoint} {tip : Utxo}

/-- An output that can be spent from the view over the pool. -/
theorem available_view (h : available (pool.view tip) out = true) :
    available tip out = true ∨ pool.Holds out := by
  rw [available] at h ⊢
  change ((tip out.hash).or _).any _ = true at h
  rw [utxo_getCoins]
  cases htip : tip out.hash with
  | some coins =>
    rw [htip] at h
    exact Or.inl h
  | none =>
    right
    rw [htip, Option.none_or, Option.any_map, Option.any_eq_true] at h
    obtain ⟨ptx,hptx,ha⟩ := h
    exact ⟨ptx, hptx, ofTx_available_lt ha⟩

/-- A transaction that is taken after a look at its inputs keeps the pool linked. -/
theorem accept_linked {io : AcceptIO} {nSpendHeight : ℤ} {fLimitFree : Bool}
    {P Q : COutPoint → Prop} (h : pool.Linked P)
    (hPQ : ∀ out, P out → Q out ∨ Makes cons.ext.txHash tx out)
    (htip : ∀ out, available tip out = true → Q out)
    (haccept : accept cons io tip nSpendHeight pool tx true fLimitFree = some pool') :
    pool'.Linked Q := by
  obtain ⟨-,hcb,hnew,-,hinputs,rfl⟩ := accept_eq_some haccept
  have hself : (pool.addUnchecked (cons.ext.txHash tx) tx).mapTx.lookup (cons.ext.txHash tx) =
      some tx := AList.lookup_insert _
  have hother : ∀ hash, hash ≠ cons.ext.txHash tx →
      (pool.addUnchecked (cons.ext.txHash tx) tx).mapTx.lookup hash = pool.mapTx.lookup hash :=
    fun hash hne => AList.lookup_insert_ne hne
  have hholds : ∀ out, pool.Holds out → (pool.addUnchecked (cons.ext.txHash tx) tx).Holds out := by
    rintro out ⟨ptx,hptx,hn⟩
    refine ⟨ptx, ?_, hn⟩
    rw [hother _ ?_, hptx]
    intro heq
    rw [heq, hnew] at hptx
    cases hptx
  intro hash tx' hlookup out hout
  by_cases heq : hash = cons.ext.txHash tx
  · -- the inputs of the new transaction were found in the view
    rw [heq, hself] at hlookup
    obtain rfl := Option.some.inj hlookup
    have hin : haveInputs (pool.view tip) tx = true := by
      have hchecks := hinputs rfl
      rw [acceptInputs] at hchecks
      split_ifs at hchecks with _ _ hmissing
      simpa using hmissing
    obtain ⟨txin,hmem,rfl⟩ := List.mem_map.mp hout
    obtain ⟨coins,hcoins,-,ha⟩ := haveInputs_entry hin hcb hmem
    have hview : available (pool.view tip) txin.prevout = true := by
      rw [available, hcoins]
      exact ha
    exact (available_view hview).imp (htip _) (hholds _)
  · rw [hother hash heq] at hlookup
    rcases h hash tx' hlookup out hout with hP | hheld
    · rcases hPQ out hP with hQ | ⟨hhash,hn⟩
      · exact Or.inl hQ
      · exact Or.inr ⟨tx, hhash ▸ hself, hn⟩
    · exact Or.inr (hholds out hheld)

end Accept

section Switch
variable {W : Type} {cons : Consensus} {sync : WalletSync W} {io : ChainIO}
  {nested : NodeState W → ChainExit × NodeState W} {T : Set CTransaction} {s s' : NodeState W}
  {best pindexNew : BlockPtr}

theorem available_congr {V V' : Type} [CoinStore V] [CoinStore V'] {view : V} {view' : V'}
    (hv : visibleCoins view' = visibleCoins view) (out : COutPoint) :
    available view' out = available view out := by
  have hseen : (visible (getCoins view' out.hash)).any (fun coins => coins.isAvailable out.n) =
      (visible (getCoins view out.hash)).any fun coins => coins.isAvailable out.n :=
    congrArg (Option.any fun coins => coins.isAvailable out.n) (congrFun hv out.hash)
  exact any_isAvailable.trans (hseen.trans any_isAvailable.symm)

theorem pushView_ok {vDisconnect vConnect : List BlockPtr} {vResurrect : List CTransaction}
    {c : ConnectLoop W}
    (h : pushView cons sync io vDisconnect vConnect vResurrect pindexNew c = (.ok,s')) :
    s' = updateMemory cons sync io (c.flushed io) vDisconnect vConnect vResurrect c.vDelete
      pindexNew := by
  by_cases hio : io.Flushes
  · rw [pushView_flushes hio] at h
    exact (Prod.mk.inj h).2.symm
  · rcases (pushView_stops hio h).1 with hexit | hexit <;> cases hexit

/-- The parts of a `SetBestChain` call that has come to its end. -/
theorem setBestChain_done (htip : TipAt cons s best)
    (hnew : (s.mapBlockIndex pindexNew).isSome = true)
    (h : setBestChain cons sync nested io pindexNew s = (.ok,s')) :
    ∃ f vDisconnect vConnect view vResurrect c,
      findBranches s.mapBlockIndex s.pindexBest pindexNew = some (vDisconnect,vConnect) ∧
      Path (parentOf s.mapBlockIndex) best vDisconnect f ∧
      Down (parentOf s.mapBlockIndex) f vConnect pindexNew ∧
      (∀ p ∈ vConnect, OnBranch s.mapBlockIndex best pindexNew p) ∧
      disconnectLoop cons io s vDisconnect s.newView [] = .ok (view,vResurrect) ∧
      connectLoop cons sync nested io pindexNew vConnect s view [] = c ∧ c.exit = .ok ∧
      s' = updateMemory cons sync io (c.flushed io) vDisconnect vConnect vResurrect c.vDelete
        pindexNew := by
  obtain ⟨f,vDisconnect,vConnect,hfind,hpath,hdown,hconnect⟩ :=
    findBranches_spec htip.tree htip.mem hnew
  have hfind' := hfind
  rw [← htip.pindexBest] at hfind'
  rw [setBestChain, newView_best, htip.coins, hfind] at h
  dsimp only at h
  split at h
  · -- a block could not be taken back
    rename_i exit hres
    obtain ⟨rfl,-⟩ := Prod.mk.inj h
    rcases disconnectLoop_rule (I := fun _ _ _ => True) hpath (fun _ _ _ _ _ _ _ _ _ _ _ => trivial)
        trivial hres with ⟨_,_,heq,-⟩ | heq | heq
    · cases heq
    · cases heq
    · cases heq
  · rename_i view vResurrect hres
    refine ⟨f, vDisconnect, vConnect, view, vResurrect, _, hfind', hpath, hdown, hconnect, hres, rfl, ?_⟩
    generalize connectLoop cons sync nested io pindexNew vConnect s view [] = c at h
    split at h
    · rename_i hexit
      exact ⟨hexit, pushView_ok h⟩
    · rename_i hexit
      obtain ⟨heq,-⟩ := Prod.mk.inj h
      exact absurd heq hexit

/-- An output of a transaction in one of the disconnected blocks that is not brought back: a
coinbase, or a transaction of a block up to the last checkpoint. -/
def Stranded (cons : Consensus) (s : NodeState W) (vDisconnect : List BlockPtr)
    (out : COutPoint) : Prop :=
  ∃ p ∈ vDisconnect, ∃ block tx, s.blockFile p = some block ∧ tx ∈ block.vtx ∧
    tx ∉ queueOf cons s p ∧ Makes cons.ext.txHash tx out

/-- A block that was taken back without a complaint has taken back what it made. -/
theorem disconnectBlock_available {block : CBlock} {p : BlockPtr} {pindex : CBlockIndex}
    {blockUndo : Option CBlockUndo} {view : CCoinsViewCache}
    {r : DisconnectResult CCoinsViewCache} {out : COutPoint}
    (hr : disconnectBlock cons block p pindex blockUndo view = r) (hok : r.error = none)
    (hclean : r.fClean = true) (ha : available view out = true) :
    available r.view out = true ∨ ∃ tx ∈ block.vtx, Makes cons.ext.txHash tx out := by
  obtain ⟨-,-,undo,coinbase,vtx,-,hvtx,-,herr,hfits,hview⟩ := disconnectBlock_ok hr hok
  rw [hclean, eq_comm, Bool.and_eq_true] at hfits
  rw [hvtx]
  rcases disconnectTxs_available herr hfits.1 ha with ha | ⟨tx,hmem,hout⟩
  · rcases removeOutputs_available hfits.2 ha with ha | hout
    · left
      rw [hview]
      cases pindex.pprev with
      | none => exact ha
      | some pprev => exact ha
    · exact Or.inr ⟨coinbase, List.mem_cons_self, hout⟩
  · exact Or.inr ⟨tx, List.mem_cons_of_mem _ hmem, hout⟩

theorem DisconnectStep.queue {p : BlockPtr} {view : CCoinsViewCache} {pindex : CBlockIndex}
    {block : CBlock} {r : DisconnectResult CCoinsViewCache}
    (h : DisconnectStep cons io s p view pindex block r) :
    s.blockFile p = some block ∧ queueOf cons s p = resurrectQueue cons pindex block := by
  have hread := h.read
  rw [NodeState.readBlock] at hread
  split_ifs at hread
  obtain ⟨hfile,-⟩ := Option.filter_eq_some_iff.mp hread
  refine ⟨hfile, ?_⟩
  rw [queueOf, h.entry, hfile]
  rfl

/-- After the loop over the disconnected blocks an output of the tip is still there, or it is one
of a transaction that is brought back, or it is stranded. -/
theorem disconnectLoop_available (htip : TipAt cons s best) {f : BlockPtr}
    {vDisconnect : List BlockPtr} (hpath : Path (parentOf s.mapBlockIndex) best vDisconnect f)
    {view : CCoinsViewCache} {vResurrect : List CTransaction}
    (h : disconnectLoop cons io s vDisconnect s.newView [] = .ok (view,vResurrect)) :
    (Temp s view ∧ getBestBlock view = some f) ∧ ∀ out, available s.pcoinsTip out = true →
      available view out = true ∨ (∃ tx ∈ vResurrect, Makes cons.ext.txHash tx out) ∨
        Stranded cons s vDisconnect out := by
  have hstep : ∀ p q view vResurrect pindex block r, p ∈ vDisconnect →
      parentOf s.mapBlockIndex p = some q →
      ((Temp s view ∧ getBestBlock view = some p) ∧ ∀ out, available s.pcoinsTip out = true →
        available view out = true ∨ (∃ tx ∈ vResurrect, Makes cons.ext.txHash tx out) ∨
          Stranded cons s vDisconnect out) →
      DisconnectStep cons io s p view pindex block r →
      (Temp s r.view ∧ getBestBlock r.view = some q) ∧ ∀ out, available s.pcoinsTip out = true →
        available r.view out = true ∨
          (∃ tx ∈ resurrectQueue cons pindex block ++ vResurrect, Makes cons.ext.txHash tx out) ∨
          Stranded cons s vDisconnect out := by
    intro p q view vResurrect pindex block r hp hparent hI hstep
    refine ⟨disconnectStep_temp hparent hI.1.1 hstep, fun out ha => ?_⟩
    obtain ⟨hfile,hqueue⟩ := hstep.queue
    rcases hI.2 out ha with ha | ⟨tx,htx,hout⟩ | hstranded
    · rcases disconnectBlock_available hstep.result hstep.ok hstep.clean ha with ha | ⟨tx,htx,hout⟩
      · exact Or.inl ha
      · right
        by_cases hback : tx ∈ resurrectQueue cons pindex block
        · exact Or.inl ⟨tx, List.mem_append_left _ hback, hout⟩
        · exact Or.inr ⟨p, hp, block, tx, hfile, htx, hqueue ▸ hback, hout⟩
    · exact Or.inr (Or.inl ⟨tx, List.mem_append_right _ htx, hout⟩)
    · exact Or.inr (Or.inr hstranded)
  have hstart : (Temp s s.newView ∧ getBestBlock s.newView = some best) ∧
      ∀ out, available s.pcoinsTip out = true → available s.newView out = true ∨
        (∃ tx ∈ ([] : List CTransaction), Makes cons.ext.txHash tx out) ∨
        Stranded cons s vDisconnect out :=
    ⟨⟨newView_temp htip.coins, (newView_best s).trans htip.coins⟩, fun out ha => Or.inl ha⟩
  rcases disconnectLoop_rule (I := fun f view vResurrect =>
      (Temp s view ∧ getBestBlock view = some f) ∧ ∀ out, available s.pcoinsTip out = true →
        available view out = true ∨ (∃ tx ∈ vResurrect, Makes cons.ext.txHash tx out) ∨
          Stranded cons s vDisconnect out) hpath hstep hstart h with ⟨_,_,heq,hI⟩ | heq | heq
  · obtain ⟨rfl,rfl⟩ := Prod.mk.inj (Except.ok.inj heq)
    exact hI
  · cases heq
  · cases heq

/-- What was there before the connected blocks, or was made by one of their transactions, is there
unless one of them spends it. -/
def Accounted (cons : Consensus) (before : CCoinsViewCache) (view : CCoinsViewCache)
    (vDelete : List CTransaction) : Prop :=
  ∀ out, (available before out = true ∨ ∃ tx ∈ vDelete, Makes cons.ext.txHash tx out) →
    available view out = true ∨ SpentIn vDelete out

/-- One more connected block. -/
theorem Accounted.connected {before view : CCoinsViewCache} {vDelete : List CTransaction}
    {s1 : NodeState W} {f p : BlockPtr} {pindex : CBlockIndex} {block : CBlock}
    {r : ConnectResult CCoinsViewCache} (htip : TipAt cons s best)
    (hexempt : NoneExempt s.mapBlockIndex) (hsame : SameChain s s1)
    (hmem : (s.mapBlockIndex p).isSome = true) (hparent : parentOf s.mapBlockIndex p = some f)
    (h : Accounted cons before view vDelete) (hstep : ConnectStep cons io s1 p view pindex block r)
    (hok : r.error = none) : Accounted cons before r.view (vDelete ++ block.vtx) := by
  obtain ⟨hhash,hroot,-,hpos,hnot,-,-⟩ := hstep.facts htip hexempt hsame hmem hparent
  rcases connectBlock_cases hstep.result with ⟨herr,-⟩ | ⟨hgenesis,-⟩ | ⟨pprev,loop,hvalid,hrecord⟩
  · exact absurd hok herr
  · exact absurd ((hstep.getHash hhash).symm.trans hgenesis) hroot
  obtain ⟨-,hdone,-⟩ := recordBlock_effect hrecord.symm
  have hblock : ∀ out, (available view out = true ∨ ∃ tx ∈ block.vtx, Makes cons.ext.txHash tx out) →
      available r.view out = true ∨ SpentIn block.vtx out := by
    intro out ha
    rw [(hdone hok).1]
    change available loop.view out = true ∨ _
    exact updateBlock_available hvalid.update hvalid.checked.checked hpos hvalid.checked.nodup
      (hvalid.fresh hnot) ha
  have hold : ∀ out, (available before out = true ∨ ∃ tx ∈ vDelete, Makes cons.ext.txHash tx out) →
      available r.view out = true ∨ SpentIn (vDelete ++ block.vtx) out := by
    intro out ha
    rcases h out ha with ha | hspent
    · exact (hblock out (Or.inl ha)).imp_right SpentIn.append_right
    · exact Or.inr hspent.append_left
  intro out ha
  rcases ha with ha | ⟨tx,htx,hout⟩
  · exact hold out (Or.inl ha)
  · rcases List.mem_append.mp htx with htx | htx
    · exact hold out (Or.inr ⟨tx, htx, hout⟩)
    · exact (hblock out (Or.inr ⟨tx, htx, hout⟩)).imp_right SpentIn.append_right

/-- The loop over the connected blocks. -/
theorem connectLoop_available (htip : TipAt cons s best) (hexempt : NoneExempt s.mapBlockIndex)
    (hfiles : ∀ p block, s.blockFile p = some block → ∀ tx ∈ block.vtx, tx ∈ T) {f : BlockPtr}
    {vConnect : List BlockPtr} (hdown : Down (parentOf s.mapBlockIndex) f vConnect pindexNew)
    (hconnect : ∀ p ∈ vConnect, OnBranch s.mapBlockIndex best pindexNew p)
    {view : CCoinsViewCache} (htemp : Temp s view ∧ getBestBlock view = some f) {c : ConnectLoop W}
    (hc : connectLoop cons sync nested io pindexNew vConnect s view [] = c) (hexit : c.exit = .ok) :
    SameChain s c.node ∧ Temp s c.view ∧ Accounted cons view c.view c.vDelete ∧
      ∀ tx ∈ c.vDelete, tx ∈ T := by
  have hloop := connectLoop_rule (I := fun f s1 view1 vDelete => ViewAt s f s1 view1 ∧
      Accounted cons view view1 vDelete ∧ ∀ tx ∈ vDelete, tx ∈ T) (J := fun _ _ => True)
    ?_ ?_ ?_ ?_ hdown ?_ hc
  · rcases hloop with ⟨-,hview,haccounted,hmem⟩ | ⟨hfail,-⟩
    · exact ⟨hview.1, hview.2.2.1, haccounted, hmem⟩
    · rw [hexit] at hfail
      rcases hfail with hfail | ⟨e,hfail⟩ <;> cases hfail
  · intro f s1 view1 vDelete p hp hI
    refine ⟨(hI.1.1.tree.isSome p).trans (hconnect p hp).mem, ?_⟩
    rw [hI.1.1.next]
    exact (hconnect p hp).nextOf_none htip.next
  · exact fun _ _ _ _ _ => trivial
  · exact fun _ _ _ _ _ _ _ _ _ _ _ _ _ _ _ => trivial
  · intro f s1 view1 vDelete p pindex block r hp hparent hI hstep hok
    obtain ⟨-,-,-,-,-,-,hfile⟩ := hstep.facts htip hexempt hI.1.1 (hconnect p hp).mem hparent
    refine ⟨hI.1.connected hstep hok,
      hI.2.1.connected htip hexempt hI.1.1 (hconnect p hp).mem hparent hstep hok, fun tx htx => ?_⟩
    rcases List.mem_append.mp htx with htx | htx
    · exact hI.2.2 tx htx
    · exact hfiles p block hfile tx htx
  · refine ⟨⟨SameChain.refl s, SameFlags.refl s, htemp⟩, fun out ha => ?_,
      fun tx htx => absurd htx List.not_mem_nil⟩
    rcases ha with ha | ⟨tx,htx,-⟩
    · exact Or.inl ha
    · cases htx

/-- The loop over the transactions that are brought back: each enters the pool, or what spends its
outputs leaves. -/
theorem resurrect_linked (hT : CollisionFree cons.ext.txHash T) {P : COutPoint → Prop}
    {vResurrect : List CTransaction} (hmem : ∀ tx ∈ vResurrect, tx ∈ T)
    (htip : ∀ out, available s.pcoinsTip out = true → P out) (hok : s.mempool.Ok cons.ext.txHash T)
    (h : s.mempool.Linked fun out => P out ∨ ∃ tx ∈ vResurrect, Makes cons.ext.txHash tx out) :
    (vResurrect.foldl (fun s tx => s.resurrect cons sync io tx) s).mempool.Ok cons.ext.txHash T ∧
      (vResurrect.foldl (fun s tx => s.resurrect cons sync io tx) s).mempool.Linked P := by
  induction vResurrect generalizing s with
  | nil =>
    refine ⟨hok, h.mono fun out hout => hout.elim id ?_⟩
    rintro ⟨tx,htx,-⟩
    cases htx
  | cons tx vResurrect ih =>
    have htx := hmem tx List.mem_cons_self
    have hfirst : ∀ out, (P out ∨ ∃ tx' ∈ tx :: vResurrect, Makes cons.ext.txHash tx' out) →
        (P out ∨ ∃ tx' ∈ vResurrect, Makes cons.ext.txHash tx' out) ∨ Makes cons.ext.txHash tx out := by
      rintro out (hP | ⟨tx',htx',hout⟩)
      · exact Or.inl (Or.inl hP)
      · rcases List.mem_cons.mp htx' with rfl | htx'
        · exact Or.inr hout
        · exact Or.inl (Or.inr ⟨tx', htx', hout⟩)
    obtain ⟨_,_,hs1⟩ : ∃ mempool wallet, s.resurrect cons sync io tx = _ := resurrect_eq io s tx
    have hstep : (s.resurrect cons sync io tx).mempool.Ok cons.ext.txHash T ∧
        (s.resurrect cons sync io tx).mempool.Linked fun out =>
          P out ∨ ∃ tx' ∈ vResurrect, Makes cons.ext.txHash tx' out := by
      rw [NodeState.resurrect]
      split
      · rename_i s1 haccept
        obtain ⟨mempool,htaken,rfl⟩ := Option.map_eq_some_iff.mp haccept
        exact ⟨accept_ok hok htx htaken,
          accept_linked h hfirst (fun out ha => Or.inl (htip out ha)) htaken⟩
      · exact ⟨(remove_spec hT hok htx true).1, h.remove hT hok htx hfirst⟩
    rw [List.foldl_cons]
    apply ih (fun tx' htx' => hmem tx' (List.mem_cons_of_mem _ htx')) _ hstep.1 hstep.2
    rw [hs1]
    exact htip

/-- The pool is in order, and every input of it spends an output of the best chain or of the
pool. The transactions it has to do with are in `T`. -/
structure PoolLinked (cons : Consensus) (T : Set CTransaction) (s : NodeState W) : Prop where
  tip : ∃ best, TipAt cons s best
  exempt : NoneExempt s.mapBlockIndex
  files : ∀ p block, s.blockFile p = some block → ∀ tx ∈ block.vtx, tx ∈ T
  pool : s.mempool.Ok cons.ext.txHash T
  linked : s.mempool.Linked fun out => available s.pcoinsTip out = true

/-- The pool spends no output that a switch of the chain to `pindexNew` would leave stranded. -/
def NoneStranded (cons : Consensus) (s : NodeState W) (pindexNew : BlockPtr) : Prop :=
  ∀ vDisconnect vConnect,
    findBranches s.mapBlockIndex s.pindexBest pindexNew = some (vDisconnect,vConnect) →
    ∀ hash tx, s.mempool.mapTx.lookup hash = some tx → ∀ out ∈ prevouts tx,
      ¬ Stranded cons s vDisconnect out

/-- A switch of the chain keeps the pool linked if it spends nothing that is left stranded. -/
theorem PoolLinked.switch (hT : CollisionFree cons.ext.txHash T) (h : PoolLinked cons T s)
    (hnew : (s.mapBlockIndex pindexNew).isSome = true)
    (hset : setBestChain cons sync nested io pindexNew s = (.ok,s'))
    (hnone : NoneStranded cons s pindexNew) : PoolLinked cons T s' := by
  obtain ⟨best,htip⟩ := h.tip
  obtain ⟨f,vDisconnect,vConnect,view,vResurrect,c,hfind,hpath,hdown,hconnect,hdisc,hc,hexit,hs'⟩ :=
    setBestChain_done htip hnew hset
  obtain ⟨hview,hback⟩ := disconnectLoop_available htip hpath hdisc
  obtain ⟨hsame,htemp,haccounted,hdelete⟩ := connectLoop_available htip h.exempt h.files hdown hconnect
    hview hc hexit
  -- what the pool may spend when the coins are those of the new chain
  generalize hP : (fun out => available c.view out = true ∨ SpentIn c.vDelete out) = P
  have hresurrect : ∀ tx ∈ vResurrect, tx ∈ T := by
    intro tx htx
    obtain ⟨p,-,hqueue⟩ := List.mem_flatMap.mp (disconnectLoop_queue hpath hdisc tx htx)
    obtain ⟨block,hfile,hmem⟩ := queueOf_mem hqueue
    exact h.files p block hfile tx hmem
  have hstart : s.mempool.Linked fun out => P out ∨
      ∃ tx ∈ vResurrect, Makes cons.ext.txHash tx out := by
    intro hash tx hlookup out hout
    refine (h.linked hash tx hlookup out hout).imp_left fun ha => ?_
    rcases hback out ha with ha | hqueued | hstranded
    · left
      rw [← hP]
      exact haccounted out (Or.inl ha)
    · exact Or.inr hqueued
    · exact absurd hstranded (hnone vDisconnect vConnect hfind hash tx hlookup out hout)
  -- the coins of the tip are those of the view
  have hcoins : ∀ out, available (c.flushed io).pcoinsTip out = available c.view out :=
    available_congr (visible_flushed hsame htemp)
  generalize hs1 : ({ c.flushed io with
    mapBlockIndex := NodeState.relink (c.flushed io).mapBlockIndex vDisconnect vConnect } :
    NodeState W) = s1
  have hpool1 : s1.mempool = s.mempool := by
    rw [← hs1, ← hsame.mempool, ConnectLoop.flushed]
    split_ifs <;> rfl
  have hcoins1 : ∀ out, available s1.pcoinsTip out = available c.view out := by
    rw [← hs1]
    exact hcoins
  obtain ⟨hok2,hlinked2⟩ := @resurrect_linked W cons sync io T s1 hT P vResurrect hresurrect
    (fun out ha => by rw [← hP]; exact Or.inl ((hcoins1 out).symm.trans ha))
    (by rw [hpool1]; exact h.pool) (by rw [hpool1]; exact hstart)
  obtain ⟨hok3,-,hlinked3,hspent⟩ := deleteAll_linked hT hok2 hlinked2 hdelete fun tx htx out hout => by
    rw [← hP]
    exact haccounted out (Or.inr ⟨tx, htx, hout⟩)
  have htip' : TipAt cons s' pindexNew ∧ SameTree s.mapBlockIndex s'.mapBlockIndex ∧
      s'.blockFile = s.blockFile := by
    rcases setBestChain_tip htip hnew hset with ⟨-,htip',htree,-,hfile⟩ | ⟨hearly,-⟩ | ⟨-,hfail,-⟩
    · exact ⟨htip', htree, hfile⟩
    · rcases hearly with hfail | hfail | ⟨e,hfail⟩ <;> cases hfail
    · rcases hfail with hfail | hfail <;> cases hfail
  obtain ⟨htip',htree,hfile⟩ := htip'
  rw [updateMemory_eq io (c.flushed io) _ vDisconnect vConnect vResurrect c.vDelete pindexNew rfl, hs1]
    at hs'
  refine ⟨⟨pindexNew, htip'⟩, htree.noneExempt h.exempt, ?_, ?_, ?_⟩
  · rw [hfile]
    exact h.files
  · rw [hs']
    exact hok3
  · rw [hs']
    intro hash tx hlookup out hout
    refine (hlinked3 hash tx hlookup out hout).imp_left fun hout' => ?_
    rw [← hP] at hout'
    rcases hout' with ha | hgone
    · exact (hcoins out).trans ha
    · exact absurd hout (hok3.unspent_iff.mp (hspent out hgone) hash tx hlookup)

end Switch

section Run
variable {W : Type} (cons : Consensus) (sync : WalletSync W)
  (nested : NodeState W → ChainExit × NodeState W) (T : Set CTransaction)

/-- The node when its index is loaded: it has one tip and an empty pool. -/
structure Started (s : NodeState W) : Prop where
  tip : ∃ best, TipAt cons s best
  exempt : NoneExempt s.mapBlockIndex
  files : ∀ p block, s.blockFile p = some block → ∀ tx ∈ block.vtx, tx ∈ T
  pool : s.mempool = CTxMemPool.empty

/-- The chain is switched with success, and transactions come with a look at their inputs. All of
them are in `T`, and no block is exempted from the overwrite rule. -/
def ChainCall.Succeeds (s : NodeState W) : ChainCall → Prop
  | .newBlock block => (∀ tx ∈ block.vtx, tx ∈ T) ∧
    bip30Exempt (newIndex cons s.mapBlockIndex block) = false
  | .setBestChain p io => (Chain.setBestChain cons sync nested io p s).1 = .ok
  | .markFailed .. => True
  | .accept tx fCheckInputs _ _ => tx ∈ T ∧ fCheckInputs = true

/-- A switch of the chain leaves nothing stranded that the pool spends. -/
def ChainCall.StrandsNone (s : NodeState W) : ChainCall → Prop
  | .setBestChain p _ => NoneStranded cons s p
  | _ => True

/-- The states that calls which meet `ok` lead to. -/
inductive Calls (ok : NodeState W → ChainCall → Prop) (start : NodeState W) : NodeState W → Prop
  | start : Calls ok start start
  | step {s : NodeState W} (c : ChainCall) (rest : Calls ok start s) (called : c.Called cons s)
      (meets : ok s c) : Calls ok start (c.exec cons sync nested s)

variable {cons sync nested T} {s : NodeState W}

theorem Started.linked (h : Started cons T s) : PoolLinked cons T s := by
  refine ⟨h.tip, h.exempt, h.files, ?_, ?_⟩
  · rw [h.pool]
    exact ⟨empty_exact, fun hash tx hlookup => by cases hlookup⟩
  · rw [h.pool]
    intro hash tx hlookup
    cases hlookup

/-- A new leaf of the block tree. -/
theorem PoolLinked.insert (h : PoolLinked cons T s) {block : CBlock}
    (hnew : s.mapBlockIndex (block.getHash cons.ext) = none)
    (hprev : (s.mapBlockIndex block.hashPrevBlock).isSome = true)
    (hmem : ∀ tx ∈ block.vtx, tx ∈ T)
    (hexempt : bip30Exempt (newIndex cons s.mapBlockIndex block) = false) :
    PoolLinked cons T (insertIndex cons s block) := by
  obtain ⟨best,htip⟩ := h.tip
  refine ⟨⟨best, insertIndex_tip htip hnew hprev⟩, ?_, ?_, h.pool, ?_⟩
  · intro p pindex hp
    by_cases heq : p = block.getHash cons.ext
    · rw [heq, insertIndex_self] at hp
      obtain rfl := Option.some.inj hp
      exact hexempt
    · rw [insertIndex_ne heq] at hp
      exact h.exempt p pindex hp
  · intro p block' hfile
    rw [insertIndex] at hfile
    dsimp only at hfile
    by_cases heq : p = block.getHash cons.ext
    · rw [heq, Function.update_self] at hfile
      obtain rfl := Option.some.inj hfile
      exact hmem
    · rw [Function.update_of_ne heq] at hfile
      exact h.files p block' hfile
  · exact h.linked

theorem PoolLinked.marked (h : PoolLinked cons T s) {l : List BlockPtr} {s' : NodeState W}
    (hm : Marked l s s') : PoolLinked cons T s' := by
  obtain ⟨best,htip⟩ := h.tip
  refine ⟨⟨best, htip.marked hm⟩, hm.same.tree.noneExempt h.exempt, ?_, ?_, ?_⟩
  · rw [hm.same.blockFile]
    exact h.files
  · rw [hm.same.mempool]
    exact h.pool
  · rw [hm.same.mempool]
    intro hash tx hlookup out hout
    have hcoins : ∀ out, available s'.pcoinsTip out = available s.pcoinsTip out := fun out => by
      rw [available, available, hm.same.pcoinsTip]
    exact (h.linked hash tx hlookup out hout).imp_left (hcoins out).trans

/-- A transaction comes to the pool. -/
theorem PoolLinked.accept (h : PoolLinked cons T s) {tx : CTransaction} (htx : tx ∈ T)
    (fLimitFree : Bool) (io : AcceptIO) :
    PoolLinked cons T ((s.acceptToMemoryPool cons sync io tx true fLimitFree).getD s) := by
  rw [NodeState.acceptToMemoryPool]
  generalize haccept : Chain.accept cons io _ _ s.mempool tx true fLimitFree = res
  cases res with
  | none => exact h
  | some mempool =>
    obtain ⟨best,htip⟩ := h.tip
    exact ⟨⟨best, htip.of_pool⟩, h.exempt, h.files, accept_ok h.pool htx haccept,
      accept_linked h.linked (fun out => Or.inl) (fun out ha => ha) haccept⟩

/-- One call keeps the pool linked. -/
theorem ChainCall.exec_linked (c : ChainCall) (hT : CollisionFree cons.ext.txHash T)
    (h : PoolLinked cons T s) (hcalled : c.Called cons s) (hok : c.Succeeds cons sync nested T s)
    (hnone : c.StrandsNone cons s) : PoolLinked cons T (c.exec cons sync nested s) := by
  cases c with
  | newBlock block => exact h.insert hcalled.1 hcalled.2 hok.1 hok.2
  | setBestChain p io => exact h.switch hT hcalled (Prod.ext hok rfl) hnone
  | markFailed descendants p => exact h.marked ((markFailed_spec descendants s).invalidChainFound p)
  | accept tx fCheckInputs fLimitFree io =>
    obtain ⟨htx,rfl⟩ := hok
    exact h.accept htx fLimitFree io

/-- A transaction of the pool spends from others. -/
theorem CTxMemPool.Ok.spends_other {txHash : CTransaction → Uint256} {pool : CTxMemPool}
    (hT : CollisionFree txHash T) (h : pool.Ok txHash T) {hash : Uint256} {tx ptx : CTransaction}
    {out : COutPoint} (hlookup : pool.mapTx.lookup hash = some tx) (hout : out ∈ prevouts tx)
    (hptx : pool.mapTx.lookup out.hash = some ptx) : ptx ≠ tx := by
  rintro rfl
  have hmem := h.mem hash ptx hlookup
  exact hT.acyclic ptx
    (Relation.TransGen.single ⟨hmem, hmem, out, hout, h.exact.key _ ptx hptx⟩)

/-- Each input of each transaction of the pool spends an output of the best chain, or one of
another transaction of the pool, after any calls of which no switch of the chain strands an output
that the pool spends. -/
theorem pool_can_be_connected (cons : Consensus) (sync : WalletSync W)
    (nested : NodeState W → ChainExit × NodeState W) (T : Set CTransaction)
    (hT : CollisionFree cons.ext.txHash T) (start s : NodeState W) (hstart : Started cons T start)
    (h : Calls cons sync nested
      (fun s c => c.Succeeds cons sync nested T s ∧ c.StrandsNone cons s) start s)
    (hash : Uint256) (tx : CTransaction) (hlookup : s.mempool.mapTx.lookup hash = some tx)
    (out : COutPoint) (hout : out ∈ prevouts tx) :
    available s.pcoinsTip out = true ∨ ∃ ptx, ptx ≠ tx ∧
      s.mempool.mapTx.lookup out.hash = some ptx ∧ out.n < ptx.vout.length := by
  have hlinked : PoolLinked cons T s := by
    clear hlookup
    induction h with
    | start => exact hstart.linked
    | step c _ called meets ih => exact c.exec_linked hT ih called meets.1 meets.2
  refine (hlinked.linked hash tx hlookup out hout).imp_right ?_
  rintro ⟨ptx,hptx,hn⟩
  exact ⟨ptx, hlinked.pool.spends_other hT hlookup hout hptx, hptx, hn⟩

end Run

section MainNet

/-- The coinbase of the first block. -/
def matureTx : CTransaction := testCoinbase [0x51, 0x51] (20*coin)

def matureTxId : Uint256 := 0x37c5f086513316e9446319b0ceda2f18d5806ca08fe7a0fd063f768bad818062

/-- A transaction that spends it when it is mature. -/
def parentTx : CTransaction :=
  ⟨1, [⟨⟨matureTxId, 0⟩, [0x51], 2^32-1⟩], [⟨19*coin, testScript⟩], 0⟩

def parentTxId : Uint256 := 0x234d0a52671fb7e95f0965ba7d941e1733b07fb1539096c0c6aa3df902809aab

/-- A transaction that spends from that one. -/
def childTx : CTransaction :=
  ⟨1, [⟨⟨parentTxId, 0⟩, [0x51], 2^32-1⟩], [⟨18*coin, testScript⟩], 0⟩

def childTxId : Uint256 := 0x72d545a8efbe2fb885088d4871ca8b36b74418a6ce44614712c520c1ce056584

def lastCoinbase : CTransaction := testCoinbase [0x52, 0x51] (20*coin)

def lastCoinbaseId : Uint256 := 0x35e3d2ac433d0ebb3d122a4cb2fc417d0999bc94ce9547416980865d99fe6d5d

/-- Block 3002 of a chain of the main network. -/
def lastBlock : CBlock :=
  ⟨⟨2, 3001, 0x31ecb173eca49f9008bc4be37d2ff00879709fecb1747bb33bb73916b0e8cc41, 1373400000,
    0x07000000, 0, 210⟩, [lastCoinbase,parentTx]⟩

def lastHash : Uint256 := 0x725de0aedb7178cd9f03b51eca68debd9db050943b380da72af23202ddbf3eaf

def mainGenesisHash : Uint256 := 0x963d17ba4dc753138078a2f56afb3af9674e2546822badff26837db9a0152106

/-- SHA-256 at these transactions and at the block. -/
def longExternals : Externals where
  txHash tx := if tx = matureTx then matureTxId else if tx = parentTx then parentTxId
    else if tx = childTx then childTxId else if tx = lastCoinbase then lastCoinbaseId else 0
  blockHash header := if header = lastBlock.toCBlockHeader then lastHash else 0
  nodeHash _ _ := lastBlock.hashMerkleRoot
  verifyScript _ _ _ _ _ := true

/-- The main network; without its checkpoints the estimate is 0. -/
def mainNet (nTotalBlocksEstimate : ℕ) : Consensus where
  ext := longExternals
  fees := defaultFees
  target := mainNetParams
  hashGenesisBlock := mainGenesisHash
  nTotalBlocksEstimate := nTotalBlocksEstimate
  fScriptCheckThreads := false
  fTxIndex := false

/-- The blocks of the chain by their heights. Those between its ends are named by their heights. -/
def longName (i : ℕ) : BlockPtr :=
  if i = 0 then mainGenesisHash else if i = 3002 then lastHash else BitVec.ofNat 256 i

def longHeight (p : BlockPtr) : Option ℕ :=
  if p = mainGenesisHash then some 0
  else if p = lastHash then some 3002
  else if 0 < p.toNat ∧ p.toNat < 3002 then some p.toNat
  else none

def longIndex (i : ℕ) : CBlockIndex where
  phashBlock := some (longName i)
  pprev := if i = 0 then none else some (longName (i-1))
  pnext := if i = 3002 then none else some (longName (i+1))
  nHeight := i
  nChainWork := BitVec.ofNat 256 ((i+1)*getBlockWork mainNetParams 0x07000000)
  nMoneySupply := i*(20*coin)
  nStatus := ⟨blockValidScripts, true, decide (0 < i), false, false⟩
  hashMerkleRoot := if i = 3002 then lastBlock.hashMerkleRoot else 0
  nTime := 1373100000+100*i
  nBits := 0x07000000

/-- The node with that chain, of which the last block and its coins are spelled out. -/
def longStart : NodeState Unit where
  mapBlockIndex p := (longHeight p).map longIndex
  setBlockIndexValid := [lastHash]
  blockFile p := if p = lastHash then some lastBlock else none
  undoFile p := if p = lastHash then some ⟨[⟨[⟨⟨20*coin, testScript⟩, true, 1, 1⟩]⟩]⟩ else none
  pcoinsdbview := ⟨fun txid =>
    if txid = parentTxId then some (CCoins.ofTx parentTx 3002)
    else if txid = lastCoinbaseId then some (CCoins.ofTx lastCoinbase 3002)
    else none, some lastHash⟩
  cacheCoins _ := none
  pindexTip := some lastHash
  pindexBest := some lastHash
  hashBestChain := lastHash
  nBestHeight := 3002
  nBestChainWork := (longIndex 3002).nChainWork
  nBestInvalidWork := 0
  mempool := CTxMemPool.empty
  wallet := ()

/-- What the sample starts from: the entries of its last two blocks. -/
theorem longStart_computed : longHeight (longName 3002) = some 3002 ∧
    (longStart.mapBlockIndex 3001).isSome = true ∧
    (longStart.mapBlockIndex lastHash).map isFailed = some false ∧
    (longStart.mapBlockIndex lastHash).isSome = true ∧
    longStart.nBestHeight = heightOf longStart.mapBlockIndex lastHash ∧
    longStart.nBestChainWork = workOf longStart.mapBlockIndex lastHash := by
  decide +kernel

theorem longHeight_eq {p : BlockPtr} {i : ℕ} :
    longHeight p = some i ↔ i ≤ 3002 ∧ longName i = p := by
  constructor
  · intro h
    rw [longHeight] at h
    split_ifs at h with hgenesis hlast hbetween
    · obtain rfl := Option.some.inj h
      exact ⟨by omega, hgenesis.symm⟩
    · obtain rfl := Option.some.inj h
      exact ⟨le_rfl, hlast.symm⟩
    · obtain rfl := Option.some.inj h
      refine ⟨by omega, ?_⟩
      rw [longName, if_neg (by omega), if_neg (by omega), BitVec.ofNat_toNat, BitVec.setWidth_eq]
  · rintro ⟨hle,rfl⟩
    by_cases h0 : i = 0
    · subst h0
      decide
    by_cases hlast : i = 3002
    · subst hlast
      exact longStart_computed.1
    have hnat : (BitVec.ofNat 256 i).toNat = i := by
      rw [BitVec.toNat_ofNat]
      exact Nat.mod_eq_of_lt (by omega)
    have hne : ∀ p : BlockPtr, 3002 < p.toNat → BitVec.ofNat 256 i ≠ p := by
      rintro p hp rfl
      omega
    rw [longName, if_neg h0, if_neg hlast, longHeight, if_neg (hne _ (by decide)),
      if_neg (hne _ (by decide)), if_pos (by omega), hnat]

theorem longStart_entry {i : ℕ} (hi : i ≤ 3002) :
    longStart.mapBlockIndex (longName i) = some (longIndex i) := by
  change (longHeight (longName i)).map longIndex = _
  rw [longHeight_eq.mpr ⟨hi, rfl⟩]
  rfl

theorem longStart_mem {p : BlockPtr} {pindex : CBlockIndex}
    (h : longStart.mapBlockIndex p = some pindex) : ∃ i ≤ 3002, longName i = p ∧ longIndex i = pindex := by
  obtain ⟨i,hi,hindex⟩ := Option.map_eq_some_iff.mp h
  obtain ⟨hle,hname⟩ := longHeight_eq.mp hi
  exact ⟨i, hle, hname, hindex⟩

theorem longStart_parent {i : ℕ} (hi : i < 3002) :
    parentOf longStart.mapBlockIndex (longName (i+1)) = some (longName i) := by
  rw [parentOf, longStart_entry hi]
  rfl

theorem longStart_next {i : ℕ} (hi : i < 3002) :
    nextOf longStart.mapBlockIndex (longName i) = some (longName (i+1)) := by
  rw [nextOf, longStart_entry hi.le]
  exact if_neg (by omega)

theorem longStart_tree (n : ℕ) :
    TreeOk (mainNet n).hashGenesisBlock longStart.mapBlockIndex := by
  have hroot : longStart.mapBlockIndex (longName 0) = some (longIndex 0) := longStart_entry (by omega)
  refine ⟨?_, ?_, ?_, fun a ha hne => ?_⟩
  · exact Option.isSome_iff_exists.mpr ⟨_, hroot⟩
  · change (longStart.mapBlockIndex (longName 0)).bind _ = none
    rw [hroot]
    rfl
  · change ((longStart.mapBlockIndex (longName 0)).map _).getD 0 = 0
    rw [hroot]
    rfl
  · obtain ⟨pindex,hp⟩ := Option.isSome_iff_exists.mp ha
    obtain ⟨i,hi,rfl,rfl⟩ := longStart_mem hp
    obtain ⟨j,rfl⟩ : ∃ j, i = j+1 := Nat.exists_eq_succ_of_ne_zero (by rintro rfl; exact hne rfl)
    have hj : longStart.mapBlockIndex (longName j) = some (longIndex j) := longStart_entry (by omega)
    refine ⟨longName j, longStart_parent (by omega), Option.isSome_iff_exists.mpr ⟨_, hj⟩, ?_⟩
    rw [heightOf, heightOf, hp, hj]
    rfl

theorem longStart_anc {i : ℕ} (hi : i ≤ 3002) :
    Anc (parentOf longStart.mapBlockIndex) lastHash (longName i) := by
  induction hk : 3002-i generalizing i with
  | zero =>
    obtain rfl : i = 3002 := by omega
    exact Anc.refl _
  | succ k ih => exact (ih (by omega) (by omega)).tail (longStart_parent (by omega))

theorem longStart_nextFor : NextFor longStart.mapBlockIndex lastHash := by
  intro p q
  constructor
  · intro hnext
    obtain ⟨pindex,hp,hpnext⟩ := Option.bind_eq_some_iff.mp hnext
    obtain ⟨i,hi,rfl,rfl⟩ := longStart_mem hp
    rw [longIndex] at hpnext
    dsimp only at hpnext
    split_ifs at hpnext
    obtain rfl := Option.some.inj hpnext
    exact ⟨longStart_parent (by omega), longStart_anc (by omega)⟩
  · rintro ⟨hparent,-⟩
    obtain ⟨pindex,hq,hpprev⟩ := Option.bind_eq_some_iff.mp hparent
    obtain ⟨i,hi,rfl,rfl⟩ := longStart_mem hq
    rw [longIndex] at hpprev
    dsimp only at hpprev
    split_ifs at hpprev
    obtain rfl := Option.some.inj hpprev
    obtain ⟨j,rfl⟩ : ∃ j, i = j+1 := Nat.exists_eq_succ_of_ne_zero ‹_›
    exact longStart_next (by omega)

/-- The transactions of the sample. -/
def longSet : Set CTransaction := {lastCoinbase, parentTx, childTx}

theorem longStart_started (n : ℕ) : Started (mainNet n) longSet longStart := by
  refine ⟨⟨lastHash, longStart_tree n, ?_, ?_, ?_, rfl, rfl, rfl, ?_, ?_, longStart_nextFor⟩, ?_, ?_, rfl⟩
  · intro p pindex hp
    obtain ⟨i,hi,rfl,rfl⟩ := longStart_mem hp
    rfl
  · intro p hp
    obtain rfl := List.mem_singleton.mp hp
    exact longStart_computed.2.2.1
  · exact longStart_computed.2.2.2.1
  · exact longStart_computed.2.2.2.2.1
  · exact longStart_computed.2.2.2.2.2
  · intro p pindex hp
    obtain ⟨i,hi,rfl,rfl⟩ := longStart_mem hp
    have hfirst : (i == 91842) = false := beq_eq_false_iff_ne.mpr (by omega)
    have hsecond : (i == 91880) = false := beq_eq_false_iff_ne.mpr (by omega)
    rw [bip30Exempt]
    change (i == 91842 && _ || i == 91880 && _) = false
    rw [hfirst, hsecond]
    rfl
  · intro p block hfile tx htx
    change (if p = lastHash then some lastBlock else none) = some block at hfile
    split_ifs at hfile
    obtain rfl := Option.some.inj hfile
    rcases List.mem_cons.mp htx with rfl | htx
    · exact Or.inl rfl
    · exact Or.inr (Or.inl (List.mem_singleton.mp htx))

theorem longSet_collisionFree : CollisionFree longExternals.txHash longSet := by
  have hlist : ∀ tx ∈ longSet, tx ∈ [lastCoinbase,parentTx,childTx] := by
    rintro tx (rfl | rfl | rfl)
    · exact List.mem_cons_self
    · exact List.mem_cons_of_mem _ List.mem_cons_self
    · exact List.mem_cons_of_mem _ (List.mem_cons_of_mem _ List.mem_cons_self)
  have hinj : ∀ tx ∈ [lastCoinbase,parentTx,childTx], ∀ tx' ∈ [lastCoinbase,parentTx,childTx],
      longExternals.txHash tx = longExternals.txHash tx' → tx = tx' := by decide +kernel
  have hspends : ∀ tx ∈ [lastCoinbase,parentTx,childTx], ∀ tx' ∈ [lastCoinbase,parentTx,childTx],
      ∀ out ∈ prevouts tx', out.hash = longExternals.txHash tx → tx = parentTx ∧ tx' = childTx := by
    decide +kernel
  refine CollisionFree.of_rank (fun tx htx tx' htx' => hinj tx (hlist tx htx) tx' (hlist tx' htx'))
    (fun tx => if tx = childTx then 1 else 0) ?_
  rintro tx tx' ⟨htx,htx',out,hout,heq⟩
  obtain ⟨rfl,rfl⟩ := hspends tx (hlist tx htx) tx' (hlist tx' htx') out hout heq
  decide +kernel

def longAccept : ChainCall := .accept childTx true false ⟨true, true, false⟩

def longStepBack : ChainCall := .setBestChain 3001 (testChainOutcome true)

/-- The node after the transaction has come. -/
def longState1 (n : ℕ) : NodeState Unit :=
  longAccept.exec (mainNet n) noWallet (fun s => (.ok, s)) longStart

/-- The node after the chain went back by one block. -/
def longState2 (n : ℕ) : NodeState Unit :=
  longStepBack.exec (mainNet n) noWallet (fun s => (.ok, s)) (longState1 n)

theorem longState1_index (n : ℕ) : (longState1 n).mapBlockIndex = longStart.mapBlockIndex ∧
    (longState1 n).blockFile = longStart.blockFile := by
  obtain ⟨mempool,wallet,heq⟩ : ∃ mempool wallet, longState1 n = _ :=
    @acceptToMemoryPool_eq Unit (mainNet n) noWallet ⟨true, true, false⟩ longStart childTx true false
  rw [heq]
  exact ⟨rfl, rfl⟩

theorem long_run (n : ℕ) {ok : NodeState Unit → ChainCall → Prop} (haccept : ok longStart longAccept)
    (hset : ok (longState1 n) longStepBack) :
    Calls (mainNet n) noWallet (fun s => (.ok, s)) ok longStart (longState2 n) := by
  refine Calls.step longStepBack (Calls.step longAccept Calls.start trivial haccept) ?_ hset
  change ((longState1 n).mapBlockIndex 3001).isSome = true
  rw [(longState1_index n).1]
  exact longStart_computed.2.1

/-- The run without the checkpoints and the run with them, step by step. -/
theorem longStates_computed :
    (findBranches (longState1 0).mapBlockIndex (longState1 0).pindexBest 3001 =
        some ([lastHash],[]) ∧
      (longState1 0).mempool.mapTx.entries = [⟨childTxId, childTx⟩] ∧
      (setBestChain (mainNet 0) noWallet (fun s => (.ok, s)) (testChainOutcome true) 3001
        (longState1 0)).1 = .ok ∧
      (longState2 0).mempool.mapTx.lookup childTxId = some childTx) ∧
    (setBestChain (mainNet 85429) noWallet (fun s => (.ok, s)) (testChainOutcome true) 3001
      (longState1 85429)).1 = .ok ∧
    (longState2 85429).mempool.mapTx.lookup childTxId = some childTx ∧
    available (longState2 85429).pcoinsTip ⟨parentTxId, 0⟩ = false ∧
    (longState2 85429).mempool.mapTx.lookup parentTxId = none := by
  decide +kernel

/-- Without the checkpoints the parent of the transaction comes back. -/
theorem longStepBack_strandsNone : longStepBack.StrandsNone (mainNet 0) (longState1 0) := by
  intro vDisconnect vConnect hfind hash tx hlookup out hout
  obtain ⟨hbranches,hentries,-⟩ := longStates_computed.1
  obtain ⟨rfl,-⟩ := Prod.mk.inj (Option.some.inj (hbranches.symm.trans hfind))
  have hentry := List.of_mem_dlookup hlookup
  rw [hentries, List.mem_singleton] at hentry
  obtain ⟨rfl,heq⟩ := Sigma.mk.inj hentry
  obtain rfl := eq_of_heq heq
  obtain rfl := List.mem_singleton.mp hout
  rintro ⟨p,hp,block,tx',hfile,htx',hleft,hhash,-⟩
  obtain rfl := List.mem_singleton.mp hp
  rw [(longState1_index 0).2] at hfile
  obtain rfl := Option.some.inj hfile
  rcases List.mem_cons.mp htx' with rfl | htx'
  · revert hhash
    decide +kernel
  · obtain rfl := List.mem_singleton.mp htx'
    revert hleft
    decide +kernel

theorem pool_can_be_connected_mainNet :
    (longState2 0).mempool.mapTx.lookup childTxId = some childTx ∧
      (available (longState2 0).pcoinsTip ⟨parentTxId, 0⟩ = true ∨ ∃ ptx, ptx ≠ childTx ∧
        (longState2 0).mempool.mapTx.lookup parentTxId = some ptx ∧ 0 < ptx.vout.length) := by
  obtain ⟨-,-,hok,hchild⟩ := longStates_computed.1
  refine ⟨hchild, ?_⟩
  exact pool_can_be_connected (mainNet 0) noWallet (fun s => (.ok, s)) longSet longSet_collisionFree
    longStart (longState2 0) (longStart_started 0)
    (long_run 0 ⟨⟨Or.inr (Or.inr rfl), rfl⟩, trivial⟩ ⟨hok, longStepBack_strandsNone⟩)
    childTxId childTx hchild ⟨parentTxId, 0⟩ List.mem_cons_self

/-- With them it does not, and the transaction is left in the pool with an input that nobody
has. -/
theorem checkpointed_parent_not_restored :
    CollisionFree longExternals.txHash longSet ∧ Started (mainNet 85429) longSet longStart ∧
    Calls (mainNet 85429) noWallet (fun s => (.ok, s))
      (ChainCall.Succeeds (mainNet 85429) noWallet (fun s => (.ok, s)) longSet) longStart
      (longState2 85429) ∧
    (longState2 85429).mempool.mapTx.lookup childTxId = some childTx ∧
    ⟨parentTxId, 0⟩ ∈ prevouts childTx ∧
    available (longState2 85429).pcoinsTip ⟨parentTxId, 0⟩ = false ∧
    (longState2 85429).mempool.mapTx.lookup parentTxId = none := by
  obtain ⟨hok,hchild,hspent,hparent⟩ := longStates_computed.2
  exact ⟨longSet_collisionFree, longStart_started _,
    long_run 85429 ⟨Or.inr (Or.inr rfl), rfl⟩ hok, hchild, List.mem_cons_self, hspent, hparent⟩

end MainNet

end Candypool.Chain
