import Mathlib.Data.Finset.Max
import Mathlib.Data.Int.Order.Basic
import Mathlib.Logic.Function.Iterate
import Mathlib.Data.List.Infix

/-! The key pool of the wallet: keys that were made beforehand, with their indexes in the database. A key
that is reserved leaves the pool but not the database. Keys are numbered in the order in which they are
made. -/
namespace Candypool.Wallet

structure CWallet where
  setKeyPool : Finset ℤ
  pool : ℤ → Option ℕ
  fLocked : Bool
  vchDefaultKey : Option ℕ
  mapKeys : Finset ℕ
  nKeys : ℕ

namespace CWallet

/-- The index the next key gets: one more than the largest in the set. -/
def nEnd (w : CWallet) : ℤ :=
  if h : w.setKeyPool.Nonempty then w.setKeyPool.max' h+1 else 1

/-- `GenerateNewKey`: the number of the key is `nKeys`. -/
def generateNewKey (w : CWallet) : CWallet :=
  { w with mapKeys := insert w.nKeys w.mapKeys, nKeys := w.nKeys+1 }

/-- One turn of the loop of `TopUpKeyPool`. -/
def addKey (w : CWallet) : CWallet :=
  { w.generateNewKey with
    pool := Function.update w.pool w.nEnd (some w.nKeys)
    setKeyPool := insert w.nEnd w.setKeyPool }

theorem addKey_pool (w : CWallet) (i : ℤ) :
    w.addKey.pool i = Function.update w.pool w.nEnd (some w.nKeys) i := rfl

/-- The keys that are missing; the sum is an `unsigned int`. -/
def missing (nTargetSize : ℕ) (w : CWallet) : ℕ := (nTargetSize+1) % 2^32-w.setKeyPool.card

/-- Every turn adds an index that is not in the set, so the loop makes as many turns as keys are missing. -/
def topUpKeyPool (nTargetSize : ℕ) (w : CWallet) : Bool × CWallet :=
  if w.fLocked then (false, w) else (true, addKey^[w.missing nTargetSize] w)

/-- What `ReserveKeyFromKeyPool` leaves in its arguments, and whether it throws. -/
structure Reserved where
  nIndex : ℤ
  vchPubKey : Option ℕ
  thrown : Bool
  deriving DecidableEq, Repr

def reserveKeyFromKeyPool (nTargetSize : ℕ) (w : CWallet) : Reserved × CWallet :=
  let w := if w.fLocked then w else (w.topUpKeyPool nTargetSize).2
  if h : w.setKeyPool.Nonempty then
    let nIndex := w.setKeyPool.min' h -- the oldest key
    let w := { w with setKeyPool := w.setKeyPool.erase nIndex }
    match w.pool nIndex with
    | none => (⟨nIndex, none, true⟩, w)
    | some key => (⟨nIndex, some key, decide (key ∉ w.mapKeys)⟩, w)
  else (⟨-1, none, false⟩, w)

def keepKey (w : CWallet) (nIndex : ℤ) : CWallet := { w with pool := Function.update w.pool nIndex none }

theorem keepKey_pool (w : CWallet) (nIndex i : ℤ) :
    (w.keepKey nIndex).pool i = Function.update w.pool nIndex none i := rfl

def returnKey (w : CWallet) (nIndex : ℤ) : CWallet :=
  { w with setKeyPool := insert nIndex w.setKeyPool }

/-- The key that is handed out, with the flag that it was kept in the pool's sense. -/
def getKeyFromPool (nTargetSize : ℕ) (fAllowReuse : Bool) (w : CWallet) : Option (ℕ × Bool) × CWallet :=
  let (out,w) := w.reserveKeyFromKeyPool nTargetSize
  if out.thrown then (none, w)
  else if out.nIndex = -1 then
    match fAllowReuse, w.vchDefaultKey with
    | true, some key => (some (key,false), w)
    | _, _ =>
      if w.fLocked then (none, w) else (some (w.nKeys,false), w.generateNewKey)
  else (out.vchPubKey.map fun key => (key,true), w.keepKey out.nIndex)

end CWallet

structure CReserveKey where
  nIndex : ℤ
  vchPubKey : Option ℕ
  deriving DecidableEq, Repr

namespace CReserveKey

def empty : CReserveKey := ⟨-1,none⟩

/-- A reservation whose call threw has an index and no key, which a later call's assertion refuses. -/
def getReservedKey (nTargetSize : ℕ) (r : CReserveKey) (w : CWallet) : Option ℕ × CReserveKey × CWallet :=
  if r.nIndex = -1 then
    let (out,w) := w.reserveKeyFromKeyPool nTargetSize
    if out.thrown then (none, { r with nIndex := out.nIndex }, w)
    else if out.nIndex ≠ -1 then (out.vchPubKey, ⟨out.nIndex,out.vchPubKey⟩, w)
    else match w.vchDefaultKey with
      | some key => (some key, ⟨-1,some key⟩, w)
      | none => (none, ⟨-1,r.vchPubKey⟩, w)
  else (r.vchPubKey, r, w)

def keepKey (r : CReserveKey) (w : CWallet) : CReserveKey × CWallet :=
  (empty, if r.nIndex ≠ -1 then w.keepKey r.nIndex else w)

/-- `ReturnKey`, which the destructor calls too. -/
def returnKey (r : CReserveKey) (w : CWallet) : CReserveKey × CWallet :=
  (empty, if r.nIndex ≠ -1 then w.returnKey r.nIndex else w)

end CReserveKey

/-- The wallet, the reservations of its users and the keys that were kept. -/
structure KeyState where
  wallet : CWallet
  held : ℕ → CReserveKey
  kept : List ℕ

/-- `reserve` is a caller of `ReserveKeyFromKeyPool` with an index of its own, the rest as in the source. -/
inductive KeyOp
  | topUpKeyPool
  | reserve (h : ℕ)
  | getReservedKey (h : ℕ)
  | keepKey (h : ℕ)
  | returnKey (h : ℕ)
  | getKeyFromPool (fAllowReuse : Bool)
  | setLocked (fLocked : Bool)
  deriving DecidableEq, Repr

section Run
variable (nTargetSize : ℕ)

/-- One call: the key it hands out and the state after it. -/
def KeyOp.exec (s : KeyState) : KeyOp → Option ℕ × KeyState
  | .topUpKeyPool => (none, { s with wallet := (s.wallet.topUpKeyPool nTargetSize).2 })
  | .reserve h =>
    if (s.held h).nIndex = -1 then
      let (out,w) := s.wallet.reserveKeyFromKeyPool nTargetSize
      let key := if out.thrown ∨ out.nIndex = -1 then none else out.vchPubKey
      (key, { s with wallet := w, held := Function.update s.held h ⟨out.nIndex,key⟩ })
    else (none, s)
  | .getReservedKey h =>
    let (key,r,w) := (s.held h).getReservedKey nTargetSize s.wallet
    (key, { s with wallet := w, held := Function.update s.held h r })
  | .keepKey h =>
    let (r,w) := (s.held h).keepKey s.wallet
    let kept := if (s.held h).nIndex ≠ -1 then (s.held h).vchPubKey.toList ++ s.kept else s.kept
    (none, { s with wallet := w, held := Function.update s.held h r, kept := kept })
  | .returnKey h =>
    let (r,w) := (s.held h).returnKey s.wallet
    (none, { s with wallet := w, held := Function.update s.held h r })
  | .getKeyFromPool fAllowReuse =>
    let (out,w) := s.wallet.getKeyFromPool nTargetSize fAllowReuse
    let kept := ((out.filter Prod.snd).map Prod.fst).toList ++ s.kept
    (out.map Prod.fst, { s with wallet := w, kept := kept })
  | .setLocked fLocked => (none, { s with wallet := { s.wallet with fLocked := fLocked } })

/-- Before any call. -/
def KeyState.start (w : CWallet) : KeyState := ⟨w, fun _ => CReserveKey.empty, []⟩

/-- No two reservations hold one index. -/
def KeyState.Distinct (s : KeyState) : Prop :=
  ∀ h h', h ≠ h' → (s.held h).nIndex ≠ -1 → (s.held h).nIndex ≠ (s.held h').nIndex

/-- The indexes that a refill would add are not held by a reservation. -/
def KeyState.RefillApart (s : KeyState) : Prop :=
  s.wallet.fLocked = false → ∀ h, (s.held h).nIndex ≠ -1 →
    (s.held h).nIndex < s.wallet.nEnd ∨
      s.wallet.nEnd+s.wallet.missing nTargetSize ≤ (s.held h).nIndex

/-- The calls that refill the pool. -/
def KeyOp.Refills (s : KeyState) : KeyOp → Prop
  | .topUpKeyPool => True
  | .reserve h => (s.held h).nIndex = -1
  | .getReservedKey h => (s.held h).nIndex = -1
  | .getKeyFromPool _ => True
  | _ => False

end Run

section Pool
variable {w : CWallet}

theorem CWallet.lt_nEnd {i : ℤ} (hi : i ∈ w.setKeyPool) : i < w.nEnd := by
  rw [nEnd, dif_pos ⟨i,hi⟩]
  exact Int.lt_add_one_of_le (Finset.le_max' _ i hi)

theorem CWallet.nEnd_addKey : w.addKey.nEnd = w.nEnd+1 := by
  have hmem : w.nEnd ∈ w.addKey.setKeyPool := Finset.mem_insert_self _ _
  have hmax : w.addKey.setKeyPool.max' ⟨_,hmem⟩ = w.nEnd := by
    apply le_antisymm
    · apply Finset.max'_le
      intro i hi
      rcases Finset.mem_insert.mp hi with rfl | hi
      · exact le_rfl
      · exact (lt_nEnd hi).le
    · exact Finset.le_max' _ _ hmem
  rw [nEnd, dif_pos ⟨_,hmem⟩, hmax]

/-- A pool as it is loaded from the database: every index has a record, and the keys of the records are
distinct, are in the wallet and are not the default key. -/
structure CWallet.Sound (w : CWallet) : Prop where
  present : ∀ i ∈ w.setKeyPool, ∃ key, w.pool i = some key
  known : ∀ i key, w.pool i = some key → key ∈ w.mapKeys
  distinct : ∀ i j key, w.pool i = some key → w.pool j = some key → i = j
  made : ∀ i key, w.pool i = some key → key < w.nKeys
  default : ∀ key, w.vchDefaultKey = some key → key < w.nKeys ∧ ∀ i, w.pool i ≠ some key

theorem CWallet.Sound.addKey (h : w.Sound) : w.addKey.Sound := by
  have hpool : ∀ i key, w.addKey.pool i = some key →
      (i = w.nEnd ∧ key = w.nKeys) ∨ w.pool i = some key := by
    intro i key hi
    by_cases hn : i = w.nEnd
    · rw [hn, CWallet.addKey_pool, Function.update_self] at hi
      exact Or.inl ⟨hn, (Option.some.inj hi).symm⟩
    · rw [CWallet.addKey_pool, Function.update_of_ne hn] at hi
      exact Or.inr hi
  refine ⟨?_, ?_, ?_, ?_, ?_⟩
  · intro i hi
    by_cases hn : i = w.nEnd
    · exact ⟨w.nKeys, by rw [hn, CWallet.addKey_pool, Function.update_self]⟩
    · rw [CWallet.addKey_pool, Function.update_of_ne hn]
      exact h.present i (Finset.mem_of_mem_insert_of_ne hi hn)
  · intro i key hi
    rcases hpool i key hi with ⟨-,rfl⟩ | hold
    · exact Finset.mem_insert_self _ _
    · exact Finset.mem_insert_of_mem (h.known i key hold)
  · intro i j key hi hj
    rcases hpool i key hi with ⟨rfl,hnew⟩ | hold
    · rcases hpool j key hj with ⟨rfl,-⟩ | hold'
      · rfl
      · have := h.made j key hold'
        omega
    · rcases hpool j key hj with ⟨rfl,hnew⟩ | hold'
      · have := h.made i key hold
        omega
      · exact h.distinct i j key hold hold'
  · intro i key hi
    rcases hpool i key hi with ⟨-,hnew⟩ | hold
    · rw [hnew]
      exact Nat.lt_succ_self _
    · exact Nat.lt_succ_of_lt (h.made i key hold)
  · intro key hkey
    obtain ⟨hlt,hnone⟩ := h.default key hkey
    refine ⟨Nat.lt_succ_of_lt hlt, ?_⟩
    intro i hi
    rcases hpool i key hi with ⟨-,hnew⟩ | hold
    · omega
    · exact hnone i hold

end Pool

section Invariant
variable {s : KeyState}

/-- What holds in every state: the records are sound and none of their keys was kept, and a reservation
has an index of its own, outside the pool, and the key of its record. -/
structure KeyState.Inv (s : KeyState) : Prop where
  sound : s.wallet.Sound
  outside : ∀ h, (s.held h).nIndex ≠ -1 → (s.held h).nIndex ∉ s.wallet.setKeyPool
  distinct : s.Distinct
  record : ∀ h, (s.held h).nIndex ≠ -1 → ∃ key, (s.held h).vchPubKey = some key ∧
    s.wallet.pool (s.held h).nIndex = some key
  unkept : ∀ i key, s.wallet.pool i = some key → key ∉ s.kept
  made : ∀ key ∈ s.kept, key < s.wallet.nKeys
  default : ∀ key, s.wallet.vchDefaultKey = some key → key ∉ s.kept

theorem KeyState.Inv.addKey (hs : s.Inv)
    (hapart : ∀ h, (s.held h).nIndex ≠ -1 → (s.held h).nIndex ≠ s.wallet.nEnd) :
    KeyState.Inv { s with wallet := s.wallet.addKey } where
  sound := hs.sound.addKey
  outside := by
    intro h hlive hmem
    rcases Finset.mem_insert.mp hmem with heq | hmem
    · exact hapart h hlive heq
    · exact hs.outside h hlive hmem
  distinct := hs.distinct
  record := by
    intro h hlive
    rw [CWallet.addKey_pool, Function.update_of_ne (hapart h hlive)]
    exact hs.record h hlive
  unkept := by
    intro i key hi hkept
    have hlt := hs.made key hkept
    change Function.update s.wallet.pool s.wallet.nEnd _ i = _ at hi
    by_cases hn : i = s.wallet.nEnd
    · rw [hn, Function.update_self] at hi
      have := Option.some.inj hi
      omega
    · rw [Function.update_of_ne hn] at hi
      exact hs.unkept i key hi hkept
  made := fun key hkey => Nat.lt_succ_of_lt (hs.made key hkey)
  default := hs.default

theorem KeyState.Inv.addKeys (hs : s.Inv) (n : ℕ)
    (hapart : ∀ h, (s.held h).nIndex ≠ -1 →
      (s.held h).nIndex < s.wallet.nEnd ∨ s.wallet.nEnd+n ≤ (s.held h).nIndex) :
    KeyState.Inv { s with wallet := CWallet.addKey^[n] s.wallet } := by
  induction n generalizing s with
  | zero => exact hs
  | succ n ih =>
    rw [Function.iterate_succ_apply]
    apply ih (hs.addKey ?_)
    · intro h hlive
      change (s.held h).nIndex < s.wallet.addKey.nEnd ∨ s.wallet.addKey.nEnd+n ≤ (s.held h).nIndex
      rw [CWallet.nEnd_addKey]
      rcases hapart h hlive with hlt | hge
      · exact Or.inl (by omega)
      · exact Or.inr (by push_cast at hge; omega)
    · intro h hlive
      rcases hapart h hlive with hlt | hge
      · exact hlt.ne
      · push_cast at hge
        omega

theorem KeyState.Inv.topUp (hs : s.Inv) {nTargetSize : ℕ} (hapart : s.RefillApart nTargetSize) :
    KeyState.Inv { s with wallet := (s.wallet.topUpKeyPool nTargetSize).2 } := by
  rw [CWallet.topUpKeyPool]
  split_ifs with hlocked
  · exact hs
  · exact hs.addKeys _ (hapart (eq_false_of_ne_true hlocked))

/-- A reservation takes its index out of the pool and gets the key of its record. -/
structure ReserveOk (s : KeyState) (out : CWallet.Reserved) (w : CWallet) : Prop where
  inv : KeyState.Inv { s with wallet := w }
  returns : out.thrown = false
  outside : out.nIndex ≠ -1 → out.nIndex ∉ w.setKeyPool
  apart : ∀ h, (s.held h).nIndex ≠ -1 → (s.held h).nIndex ≠ out.nIndex
  record : out.nIndex ≠ -1 → ∃ key, out.vchPubKey = some key ∧ w.pool out.nIndex = some key

theorem KeyState.Inv.reserve (hs : s.Inv) {nTargetSize : ℕ} (hapart : s.RefillApart nTargetSize) :
    ReserveOk s (s.wallet.reserveKeyFromKeyPool nTargetSize).1
      (s.wallet.reserveKeyFromKeyPool nTargetSize).2 := by
  have htop : KeyState.Inv { s with wallet :=
      if s.wallet.fLocked then s.wallet else (s.wallet.topUpKeyPool nTargetSize).2 } := by
    split_ifs
    · exact hs
    · exact hs.topUp hapart
  rw [CWallet.reserveKeyFromKeyPool]
  dsimp only
  generalize (if s.wallet.fLocked then s.wallet else (s.wallet.topUpKeyPool nTargetSize).2) = w at htop ⊢
  split_ifs with hne
  · have hmin := w.setKeyPool.min'_mem hne
    have hinv : KeyState.Inv
        { s with wallet := { w with setKeyPool := w.setKeyPool.erase (w.setKeyPool.min' hne) } } :=
      { htop with
        sound := { htop.sound with
          present := fun i hi => htop.sound.present i (Finset.mem_of_mem_erase hi) }
        outside := fun h hlive hmem => htop.outside h hlive (Finset.mem_of_mem_erase hmem) }
    have hapart' : ∀ h, (s.held h).nIndex ≠ -1 → (s.held h).nIndex ≠ w.setKeyPool.min' hne :=
      fun h hlive heq => htop.outside h hlive (heq ▸ hmin)
    cases hpool : w.pool (w.setKeyPool.min' hne) with
    | none =>
      obtain ⟨key,hpresent⟩ := htop.sound.present _ hmin
      exact absurd (hpool.symm.trans hpresent) (Option.some_ne_none key).symm
    | some key =>
      have hknown : key ∈ w.mapKeys := htop.sound.known _ key hpool
      exact ⟨hinv, decide_eq_false (not_not.mpr hknown), fun _ => Finset.notMem_erase _ _, hapart',
        fun _ => ⟨key, rfl, hpool⟩⟩
  · exact ⟨htop, rfl, fun hne => absurd rfl hne, fun h hlive => hlive, fun hne => absurd rfl hne⟩

/-- A reservation may change hands where its index is free. -/
theorem KeyState.Inv.hold (hs : s.Inv) (h : ℕ) (r : CReserveKey)
    (houtside : r.nIndex ≠ -1 → r.nIndex ∉ s.wallet.setKeyPool)
    (hapart : r.nIndex ≠ -1 → ∀ h', h' ≠ h → (s.held h').nIndex ≠ r.nIndex)
    (hrecord : r.nIndex ≠ -1 →
      ∃ key, r.vchPubKey = some key ∧ s.wallet.pool r.nIndex = some key) :
    KeyState.Inv { s with held := Function.update s.held h r } where
  sound := hs.sound
  outside := by
    intro h' hlive
    change (Function.update s.held h r h').nIndex ∉ s.wallet.setKeyPool
    by_cases heq : h' = h
    · subst heq
      simp only [Function.update_self] at hlive ⊢
      exact houtside hlive
    · simp only [Function.update_of_ne heq] at hlive ⊢
      exact hs.outside h' hlive
  distinct := by
    intro h1 h2 hne hlive
    dsimp only at hlive ⊢
    by_cases h1h : h1 = h
    · subst h1h
      rw [Function.update_of_ne (Ne.symm hne)]
      rw [Function.update_self] at hlive ⊢
      exact (hapart hlive h2 (Ne.symm hne)).symm
    · rw [Function.update_of_ne h1h] at hlive ⊢
      by_cases h2h : h2 = h
      · subst h2h
        rw [Function.update_self]
        by_cases hr : r.nIndex = -1
        · rw [hr]
          exact hlive
        · exact hapart hr h1 hne
      · rw [Function.update_of_ne h2h]
        exact hs.distinct h1 h2 hne hlive
  record := by
    intro h' hlive
    dsimp only at hlive ⊢
    by_cases heq : h' = h
    · subst heq
      rw [Function.update_self] at hlive ⊢
      exact hrecord hlive
    · rw [Function.update_of_ne heq] at hlive ⊢
      exact hs.record h' hlive
  unkept := hs.unkept
  made := hs.made
  default := hs.default

theorem KeyState.Inv.release (hs : s.Inv) (h : ℕ) :
    KeyState.Inv { s with held := Function.update s.held h CReserveKey.empty } :=
  hs.hold h CReserveKey.empty (fun hne => absurd rfl hne) (fun hne => absurd rfl hne)
    fun hne => absurd rfl hne

/-- Erasing a record whose index no reservation holds, its key being kept. -/
theorem KeyState.Inv.keep (hs : s.Inv) {i : ℤ} {keys : List ℕ}
    (hapart : ∀ h, (s.held h).nIndex ≠ -1 → (s.held h).nIndex ≠ i)
    (houtside : i ∉ s.wallet.setKeyPool) (hkeys : ∀ key ∈ keys, s.wallet.pool i = some key) :
    KeyState.Inv { s with wallet := s.wallet.keepKey i, kept := keys ++ s.kept } := by
  have hpool : ∀ j key, (s.wallet.keepKey i).pool j = some key → j ≠ i ∧ s.wallet.pool j = some key := by
    intro j key hj
    by_cases heq : j = i
    · rw [heq, CWallet.keepKey_pool, Function.update_self] at hj
      cases hj
    · rw [CWallet.keepKey_pool, Function.update_of_ne heq] at hj
      exact ⟨heq, hj⟩
  refine {
    sound := ⟨?_, fun j key hj => hs.sound.known j key (hpool j key hj).2, fun j j' key hj hj' => hs.sound.distinct j j' key (hpool j key hj).2 (hpool j' key hj').2,
      fun j key hj => hs.sound.made j key (hpool j key hj).2,
      fun key hkey => ⟨(hs.sound.default key hkey).1,
        fun j hj => (hs.sound.default key hkey).2 j (hpool j key hj).2⟩⟩
    outside := hs.outside
    distinct := hs.distinct
    record := by
      intro h hlive
      rw [CWallet.keepKey_pool, Function.update_of_ne (hapart h hlive)]
      exact hs.record h hlive
    unkept := by
      intro j key hj hmem
      obtain ⟨hne,hold⟩ := hpool j key hj
      rcases List.mem_append.mp hmem with hnew | hmem
      · exact hne (hs.sound.distinct j i key hold (hkeys key hnew))
      · exact hs.unkept j key hold hmem
    made := by
      intro key hmem
      rcases List.mem_append.mp hmem with hnew | hmem
      · exact hs.sound.made i key (hkeys key hnew)
      · exact hs.made key hmem
    default := by
      intro key hkey hmem
      rcases List.mem_append.mp hmem with hnew | hmem
      · exact (hs.sound.default key hkey).2 i (hkeys key hnew)
      · exact hs.default key hkey hmem }
  intro j hj
  have hne : j ≠ i := fun heq => houtside (heq ▸ hj)
  rw [CWallet.keepKey_pool, Function.update_of_ne hne]
  exact hs.sound.present j hj

theorem KeyState.Inv.giveBack (hs : s.Inv) {i : ℤ} (hrecord : ∃ key, s.wallet.pool i = some key)
    (hapart : ∀ h, (s.held h).nIndex ≠ -1 → (s.held h).nIndex ≠ i) :
    KeyState.Inv { s with wallet := s.wallet.returnKey i } :=
  { hs with
    sound := { hs.sound with
      present := by
        intro j hj
        rcases Finset.mem_insert.mp hj with rfl | hj
        · exact hrecord
        · exact hs.sound.present j hj }
    outside := by
      intro h hlive hmem
      rcases Finset.mem_insert.mp hmem with heq | hmem
      · exact hapart h hlive heq
      · exact hs.outside h hlive hmem }

/-- Locking changes neither the pool nor the reservations. -/
theorem KeyState.Inv.setLocked (hs : s.Inv) (fLocked : Bool) :
    KeyState.Inv { s with wallet := { s.wallet with fLocked := fLocked } } :=
  { hs with sound := { hs.sound with } }

theorem KeyState.Inv.generate (hs : s.Inv) :
    KeyState.Inv { s with wallet := s.wallet.generateNewKey } :=
  { hs with
    sound := { hs.sound with
      known := fun i key hi => Finset.mem_insert_of_mem (hs.sound.known i key hi)
      made := fun i key hi => Nat.lt_succ_of_lt (hs.sound.made i key hi)
      default := fun key hkey =>
        ⟨Nat.lt_succ_of_lt (hs.sound.default key hkey).1, (hs.sound.default key hkey).2⟩ }
    made := fun key hkey => Nat.lt_succ_of_lt (hs.made key hkey) }

end Invariant

section Steps
variable {s : KeyState} {nTargetSize : ℕ}

/-- What a call must do: keep the invariant and hand out no key that was kept. -/
def StepOk (s : KeyState) (step : Option ℕ × KeyState) : Prop :=
  step.2.Inv ∧ ∀ key, step.1 = some key → key ∉ s.kept

theorem KeyState.Inv.exec_reserve (hs : s.Inv) {h : ℕ} (hfree : (s.held h).nIndex = -1)
    (hapart : s.RefillApart nTargetSize) : StepOk s ((KeyOp.reserve h).exec nTargetSize s) := by
  obtain ⟨hinv,hreturns,houtside,hdistinct,hrecord⟩ := hs.reserve hapart
  rw [KeyOp.exec, if_pos hfree]
  dsimp only
  generalize (s.wallet.reserveKeyFromKeyPool nTargetSize).1 = out at hreturns houtside hdistinct hrecord ⊢
  generalize (s.wallet.reserveKeyFromKeyPool nTargetSize).2 = w at hinv houtside hrecord ⊢
  rw [hreturns]
  refine ⟨?_, ?_⟩
  · apply hinv.hold h
    · exact houtside
    · intro hlive h' _ heq
      exact hdistinct h' (heq ▸ hlive) heq
    · intro hlive
      obtain ⟨key,hkey,hpool⟩ := hrecord hlive
      exact ⟨key, by rw [if_neg (by simpa using hlive)]; exact hkey, hpool⟩
  · intro key hkey
    dsimp only at hkey
    by_cases hnone : out.nIndex = -1
    · rw [if_pos (Or.inr hnone)] at hkey
      cases hkey
    · obtain ⟨key',hkey',hpool⟩ := hrecord hnone
      rw [if_neg (by simpa using hnone), hkey'] at hkey
      rw [← Option.some.inj hkey]
      exact hinv.unkept _ key' hpool

theorem KeyState.Inv.exec_getReservedKey (hs : s.Inv) {h : ℕ}
    (hapart : (s.held h).nIndex = -1 → s.RefillApart nTargetSize) :
    StepOk s ((KeyOp.getReservedKey h).exec nTargetSize s) := by
  rw [KeyOp.exec, CReserveKey.getReservedKey]
  by_cases hfree : (s.held h).nIndex = -1
  · obtain ⟨hinv,hreturns,houtside,hdistinct,hrecord⟩ := hs.reserve (hapart hfree)
    rw [if_pos hfree]
    dsimp only
    generalize (s.wallet.reserveKeyFromKeyPool nTargetSize).1 = out at hreturns houtside hdistinct hrecord ⊢
    generalize (s.wallet.reserveKeyFromKeyPool nTargetSize).2 = w at hinv houtside hrecord ⊢
    have hempty : ∀ key, KeyState.Inv { s with wallet := w, held := Function.update s.held h ⟨-1,key⟩ } :=
      fun key => hinv.hold h ⟨-1,key⟩ (fun hne => absurd rfl hne) (fun hne => absurd rfl hne)
        fun hne => absurd rfl hne
    rw [hreturns, if_neg Bool.false_ne_true]
    split_ifs with hindex
    · obtain ⟨key,hkey,hpool⟩ := hrecord hindex
      refine ⟨?_, ?_⟩
      · apply hinv.hold h
        · exact houtside
        · intro hlive h' _ heq
          exact hdistinct h' (heq ▸ hlive) heq
        · exact fun _ => ⟨key, hkey, hpool⟩
      · intro key' hkey'
        rw [hkey] at hkey'
        rw [← Option.some.inj hkey']
        exact hinv.unkept _ key hpool
    · cases hdefault : w.vchDefaultKey with
      | none => exact ⟨hempty _, fun key hkey => by cases hkey⟩
      | some key =>
        refine ⟨hempty _, ?_⟩
        intro key' hkey
        rw [← Option.some.inj hkey]
        exact hinv.default key hdefault
  · rw [if_neg hfree]
    dsimp only
    rw [Function.update_eq_self]
    refine ⟨hs, ?_⟩
    intro key hkey
    obtain ⟨key',hkey',hpool⟩ := hs.record h hfree
    rw [hkey'] at hkey
    rw [← Option.some.inj hkey]
    exact hs.unkept _ key' hpool

theorem KeyState.Inv.exec_keepKey (hs : s.Inv) (h : ℕ) :
    StepOk s ((KeyOp.keepKey h).exec nTargetSize s) := by
  refine ⟨?_, fun key hkey => by cases hkey⟩
  rw [KeyOp.exec, CReserveKey.keepKey]
  dsimp only
  split_ifs with hlive
  · obtain ⟨key,hkey,hpool⟩ := hs.record h hlive
    rw [hkey]
    apply (hs.release h).keep
    · intro h' hlive'
      dsimp only at hlive' ⊢
      by_cases heq : h' = h
      · rw [heq, Function.update_self] at hlive'
        exact absurd rfl hlive'
      · rw [Function.update_of_ne heq] at hlive' ⊢
        exact hs.distinct h' h heq hlive'
    · exact hs.outside h hlive
    · intro key' hmem
      rw [List.mem_singleton.mp hmem]
      exact hpool
  · exact hs.release h

theorem KeyState.Inv.exec_returnKey (hs : s.Inv) (h : ℕ) :
    StepOk s ((KeyOp.returnKey h).exec nTargetSize s) := by
  refine ⟨?_, fun key hkey => by cases hkey⟩
  rw [KeyOp.exec, CReserveKey.returnKey]
  dsimp only
  split_ifs with hlive
  · obtain ⟨key,-,hpool⟩ := hs.record h hlive
    apply (hs.release h).giveBack ⟨key, hpool⟩
    intro h' hlive'
    dsimp only at hlive' ⊢
    by_cases heq : h' = h
    · rw [heq, Function.update_self] at hlive'
      exact absurd rfl hlive'
    · rw [Function.update_of_ne heq] at hlive' ⊢
      exact hs.distinct h' h heq hlive'
  · exact hs.release h

theorem KeyState.Inv.exec_getKeyFromPool (hs : s.Inv) (hapart : s.RefillApart nTargetSize)
    (fAllowReuse : Bool) : StepOk s ((KeyOp.getKeyFromPool fAllowReuse).exec nTargetSize s) := by
  obtain ⟨hinv,hreturns,houtside,hdistinct,hrecord⟩ := hs.reserve hapart
  rw [KeyOp.exec, CWallet.getKeyFromPool]
  dsimp only
  generalize (s.wallet.reserveKeyFromKeyPool nTargetSize).1 = out at hreturns houtside hdistinct hrecord ⊢
  generalize (s.wallet.reserveKeyFromKeyPool nTargetSize).2 = w at hinv houtside hrecord ⊢
  rw [hreturns, if_neg Bool.false_ne_true]
  by_cases hindex : out.nIndex = -1
  · rw [if_pos hindex]
    have hnew : StepOk s ((if w.fLocked then none else some w.nKeys),
        { s with wallet := if w.fLocked then w else w.generateNewKey }) := by
      split_ifs
      · exact ⟨hinv, fun key hkey => by cases hkey⟩
      · refine ⟨hinv.generate, ?_⟩
        intro key hkey hmem
        rw [← Option.some.inj hkey] at hmem
        exact absurd (hinv.made _ hmem) (lt_irrefl _)
    cases fAllowReuse with
    | false =>
      dsimp only
      split_ifs at hnew ⊢
      · exact hnew
      · exact hnew
    | true =>
      cases hdefault : w.vchDefaultKey with
      | none =>
        dsimp only
        split_ifs at hnew ⊢
        · exact hnew
        · exact hnew
      | some key =>
        refine ⟨hinv, ?_⟩
        intro key' hkey
        rw [← Option.some.inj hkey]
        exact hinv.default key hdefault
  · obtain ⟨key,hkey,hpool⟩ := hrecord hindex
    rw [if_neg hindex, hkey]
    refine ⟨?_, ?_⟩
    · apply hinv.keep hdistinct (houtside hindex)
      intro key' hmem
      rw [List.mem_singleton.mp hmem]
      exact hpool
    · intro key' hkey'
      rw [← Option.some.inj hkey']
      exact hinv.unkept _ key hpool

/-- One call whose refill, if it makes one, stays apart from the reservations. -/
theorem KeyState.Inv.exec (hs : s.Inv) (op : KeyOp)
    (hapart : op.Refills s → s.RefillApart nTargetSize) : StepOk s (op.exec nTargetSize s) := by
  cases op with
  | topUpKeyPool => exact ⟨hs.topUp (hapart trivial), fun key hkey => by cases hkey⟩
  | reserve h =>
    by_cases hfree : (s.held h).nIndex = -1
    · exact hs.exec_reserve hfree (hapart hfree)
    · rw [KeyOp.exec, if_neg hfree]
      exact ⟨hs, fun key hkey => by cases hkey⟩
  | getReservedKey h => exact hs.exec_getReservedKey hapart
  | keepKey h => exact hs.exec_keepKey h
  | returnKey h => exact hs.exec_returnKey h
  | getKeyFromPool fAllowReuse => exact hs.exec_getKeyFromPool (hapart trivial) fAllowReuse
  | setLocked fLocked => exact ⟨hs.setLocked fLocked, fun key hkey => by cases hkey⟩

theorem KeyState.Inv.start {w : CWallet} (hw : w.Sound) : (KeyState.start w).Inv where
  sound := hw
  outside := fun h hlive => absurd rfl hlive
  distinct := fun h h' _ hlive => absurd rfl hlive
  record := fun h hlive => absurd rfl hlive
  unkept := fun i key _ hmem => by cases hmem
  made := fun key hmem => by cases hmem
  default := fun key _ hmem => by cases hmem

end Steps

section Samples

/-- A wallet without keys. -/
def emptyWallet : CWallet := ⟨∅, fun _ => none, false, none, ∅, 0⟩

end Samples

end Candypool.Wallet
