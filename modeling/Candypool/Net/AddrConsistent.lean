import Candypool.Net.AddrCheck
import Candypool.Lib.RandomOrder
import Mathlib.Algebra.BigOperators.Fin

/-! The invariant of the address manager, and the operations inside its calls. -/
namespace Candypool.Net

/-- The address and the place of an entry. -/
def CAddrInfo.pos (info : CAddrInfo) : CNetAddr × ℤ := (info.ip,info.nRandomPos)

/-- The tried bucket where an entry belongs, if it was tried, and its references. -/
def CAddrInfo.role (env : AddrEnv) (nKey : List UInt8) (info : CAddrInfo) : Option TriedBucket × ℤ :=
  (if info.fInTried then some (env.getTriedBucket nKey info.toCService) else none, info.nRefCount)

structure CAddrInfo.Timed (info : CAddrInfo) : Prop where
  tried : info.fInTried = true → info.nLastSuccess ≠ 0
  nLastTry : 0 ≤ info.nLastTry.toInt
  nLastSuccess : 0 ≤ info.nLastSuccess.toInt

/-- An entry apart from its place. -/
def CAddrInfo.unplaced (info : CAddrInfo) : CAddrInfo := { info with nRandomPos := 0 }

def triedCount (vvTried : TriedBucket → List ℤ) : ℕ := ∑ b, (vvTried b).length

namespace CAddrMan

def pos (am : CAddrMan) (n : ℤ) : Option (CNetAddr × ℤ) := (am.info? n).map CAddrInfo.pos

def role (env : AddrEnv) (am : CAddrMan) (n : ℤ) : Option (Option TriedBucket × ℤ) :=
  (am.info? n).map (CAddrInfo.role env am.nKey)

/-- The six containers agree, but for one reference of `pending`. -/
structure Consistent (env : AddrEnv) (pending : Option ℤ) (am : CAddrMan) : Prop where
  nIdCount : 0 ≤ am.nIdCount
  fresh : ∀ n info, am.info? n = some info → 0 ≤ n ∧ n < am.nIdCount
  indexed : Lib.Indexed am.pos am.mapAddr am.vRandom
  placed : Placed pending (am.role env) am.vvTried am.vvNew
  nTried : am.nTried = triedCount am.vvTried
  nNew : am.nTried+am.nNew = am.vRandom.length
  triedSize : ∀ b, (am.vvTried b).length ≤ addrmanTriedBucketSize
  newSize : ∀ b, (am.vvNew b).card ≤ addrmanNewBucketSize
  timed : ∀ n info, am.info? n = some info → info.Timed

variable {env : AddrEnv} {pending : Option ℤ} {am : CAddrMan}

section Entries

theorem info?_setInfo (am : CAddrMan) (n : ℤ) (info : CAddrInfo) :
    (am.setInfo n info).info? = Function.update am.info? n (some info) := by
  funext m
  by_cases hm : m = n
  · rw [hm, Function.update_self]
    exact AList.lookup_insert _
  · rw [Function.update_of_ne hm]
    exact AList.lookup_insert_ne hm

theorem map_update {α : Type} (f : CAddrInfo → α) (entries : ℤ → Option CAddrInfo) (n : ℤ)
    (e : Option CAddrInfo) : (fun m => (Function.update entries n e m).map f) =
      Function.update (fun m => (entries m).map f) n (e.map f) := by
  funext m
  by_cases hm : m = n
  · rw [hm, Function.update_self, Function.update_self]
  · rw [Function.update_of_ne hm, Function.update_of_ne hm]

section Update
variable {am' : CAddrMan} {n : ℤ} {info : CAddrInfo}

theorem pos_of_update (hinfos : am'.info? = Function.update am.info? n (some info)) :
    am'.pos = Function.update am.pos n (some info.pos) := by
  have hmap := map_update CAddrInfo.pos am.info? n (some info)
  rw [← hinfos] at hmap
  exact hmap

theorem role_of_update (hkey : am'.nKey = am.nKey)
    (hinfos : am'.info? = Function.update am.info? n (some info)) :
    am'.role env = Function.update (am.role env) n (some (info.role env am.nKey)) := by
  have hrole : am'.role env = fun m => (am'.info? m).map (CAddrInfo.role env am.nKey) := by
    funext m
    rw [role, hkey]
  rw [hrole, hinfos]
  exact map_update _ _ _ _

theorem timed_of_update (hinfos : am'.info? = Function.update am.info? n (some info))
    (htimed : info.Timed) (h : ∀ m infom, am.info? m = some infom → infom.Timed) (m : ℤ)
    (infom : CAddrInfo) (hm : am'.info? m = some infom) : infom.Timed := by
  rw [hinfos] at hm
  by_cases hmn : m = n
  · rw [hmn, Function.update_self] at hm
    rw [← Option.some.inj hm]
    exact htimed
  · rw [Function.update_of_ne hmn] at hm
    exact h m infom hm

end Update

theorem pos_setInfo (am : CAddrMan) (n : ℤ) (info : CAddrInfo) :
    (am.setInfo n info).pos = Function.update am.pos n (some info.pos) :=
  pos_of_update (info?_setInfo am n info)

theorem role_setInfo (am : CAddrMan) (n : ℤ) (info : CAddrInfo) :
    (am.setInfo n info).role env =
      Function.update (am.role env) n (some (info.role env am.nKey)) :=
  role_of_update rfl (info?_setInfo am n info)

theorem pos_eq {n : ℤ} {info : CAddrInfo} (h : am.info? n = some info) : am.pos n = some info.pos := by
  rw [pos, h]
  rfl

theorem role_eq {n : ℤ} {info : CAddrInfo} (h : am.info? n = some info) :
    am.role env n = some (info.role env am.nKey) := by
  rw [role, h]
  rfl

/-- An entry with a known role. -/
theorem info_of_role {n : ℤ} {e : Option TriedBucket × ℤ} (h : am.role env n = some e) :
    ∃ info, am.info? n = some info ∧ info.role env am.nKey = e :=
  Option.map_eq_some_iff.mp h

theorem info_of_pos {n : ℤ} {e : CNetAddr × ℤ} (h : am.pos n = some e) :
    ∃ info, am.info? n = some info ∧ info.pos = e :=
  Option.map_eq_some_iff.mp h

theorem role_new {nKey : List UInt8} {info : CAddrInfo} {refs : ℤ}
    (h : info.role env nKey = (none,refs)) : info.fInTried = false ∧ info.nRefCount = refs := by
  rw [CAddrInfo.role, Prod.mk.injEq] at h
  refine ⟨?_, h.2⟩
  by_contra htried
  rw [if_pos (Bool.not_eq_false _ |>.mp htried)] at h
  cases h.1

theorem role_of_new {nKey : List UInt8} {info : CAddrInfo} (h : info.fInTried = false) :
    info.role env nKey = (none,info.nRefCount) := by
  rw [CAddrInfo.role, if_neg (by rw [h]; exact Bool.false_ne_true)]

/-- The two states have the same ids and the same indexes over them. -/
structure SameIndex (am am' : CAddrMan) : Prop where
  nKey : am'.nKey = am.nKey
  nIdCount : am'.nIdCount = am.nIdCount
  mapAddr : am'.mapAddr = am.mapAddr
  vRandom : am'.vRandom = am.vRandom

/-- Entries get other data at their old places, and the buckets and counts follow. -/
theorem Consistent.rebuild (h : Consistent env pending am) {am' : CAddrMan} (hsame : SameIndex am am')
    (hpos : am'.pos = am.pos) (htimed : ∀ n info, am'.info? n = some info → info.Timed)
    {pending' : Option ℤ} (hplaced : Placed pending' (am'.role env) am'.vvTried am'.vvNew)
    (hnTried : am'.nTried = triedCount am'.vvTried) (hsum : am'.nTried+am'.nNew = am.nTried+am.nNew)
    (htriedSize : ∀ b, (am'.vvTried b).length ≤ addrmanTriedBucketSize)
    (hnewSize : ∀ b, (am'.vvNew b).card ≤ addrmanNewBucketSize) : Consistent env pending' am' where
  nIdCount := by
    rw [hsame.nIdCount]
    exact h.nIdCount
  -- an entry of the new state stands where one of the old state stood
  fresh n info hn := by
    have hp := pos_eq hn
    rw [hpos] at hp
    obtain ⟨info0,hinfo0,-⟩ := info_of_pos hp
    rw [hsame.nIdCount]
    exact h.fresh n info0 hinfo0
  indexed := by
    rw [hpos, hsame.mapAddr, hsame.vRandom]
    exact h.indexed
  placed := hplaced
  nTried := hnTried
  nNew := by
    rw [hsum, hsame.vRandom]
    exact h.nNew
  triedSize := htriedSize
  newSize := hnewSize
  timed := htimed

/-- One entry gets other data, and the buckets follow. -/
theorem Consistent.setInfo (h : Consistent env pending am) {n : ℤ} {info info' : CAddrInfo}
    (hinfo : am.info? n = some info) (hpos : info'.pos = info.pos) (htimed : info'.Timed)
    {pending' : Option ℤ} (hplaced : Placed pending'
      (Function.update (am.role env) n (some (info'.role env am.nKey))) am.vvTried am.vvNew) :
    Consistent env pending' (am.setInfo n info') := by
  have hsame : SameIndex am (am.setInfo n info') := ⟨rfl, rfl, rfl, rfl⟩
  apply h.rebuild hsame
  · rw [pos_setInfo, hpos, ← pos_eq hinfo, Function.update_eq_self]
  · exact timed_of_update (info?_setInfo am n info') htimed h.timed
  · rw [role_setInfo]
    exact hplaced
  · exact h.nTried
  · rfl
  · exact h.triedSize
  · exact h.newSize

/-- The same where the entry keeps its role. -/
theorem Consistent.setInfo_same (h : Consistent env pending am) {n : ℤ} {info info' : CAddrInfo}
    (hinfo : am.info? n = some info) (hpos : info'.pos = info.pos) (htimed : info'.Timed)
    (hrole : info'.role env am.nKey = info.role env am.nKey) :
    Consistent env pending (am.setInfo n info') := by
  apply h.setInfo hinfo hpos htimed
  rw [hrole, ← role_eq hinfo, Function.update_eq_self]
  exact h.placed

theorem Consistent.info_of_new (h : Consistent env pending am) {b : NewBucket} {n : ℤ}
    (hn : n ∈ am.vvNew b) : ∃ info, am.info? n = some info ∧ info.fInTried = false := by
  obtain ⟨refs,hrefs⟩ := h.placed.new b n hn
  obtain ⟨info,hinfo,hrole⟩ := info_of_role hrefs
  exact ⟨info, hinfo, (role_new hrole).1⟩

theorem Consistent.info_of_tried (h : Consistent env pending am) {b : TriedBucket} {n : ℤ}
    (hn : n ∈ am.vvTried b) : ∃ info, am.info? n = some info := by
  obtain ⟨refs,hrefs⟩ := (h.placed.tried b n).mp hn
  obtain ⟨info,hinfo,-⟩ := info_of_role hrefs
  exact ⟨info, hinfo⟩

end Entries

theorem empty_consistent (env : AddrEnv) (nKey : List UInt8) : Consistent env none (empty nKey) where
  nIdCount := le_refl 0
  fresh n info h := by cases h
  indexed := Lib.Indexed.empty
  placed := Placed.empty
  nTried := by
    rw [triedCount]
    exact (Nat.cast_eq_zero.mpr (Finset.sum_const_zero)).symm
  nNew := rfl
  triedSize b := Nat.zero_le _
  newSize b := by
    change (∅ : Finset ℤ).card ≤ _
    rw [Finset.card_empty]
    exact Nat.zero_le _
  timed n info h := by cases h

section Random

theorem at?_natCast {α : Type} (v : List α) (i : ℕ) : at? v i = v[i]? := by
  rw [at?, if_pos (Int.natCast_nonneg i), Int.toNat_natCast]

/-- Only the random order differs. -/
structure Reordered (am am' : CAddrMan) : Prop where
  nKey : am'.nKey = am.nKey
  nIdCount : am'.nIdCount = am.nIdCount
  entries : ∀ n, (am'.info? n).map CAddrInfo.unplaced = (am.info? n).map CAddrInfo.unplaced
  mapAddr : am'.mapAddr = am.mapAddr
  length : am'.vRandom.length = am.vRandom.length
  nTried : am'.nTried = am.nTried
  vvTried : am'.vvTried = am.vvTried
  nNew : am'.nNew = am.nNew
  vvNew : am'.vvNew = am.vvNew

theorem Reordered.refl (am : CAddrMan) : Reordered am am :=
  ⟨rfl, rfl, fun _ => rfl, rfl, rfl, rfl, rfl, rfl, rfl⟩

theorem Reordered.info {am' : CAddrMan} (h : Reordered am am') {n : ℤ} {info' : CAddrInfo}
    (hinfo : am'.info? n = some info') :
    ∃ info, am.info? n = some info ∧ info.unplaced = info'.unplaced := by
  have hn := h.entries n
  rw [hinfo] at hn
  exact Option.map_eq_some_iff.mp hn.symm

theorem Reordered.role {am' : CAddrMan} (h : Reordered am am') : am'.role env = am.role env := by
  funext n
  have hfactor (nKey : List UInt8) : CAddrInfo.role env nKey = CAddrInfo.role env nKey ∘
      CAddrInfo.unplaced := rfl
  rw [CAddrMan.role, CAddrMan.role, h.nKey, hfactor, ← Option.map_map, ← Option.map_map, h.entries n]

theorem timed_of_unplaced {info info' : CAddrInfo} (h : info.unplaced = info'.unplaced)
    (ht : info.Timed) : info'.Timed := by
  have hback (i : CAddrInfo) : i.Timed ↔ i.unplaced.Timed :=
    ⟨fun h => ⟨h.tried, h.nLastTry, h.nLastSuccess⟩, fun h => ⟨h.tried, h.nLastTry, h.nLastSuccess⟩⟩
  rw [hback, ← h, ← hback]
  exact ht

theorem Reordered.consistent {am' : CAddrMan} (h : Reordered am am') (hc : Consistent env pending am)
    (hindexed : Lib.Indexed am'.pos am'.mapAddr am'.vRandom) : Consistent env pending am' where
  nIdCount := by
    rw [h.nIdCount]
    exact hc.nIdCount
  fresh n info' hinfo := by
    obtain ⟨info,hold,-⟩ := h.info hinfo
    rw [h.nIdCount]
    exact hc.fresh n info hold
  indexed := hindexed
  placed := by
    rw [h.role, h.vvTried, h.vvNew]
    exact hc.placed
  nTried := by
    rw [h.nTried, h.vvTried]
    exact hc.nTried
  nNew := by
    rw [h.nTried, h.nNew, h.length]
    exact hc.nNew
  triedSize := by
    rw [h.vvTried]
    exact hc.triedSize
  newSize := by
    rw [h.vvNew]
    exact hc.newSize
  timed n info' hinfo := by
    obtain ⟨info,hold,heq⟩ := h.info hinfo
    exact timed_of_unplaced heq (hc.timed n info hold)

/-- `SwapRandom` meets its assertions; the entry at the first place goes to the second one. -/
theorem swapRandom_spec (h : Lib.Indexed am.pos am.mapAddr am.vRandom) {i j : ℕ}
    (hi : i < am.vRandom.length) (hj : j < am.vRandom.length) :
    ∃ am', am.swapRandom i j = some am' ∧ Reordered am am' ∧
      Lib.Indexed am'.pos am'.mapAddr am'.vRandom ∧
      ∀ n a, am.pos n = some (a,(i : ℤ)) → am'.pos n = some (a,(j : ℤ)) := by
  -- with the two places equal the swap is no step, and the entry must not be moved twice
  by_cases hij : i = j
  · refine ⟨am, ?_, Reordered.refl am, h, fun n a hn => ?_⟩
    · rw [swapRandom, if_pos (by rw [hij])]
    · rw [← hij]
      exact hn
  have hi' := List.getElem?_eq_getElem hi
  have hj' := List.getElem?_eq_getElem hj
  generalize am.vRandom[i] = n at hi'
  generalize am.vRandom[j] = m at hj'
  obtain ⟨a,hna⟩ := h.entry i n hi'
  obtain ⟨b,hmb⟩ := h.entry j m hj'
  obtain ⟨info1,hinfo1,hpos1⟩ := info_of_pos hna
  obtain ⟨info2,hinfo2,hpos2⟩ := info_of_pos hmb
  have hip1 : info1.ip = a := (Prod.mk.inj hpos1).1
  have hip2 : info2.ip = b := (Prod.mk.inj hpos2).1
  -- the two entries differ, since one entry has one place
  have hnm : n ≠ m := by
    rintro rfl
    have hplace : (i : ℤ) = j := (Prod.mk.inj (Option.some.inj (hna.symm.trans hmb))).2
    omega
  let am1 := (am.setInfo n { info1 with nRandomPos := j }).setInfo m { info2 with nRandomPos := i }
  have hpos : am1.pos =
      Function.update (Function.update am.pos n (some (a,(j : ℤ)))) m (some (b,(i : ℤ))) := by
    rw [pos_setInfo, pos_setInfo, ← hip1, ← hip2]
    rfl
  refine ⟨{ am1 with vRandom := (am.vRandom.set i m).set j n }, ?_, ?_, ?_, fun k c hk => ?_⟩
  · rw [swapRandom, if_neg (by omega), at?_natCast, at?_natCast, hi', hj']
    simp only [Option.bind_eq_bind, Option.bind_some, hinfo1, hinfo2]
    rfl
  -- only the places of the two entries changed
  · refine ⟨rfl, rfl, fun k => ?_, rfl, ?_, rfl, rfl, rfl, rfl⟩
    · change (am1.info? k).map _ = _
      rw [info?_setInfo, info?_setInfo]
      by_cases hkm : k = m
      · rw [hkm, Function.update_self, hinfo2]
        rfl
      · rw [Function.update_of_ne hkm]
        by_cases hkn : k = n
        · rw [hkn, Function.update_self, hinfo1]
          rfl
        · rw [Function.update_of_ne hkn]
    · change ((am.vRandom.set i m).set j n).length = _
      rw [List.length_set, List.length_set]
  · change Lib.Indexed am1.pos am.mapAddr ((am.vRandom.set i m).set j n)
    rw [hpos]
    exact h.swap hij hi' hj' hna hmb
  -- the entry that stood at `i` is `n`, and `n` now says `j`
  · change am1.pos k = _
    obtain ⟨l,hl,hget⟩ := h.place k c _ hk
    have hli : l = i := by omega
    rw [hli, hi'] at hget
    obtain rfl := Option.some.inj hget
    have hc : c = a := (Prod.mk.inj (Option.some.inj (hk.symm.trans hna))).1
    rw [hpos, Function.update_of_ne hnm, Function.update_self, hc]

end Random

section Shrink

theorem info?_erase (am : CAddrMan) (n : ℤ) (m : ℤ) :
    (am.mapInfo.erase n).lookup m = Function.update am.info? n none m := by
  by_cases hm : m = n
  · rw [hm, Function.update_self]
    exact AList.lookup_erase n am.mapInfo
  · rw [Function.update_of_ne hm]
    exact AList.lookup_erase_ne hm

theorem card_update_le {vvNew : NewBucket → Finset ℤ} {b : NewBucket} {s : Finset ℤ} {k : ℕ}
    (h : ∀ c, (vvNew c).card ≤ k) (hs : s.card ≤ k) (c : NewBucket) :
    (Function.update vvNew b s c).card ≤ k := by
  by_cases hc : c = b
  · rw [hc, Function.update_self]
    exact hs
  · rw [Function.update_of_ne hc]
    exact h c

/-- An entry loses a reference that is not its last one. -/
theorem Consistent.lessReference (h : Consistent env pending am) {b : NewBucket} {n r : ℤ}
    {info : CAddrInfo} (hn : n ∈ am.vvNew b) (hinfo : am.info? n = some info)
    (hrole : info.role env am.nKey = (none,r)) (hlast : r ≠ 1) (hpending : pending ≠ some n) :
    Consistent env pending { am.setInfo n { info with nRefCount := info.nRefCount-1 } with
      vvNew := Function.update am.vvNew b ((am.vvNew b).erase n) } := by
  obtain ⟨hnew,hrefs⟩ := role_new hrole
  -- more references are left than one, so the entry waits for none and stays
  have hplaced := h.placed.drop hn (by rw [role_eq hinfo, hrole]) hpending
  rw [if_neg hlast] at hplaced
  have ht := h.timed n info hinfo
  let less : CAddrInfo := { info with nRefCount := info.nRefCount-1 }
  have hless : less.role env am.nKey = (none,r-1) := by
    rw [← hrefs]
    exact role_of_new hnew
  have hsame : SameIndex am { am.setInfo n less with
      vvNew := Function.update am.vvNew b ((am.vvNew b).erase n) } := ⟨rfl, rfl, rfl, rfl⟩
  apply h.rebuild hsame
  · change (am.setInfo n less).pos = am.pos
    rw [pos_setInfo, show some less.pos = am.pos n from (pos_eq hinfo).symm, Function.update_eq_self]
  · exact timed_of_update (info?_setInfo am n less) ⟨ht.tried, ht.nLastTry, ht.nLastSuccess⟩ h.timed
  · change Placed pending ((am.setInfo n less).role env) am.vvTried _
    rw [role_setInfo, hless]
    exact hplaced
  · exact h.nTried
  · rfl
  · exact h.triedSize
  · exact card_update_le h.newSize (Finset.card_erase_le.trans (h.newSize b))

/-- An entry that was moved to the end of the random order goes with its last reference. -/
theorem Consistent.removeEntry (h : Consistent env pending am) {b : NewBucket} {n : ℤ}
    {info less : CAddrInfo} (hn : n ∈ am.vvNew b) (hinfo : am.info? n = some info)
    (hrole : info.role env am.nKey = (none,1)) (hpending : pending ≠ some n) {am1 : CAddrMan}
    (hreorder : Reordered (am.setInfo n less) am1)
    (hindexed : Lib.Indexed am1.pos am1.mapAddr am1.vRandom)
    (hend : am1.pos n = some (info.ip,(am1.vRandom.length : ℤ)-1)) :
    Consistent env pending { am1 with
      vRandom := am1.vRandom.dropLast
      mapAddr := Function.update am1.mapAddr info.ip none
      mapInfo := am1.mapInfo.erase n
      nNew := am1.nNew-1
      vvNew := Function.update am1.vvNew b ((am1.vvNew b).erase n) } := by
  have hplaced := h.placed.drop hn (by rw [role_eq hinfo, hrole]) hpending
  rw [if_pos rfl] at hplaced
  generalize ham2 : ({ am1 with
      vRandom := am1.vRandom.dropLast
      mapAddr := Function.update am1.mapAddr info.ip none
      mapInfo := am1.mapInfo.erase n
      nNew := am1.nNew-1
      vvNew := Function.update am1.vvNew b ((am1.vvNew b).erase n) } : CAddrMan) = am2
  have hlen : am1.vRandom.length = am.vRandom.length := hreorder.length
  have hcount : am2.nIdCount = am.nIdCount := ham2 ▸ hreorder.nIdCount
  have hnTried : am2.nTried = am.nTried := ham2 ▸ hreorder.nTried
  have hvvTried : am2.vvTried = am.vvTried := ham2 ▸ hreorder.vvTried
  have hinfos : am2.info? = Function.update am1.info? n none := by
    rw [← ham2]
    funext m
    exact info?_erase am1 n m
  have hpos : am2.pos = Function.update am1.pos n none := by
    have hmap := map_update CAddrInfo.pos am1.info? n none
    rw [← hinfos] at hmap
    exact hmap
  have hroles : am2.role env = Function.update (am.role env) n none := by
    have hmap := map_update (CAddrInfo.role env am1.nKey) am1.info? n none
    rw [← hinfos, show am1.nKey = am2.nKey by rw [← ham2]] at hmap
    change am2.role env = Function.update (fun m => (am1.info? m).map (CAddrInfo.role env am2.nKey)) n
      none at hmap
    rw [hmap, show am2.nKey = am1.nKey by rw [← ham2]]
    change Function.update (am1.role env) n none = _
    rw [hreorder.role, role_setInfo, Function.update_idem]
  -- the other entries are those of `am`, at other places
  have hold (m : ℤ) (info' : CAddrInfo) (hm : am2.info? m = some info') :
      ∃ info0, am.info? m = some info0 ∧ info0.unplaced = info'.unplaced := by
    rw [hinfos] at hm
    by_cases hmn : m = n
    · rw [hmn, Function.update_self] at hm
      cases hm
    · rw [Function.update_of_ne hmn] at hm
      obtain ⟨info0,hinfo0,heq⟩ := hreorder.info hm
      rw [info?_setInfo, Function.update_of_ne hmn] at hinfo0
      exact ⟨info0, hinfo0, heq⟩
  have hvvNew : am2.vvNew = Function.update am.vvNew b ((am.vvNew b).erase n) := by
    rw [← ham2]
    change Function.update am1.vvNew b ((am1.vvNew b).erase n) = _
    rw [hreorder.vvNew]
    rfl
  refine ⟨?_, fun m info' hm => ?_, ?_, ?_, ?_, ?_, ?_, ?_, fun m info' hm => ?_⟩
  · rw [hcount]
    exact h.nIdCount
  · obtain ⟨info0,hinfo0,-⟩ := hold m info' hm
    rw [hcount]
    exact h.fresh m info0 hinfo0
  · rw [hpos, ← ham2]
    exact hindexed.pop hend
  · rw [hroles, hvvNew, hvvTried]
    exact hplaced
  · rw [hnTried, hvvTried]
    exact h.nTried
  · have hsum := h.nNew
    have hpositive : 0 < am1.vRandom.length := by
      obtain ⟨i,hi,hget⟩ := hindexed.place n info.ip _ hend
      exact (List.getElem?_eq_some_iff.mp hget).1.pos
    rw [hnTried, ← ham2]
    change am.nTried+(am1.nNew-1) = ((am1.vRandom.dropLast.length : ℕ) : ℤ)
    rw [List.length_dropLast, show am1.nNew = am.nNew from hreorder.nNew]
    omega
  · rw [hvvTried]
    exact h.triedSize
  · rw [hvvNew]
    exact card_update_le h.newSize (Finset.card_erase_le.trans (h.newSize b))
  · obtain ⟨info0,hinfo0,heq⟩ := hold m info' hm
    exact timed_of_unplaced heq (h.timed m info0 hinfo0)

/-- The last reference of an entry takes the entry with it. -/
theorem dropReference_spec (h : Consistent env pending am) {b : NewBucket} {n : ℤ}
    (hn : n ∈ am.vvNew b) (hpending : pending ≠ some n) :
    ∃ am', am.dropReference b n = some am' ∧ Consistent env pending am' ∧ am'.nKey = am.nKey ∧
      am'.vvNew = Function.update am.vvNew b ((am.vvNew b).erase n) := by
  obtain ⟨r,hr⟩ := h.placed.new b n hn
  obtain ⟨info,hinfo,hrole⟩ := info_of_role hr
  obtain ⟨hnew,hrefs⟩ := role_new hrole
  let less : CAddrInfo := { info with nRefCount := info.nRefCount-1 }
  by_cases hlast : r = 1
  · -- the entry moves to the end of the random order and goes
    let am0 := am.setInfo n less
    have hpos0 : am0.pos = am.pos := by
      rw [pos_setInfo, show some less.pos = am.pos n from (pos_eq hinfo).symm, Function.update_eq_self]
    obtain ⟨i,hi,hget⟩ := h.indexed.place n info.ip info.nRandomPos (pos_eq hinfo)
    have hil : i < am0.vRandom.length := (List.getElem?_eq_some_iff.mp hget).1
    -- the count of references is no part of the place, so the order is still indexed
    have hindexed0 : Lib.Indexed am0.pos am0.mapAddr am0.vRandom := by
      rw [hpos0]
      exact h.indexed
    have hendl : am0.vRandom.length-1 < am0.vRandom.length := by omega
    obtain ⟨am1,hswap,hreorder,hindexed,hmove⟩ := swapRandom_spec hindexed0 hil hendl
    have hcast : ((am0.vRandom.length-1 : ℕ) : ℤ) = (am0.vRandom.length : ℤ)-1 := by omega
    -- after the swap it is the last one, so popping the end takes this entry out
    have hend : am1.pos n = some (info.ip,(am1.vRandom.length : ℤ)-1) := by
      rw [hreorder.length, ← hcast]
      apply hmove
      rw [hpos0, pos_eq hinfo, CAddrInfo.pos, hi]
    rw [hlast] at hrole
    refine ⟨_, ?_, h.removeEntry hn hinfo hrole hpending hreorder hindexed hend, hreorder.nKey, ?_⟩
    · have hzero : info.nRefCount-1 = 0 := by omega
      have hplace : info.nRandomPos = i := hi
      rw [← hplace] at hswap
      rw [dropReference, hinfo]
      simp only [Option.bind_eq_bind, Option.bind_some, if_pos hzero]
      change (am0.swapRandom info.nRandomPos ((am0.vRandom.length : ℤ)-1)).bind _ = _
      rw [← hcast, hswap]
      rfl
    · dsimp only
      rw [hreorder.vvNew]
      rfl
  · refine ⟨_, ?_, h.lessReference hn hinfo hrole hlast hpending, rfl, rfl⟩
    have hnonzero : ¬info.nRefCount-1 = 0 := by omega
    rw [dropReference, hinfo]
    simp only [Option.bind_eq_bind, Option.bind_some, if_neg hnonzero]
    rfl

theorem findTerrible_spec (nNow : ℤ) {vNew : List ℤ}
    (h : ∀ n ∈ vNew, ∃ info, am.info? n = some info) :
    ∃ r, am.findTerrible nNow vNew = some r ∧ ∀ n, r = some n → n ∈ vNew := by
  induction vNew with
  | nil => exact ⟨none, rfl, fun n hn => (by cases hn)⟩
  | cons n vNew ih =>
    -- the first terrible entry is dropped, so the rest is looked at only when this one is not
    obtain ⟨info,hinfo⟩ := h n List.mem_cons_self
    obtain ⟨r,hr,hmem⟩ := ih fun m hm => h m (List.mem_cons_of_mem n hm)
    by_cases hterrible : info.isTerrible nNow = true
    · refine ⟨some n, ?_, fun m hm => ?_⟩
      · rw [findTerrible, hinfo]
        simp only [Option.bind_eq_bind, Option.bind_some, if_pos hterrible]
        rfl
      · rw [← Option.some.inj hm]
        exact List.mem_cons_self
    · refine ⟨r, ?_, fun m hm => List.mem_cons_of_mem n (hmem m hm)⟩
      rw [findTerrible, hinfo]
      simp only [Option.bind_eq_bind, Option.bind_some, if_neg hterrible]
      exact hr

/-- The oldest of the picked entries is found when a picked place is within the bucket. -/
theorem findOldest_spec (am : CAddrMan) (picked : ℕ → Bool) (vNew : List ℤ) (nI : ℕ)
    (nOldest : Option ℤ)
    (h : ∀ n, n ∈ vNew ∨ nOldest = some n → ∃ info, am.info? n = some info) :
    ∃ r, am.findOldest picked vNew nI nOldest = some r ∧
      (∀ n, r = some n → n ∈ vNew ∨ nOldest = some n) ∧
      (nOldest.isSome = true ∨ (∃ k < vNew.length, picked (nI+k) = true) → r.isSome = true) := by
  induction vNew generalizing nI nOldest with
  | nil =>
    refine ⟨nOldest, rfl, fun n hn => Or.inr hn, fun hsome => ?_⟩
    rcases hsome with hsome | ⟨k,hk,-⟩
    · exact hsome
    · exact absurd hk (Nat.not_lt_zero k)
  | cons n vNew ih =>
    -- the loop goes on with some entry kept, the old one or the new one
    have hgo (kept : ℤ) (hkept : kept = n ∨ nOldest = some kept) :
        ∃ r, am.findOldest picked vNew (nI+1) (some kept) = some r ∧
          (∀ m, r = some m → m ∈ n :: vNew ∨ nOldest = some m) ∧ r.isSome = true := by
      obtain ⟨r,hr,hmem,hsome⟩ := ih (nI+1) (some kept) fun m hm => by
        rcases hm with hm | hm
        · exact h m (Or.inl (List.mem_cons_of_mem n hm))
        · obtain rfl := Option.some.inj hm
          rcases hkept with rfl | hkept
          · exact h _ (Or.inl List.mem_cons_self)
          · exact h _ (Or.inr hkept)
      refine ⟨r, hr, fun m hm => ?_, hsome (Or.inl rfl)⟩
      rcases hmem m hm with hm | hm
      · exact Or.inl (List.mem_cons_of_mem n hm)
      · obtain rfl := Option.some.inj hm
        rcases hkept with rfl | hkept
        · exact Or.inl List.mem_cons_self
        · exact Or.inr hkept
    by_cases hpicked : picked nI = true
    · cases nOldest with
      | none =>
        obtain ⟨r,hr,hmem,hsome⟩ := hgo n (Or.inl rfl)
        refine ⟨r, ?_, hmem, fun _ => hsome⟩
        rw [findOldest, if_pos hpicked]
        exact hr
      | some oldest =>
        obtain ⟨info,hinfo⟩ := h n (Or.inl List.mem_cons_self)
        obtain ⟨infoOldest,hinfoOldest⟩ := h oldest (Or.inr rfl)
        obtain ⟨r,hr,hmem,hsome⟩ := hgo (if info.nTime < infoOldest.nTime then n else oldest) (by
          split_ifs
          · exact Or.inl rfl
          · exact Or.inr rfl)
        refine ⟨r, ?_, hmem, fun _ => hsome⟩
        rw [findOldest, if_pos hpicked]
        simp only [Option.bind_eq_bind, hinfo, hinfoOldest, Option.bind_some]
        exact hr
    · obtain ⟨r,hr,hmem,hsome⟩ := ih (nI+1) nOldest fun m hm => by
        rcases hm with hm | hm
        · exact h m (Or.inl (List.mem_cons_of_mem n hm))
        · exact h m (Or.inr hm)
      refine ⟨r, ?_, fun m hm => ?_, fun hold => ?_⟩
      · unfold findOldest
        rw [if_neg hpicked]
        exact hr
      · rcases hmem m hm with hm | hm
        · exact Or.inl (List.mem_cons_of_mem n hm)
        · exact Or.inr hm
      · apply hsome
        rcases hold with hold | ⟨k,hk,hp⟩
        · exact Or.inl hold
        · cases k with
          | zero => exact absurd hp hpicked
          | succ k =>
            refine Or.inr ⟨k, Nat.lt_of_succ_lt_succ hk, ?_⟩
            rw [show nI+1+k = nI+(k+1) by omega]
            exact hp

/-- `ShrinkNew` takes one entry out of the bucket. -/
theorem shrinkNew_spec (h : Consistent env pending am) {b : NewBucket} (nNow : ℤ) (rand : ℕ → ℕ)
    (hne : 0 < (am.vvNew b).card) (hpending : ∀ n, pending = some n → n ∉ am.vvNew b) :
    ∃ am', am.shrinkNew nNow rand b = some am' ∧ Consistent env pending am' ∧ am'.nKey = am.nKey ∧
      ∃ n ∈ am.vvNew b, am'.vvNew = Function.update am.vvNew b ((am.vvNew b).erase n) := by
  -- each identifier of a bucket has its entry, so no lookup fails
  have hentry : ∀ n ∈ (am.vvNew b).sort (· ≤ ·), ∃ info, am.info? n = some info := by
    intro n hn
    obtain ⟨info,hinfo,-⟩ := h.info_of_new ((Finset.mem_sort _).mp hn)
    exact ⟨info, hinfo⟩
  -- whichever entry of the bucket is chosen, it can be dropped
  have hdrop (n : ℤ) (hn : n ∈ (am.vvNew b).sort (· ≤ ·)) : ∃ am', am.dropReference b n = some am' ∧
      Consistent env pending am' ∧ am'.nKey = am.nKey ∧
      ∃ n ∈ am.vvNew b, am'.vvNew = Function.update am.vvNew b ((am.vvNew b).erase n) := by
    have hmem := (Finset.mem_sort _).mp hn
    obtain ⟨am',hdrop,hc,hkey,hvv⟩ := dropReference_spec h hmem fun heq => hpending n heq hmem
    exact ⟨am', hdrop, hc, hkey, n, hmem, hvv⟩
  obtain ⟨terrible,hterrible,hmem⟩ := findTerrible_spec nNow hentry
  cases terrible with
  | some n =>
    obtain ⟨am',ham',hspec⟩ := hdrop n (hmem n rfl)
    refine ⟨am', ?_, hspec⟩
    rw [shrinkNew, hterrible]
    exact ham'
  | none =>
    have hlen : ((am.vvNew b).sort (· ≤ ·)).length = (am.vvNew b).card := Finset.length_sort _
    obtain ⟨oldest,holdest,holdMem,hsome⟩ := findOldest_spec am
      (fun nI => (List.range 4).any fun i => nI == rand i % ((am.vvNew b).sort (· ≤ ·)).length)
      ((am.vvNew b).sort (· ≤ ·)) 0 none fun n hn => by
        rcases hn with hn | hn
        · exact hentry n hn
        · cases hn
    -- the bucket is not empty, so one of the four draws hits a place of it
    have hfound : oldest.isSome = true := by
      apply hsome
      right
      refine ⟨rand 0 % ((am.vvNew b).sort (· ≤ ·)).length, Nat.mod_lt _ (by omega), ?_⟩
      rw [List.any_eq_true]
      exact ⟨0, List.mem_range.mpr (by decide), by rw [Nat.zero_add]; exact beq_self_eq_true _⟩
    obtain ⟨n,rfl⟩ := Option.isSome_iff_exists.mp hfound
    have hn : n ∈ (am.vvNew b).sort (· ≤ ·) := by
      rcases holdMem n rfl with hn | hn
      · exact hn
      · cases hn
    obtain ⟨am',ham',hspec⟩ := hdrop n hn
    refine ⟨am', ?_, hspec⟩
    rw [shrinkNew, hterrible]
    simp only [Option.bind_eq_bind, Option.bind_some, holdest]
    exact ham'

end Shrink

end CAddrMan

end Candypool.Net
