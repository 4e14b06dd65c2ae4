import Candypool.Net.PeersFile
import Candypool.Net.AddrRun

/-! The address manager after it was written and read. -/
namespace Candypool.Net
open Candypool.Core

/-- An entry as it comes back, apart from its place and its references. -/
def CAddrInfo.reread (info : CAddrInfo) : CAddrInfo := { info.stored with fInTried := info.fInTried }

namespace CAddrMan
variable {env : AddrEnv} {am : CAddrMan}

section Entries

theorem entries_map_fst (am : CAddrMan) : am.entries.map Prod.fst = am.ids := by
  have hall : ∀ l : List ℤ, (∀ n ∈ l, ∃ info, am.info? n = some info) →
      (l.filterMap fun n => (am.info? n).map fun info => (n,info)).map Prod.fst = l := by
    intro l hl
    induction l with
    | nil => rfl
    | cons n l ih =>
      obtain ⟨info,hinfo⟩ := hl n List.mem_cons_self
      rw [List.filterMap_cons, hinfo]
      change n :: _ = _
      rw [ih fun m hm => hl m (List.mem_cons_of_mem n hm)]
  exact hall am.ids fun n hn => mem_ids.mp hn

theorem mem_entries {n : ℤ} {info : CAddrInfo} : (n,info) ∈ am.entries ↔ am.info? n = some info := by
  rw [entries, List.mem_filterMap]
  constructor
  · rintro ⟨m,-,hm⟩
    obtain ⟨info',hinfo,heq⟩ := Option.map_eq_some_iff.mp hm
    rw [Prod.mk.injEq] at heq
    rw [← heq.1, ← heq.2]
    exact hinfo
  · intro hinfo
    refine ⟨n, mem_ids.mpr ⟨info, hinfo⟩, ?_⟩
    rw [hinfo]
    rfl

theorem entries_nodup (am : CAddrMan) : (am.entries.map Prod.fst).Nodup := by
  rw [entries_map_fst]
  exact Finset.sort_nodup _ _

/-- The entries that were not tried, in the order of their ids. -/
def newEntries (am : CAddrMan) : List (ℤ × CAddrInfo) := am.entries.filter fun e => !e.2.fInTried

def triedEntries (am : CAddrMan) : List (ℤ × CAddrInfo) := am.entries.filter fun e => e.2.fInTried

theorem length_filter_entries (p : CAddrInfo → Bool) :
    (am.entries.filter fun e => p e.2).length = (am.idsWith p).card := by
  have hnodup : ((am.entries.filter fun e => p e.2).map Prod.fst).Nodup :=
    (am.entries_nodup).sublist (List.filter_sublist.map Prod.fst)
  rw [← List.length_map Prod.fst, ← List.toFinset_card_of_nodup hnodup]
  congr 1
  ext n
  rw [List.mem_toFinset, List.mem_map, mem_idsWith]
  constructor
  · rintro ⟨⟨m,info⟩,hmem,rfl⟩
    obtain ⟨hentry,hp⟩ := List.mem_filter.mp hmem
    exact ⟨info, mem_entries.mp hentry, hp⟩
  · rintro ⟨info,hinfo,hp⟩
    exact ⟨(n,info), List.mem_filter.mpr ⟨mem_entries.mpr hinfo, hp⟩, rfl⟩

theorem Checked.length_newEntries (h : am.Checked) : (am.newEntries.length : ℤ) = am.nNew := by
  rw [newEntries, length_filter_entries fun info => !info.fInTried]
  exact h.nNew

theorem Checked.length_triedEntries (h : am.Checked) : (am.triedEntries.length : ℤ) = am.nTried := by
  rw [triedEntries, length_filter_entries fun info => info.fInTried]
  exact h.nTried

/-- The entries as the file has them: first those that were not tried. -/
def fileOrder (am : CAddrMan) : List (ℤ × CAddrInfo) := am.newEntries ++ am.triedEntries

theorem mem_fileOrder {n : ℤ} {info : CAddrInfo} :
    (n,info) ∈ am.fileOrder ↔ am.info? n = some info := by
  rw [fileOrder, List.mem_append, newEntries, triedEntries, List.mem_filter, List.mem_filter,
    mem_entries, ← and_or_left, and_iff_left_iff_imp]
  intro
  cases info.fInTried <;> simp

theorem fileOrder_nodup (am : CAddrMan) : (am.fileOrder.map Prod.fst).Nodup := by
  have hperm : am.fileOrder.Perm am.entries := by
    have hsplit := List.filter_append_perm (fun e : ℤ × CAddrInfo => e.2.fInTried) am.entries
    exact List.perm_append_comm.trans hsplit
  exact (hperm.map Prod.fst).nodup_iff.mpr am.entries_nodup

/-- The number that an entry has in the file, which is its new id. -/
def fileId (am : CAddrMan) (n : ℤ) : ℤ := ((am.fileOrder.map Prod.fst).idxOf n : ℕ)

theorem fileId_get {i : ℕ} {e : ℤ × CAddrInfo} (h : am.fileOrder[i]? = some e) :
    am.fileId e.1 = i := by
  obtain ⟨hi,hget⟩ := List.getElem?_eq_some_iff.mp h
  have hi' : i < (am.fileOrder.map Prod.fst).length := by rwa [List.length_map]
  have hidx := am.fileOrder_nodup.idxOf_getElem i hi'
  rw [List.getElem_map, hget] at hidx
  rw [fileId, hidx]

theorem exists_fileId {n : ℤ} {info : CAddrInfo} (h : am.info? n = some info) :
    ∃ i : ℕ, am.fileOrder[i]? = some (n,info) ∧ am.fileId n = i := by
  obtain ⟨i,hi⟩ := List.mem_iff_getElem?.mp (mem_fileOrder.mpr h)
  exact ⟨i, hi, fileId_get hi⟩

theorem fileId_inj {n m : ℤ} {info info' : CAddrInfo} (hn : am.info? n = some info)
    (hm : am.info? m = some info') (h : am.fileId n = am.fileId m) : n = m := by
  obtain ⟨i,hi,hni⟩ := exists_fileId hn
  obtain ⟨j,hj,hmj⟩ := exists_fileId hm
  have hij : i = j := by omega
  rw [hij, hj] at hi
  exact (Prod.mk.inj (Option.some.inj hi)).1.symm

end Entries

section Writer

/-- The loop over the new entries writes them all and numbers them one after the other. -/
theorem writeNew_spec (nNew : ℤ) (l : List (ℤ × CAddrInfo)) (nIds : ℕ) (mapUnkIds : ℤ → ℤ)
    (hnodup : (l.map Prod.fst).Nodup)
    (hrefs : ∀ e ∈ l, e.2.nRefCount ≠ 0 ↔ (!e.2.fInTried) = true)
    (hcount : nNew = (nIds : ℤ)+(l.filter fun e => !e.2.fInTried).length) :
    (writeNew nNew l nIds mapUnkIds).1 =
      (l.filter fun e => !e.2.fInTried).flatMap (fun e => e.2.serialize) ∧
    (∀ (i : ℕ) e, (l.filter fun e => !e.2.fInTried)[i]? = some e →
      (writeNew nNew l nIds mapUnkIds).2 e.1 = (nIds : ℤ)+i) ∧
    ∀ n, n ∉ l.map Prod.fst → (writeNew nNew l nIds mapUnkIds).2 n = mapUnkIds n := by
  induction l generalizing nIds mapUnkIds with
  | nil => exact ⟨rfl, fun i e h => (by cases h), fun n _ => rfl⟩
  | cons a l ih =>
    obtain ⟨n,info⟩ := a
    rw [writeNew]
    -- the loop stops asking once all new entries are numbered; there are none left then
    by_cases hdone : (nIds : ℤ) = nNew
    · have hnone : ((n,info) :: l).filter (fun e => !e.2.fInTried) = [] :=
        List.length_eq_zero_iff.mp (by omega)
      rw [if_pos hdone, hnone]
      exact ⟨rfl, fun i e h => (by cases h), fun n _ => rfl⟩
    rw [if_neg hdone]
    rw [List.map_cons, List.nodup_cons] at hnodup
    have hrefsTail : ∀ e ∈ l, e.2.nRefCount ≠ 0 ↔ (!e.2.fInTried) = true :=
      fun e he => hrefs e (List.mem_cons_of_mem _ he)
    -- numbering one entry leaves the numbers of the others
    have hother (m : ℤ) (hm : m ∉ ((n,info) :: l).map Prod.fst) (k : ℤ) :
        Function.update mapUnkIds n k m = mapUnkIds m ∧ m ∉ l.map Prod.fst := by
      rw [List.map_cons, List.mem_cons, not_or] at hm
      exact ⟨Function.update_of_ne hm.1 _ _, hm.2⟩
    -- an entry is written exactly when it is new, since only new entries have references
    by_cases hnew : (!info.fInTried) = true
    · have hfilter : ((n,info) :: l).filter (fun e => !e.2.fInTried) =
          (n,info) :: l.filter (fun e => !e.2.fInTried) := List.filter_cons_of_pos hnew
      rw [hfilter, List.length_cons] at hcount
      obtain ⟨hbytes,hids,hkeep⟩ := ih (nIds+1) (Function.update mapUnkIds n nIds) hnodup.2 hrefsTail
        (by push_cast at hcount ⊢; omega)
      push_cast at hbytes hids hkeep
      rw [if_pos ((hrefs (n,info) List.mem_cons_self).mpr hnew), hfilter]
      refine ⟨?_, fun i e he => ?_, fun m hm => ?_⟩
      · rw [List.flatMap_cons, ← hbytes]
      · cases i with
        -- its number is the count so far, and no later entry has its identifier
        | zero =>
          obtain rfl := Option.some.inj he
          change (writeNew nNew l ((nIds : ℤ)+1) (Function.update mapUnkIds n nIds)).2 n = _
          rw [hkeep n hnodup.1, Function.update_self]
          omega
        | succ i =>
          change (writeNew nNew l ((nIds : ℤ)+1) (Function.update mapUnkIds n nIds)).2 e.1 = _
          rw [hids i e he]
          push_cast
          omega
      · obtain ⟨hupdate,hout⟩ := hother m hm nIds
        exact (hkeep m hout).trans hupdate
    · have hfilter : ((n,info) :: l).filter (fun e => !e.2.fInTried) =
          l.filter (fun e => !e.2.fInTried) := List.filter_cons_of_neg hnew
      rw [hfilter] at hcount
      obtain ⟨hbytes,hids,hkeep⟩ := ih nIds (Function.update mapUnkIds n nIds) hnodup.2 hrefsTail hcount
      rw [if_neg fun hne => hnew ((hrefs (n,info) List.mem_cons_self).mp hne), hfilter]
      refine ⟨hbytes, hids, fun m hm => ?_⟩
      obtain ⟨hupdate,hout⟩ := hother m hm nIds
      exact (hkeep m hout).trans hupdate

theorem writeTried_spec (nTried : ℤ) (l : List (ℤ × CAddrInfo)) (nIds : ℕ)
    (hcount : nTried = (nIds : ℤ)+(l.filter fun e => e.2.fInTried).length) :
    writeTried nTried l nIds = (l.filter fun e => e.2.fInTried).flatMap fun e => e.2.serialize := by
  induction l generalizing nIds with
  | nil => rfl
  | cons a l ih =>
    obtain ⟨n,info⟩ := a
    rw [writeTried]
    -- the loop counts the entries written; past the last one there is no tried entry left
    by_cases hdone : (nIds : ℤ) = nTried
    · have hnone : ((n,info) :: l).filter (fun e => e.2.fInTried) = [] :=
        List.length_eq_zero_iff.mp (by omega)
      rw [if_pos hdone, hnone]
      rfl
    rw [if_neg hdone]
    by_cases htried : info.fInTried = true
    · have hfilter : ((n,info) :: l).filter (fun e => e.2.fInTried) =
          (n,info) :: l.filter (fun e => e.2.fInTried) := List.filter_cons_of_pos htried
      rw [hfilter, List.length_cons] at hcount
      have htail := ih (nIds+1) (by push_cast at hcount ⊢; omega)
      push_cast at htail
      rw [if_pos htried, htail, hfilter, List.flatMap_cons]
    · have hfilter : ((n,info) :: l).filter (fun e => e.2.fInTried) =
          l.filter (fun e => e.2.fInTried) := List.filter_cons_of_neg htried
      rw [hfilter] at hcount
      rw [if_neg htried, hfilter]
      exact ih nIds hcount

theorem Checked.new_iff (h : am.Checked) {n : ℤ} {info : CAddrInfo} (hinfo : am.info? n = some info) :
    info.nRefCount ≠ 0 ↔ (!info.fInTried) = true := by
  have hcheck := checkInfo_eq_none.mp (h.info n info hinfo)
  cases htried : info.fInTried with
  | true =>
    rw [(hcheck.1 htried).2]
    simp
  | false =>
    have hbounds := hcheck.2.1 htried
    refine iff_of_true ?_ rfl
    omega

end Writer

section Reader

/-- The entries that were read so far, by their ids. -/
structure Loaded (env : AddrEnv) (am : CAddrMan) (l : List CAddrInfo) : Prop where
  vRandom : am.vRandom = (List.range l.length).map fun i : ℕ => (i : ℤ)
  info : ∀ n info, am.info? n = some info ↔
    ∃ i : ℕ, n = i ∧ ∃ old, l[i]? = some old ∧ info = { old with nRandomPos := i }
  mapAddr : ∀ (i : ℕ) info, l[i]? = some info → am.mapAddr info.ip = some (i : ℤ)
  tried : ∀ b n, n ∈ am.vvTried b ↔ ∃ info, am.info? n = some info ∧ info.fInTried = true ∧
    env.getTriedBucket am.nKey info.toCService = b
  nodup : ∀ b, (am.vvTried b).Nodup
  size : ∀ b, (am.vvTried b).length =
    l.countP fun info => info.fInTried && decide (env.getTriedBucket am.nKey info.toCService = b)

theorem Loaded.unknown {l : List CAddrInfo} (h : Loaded env am l) : am.info? (l.length : ℤ) = none := by
  cases hn : am.info? (l.length : ℤ) with
  | none => rfl
  | some info =>
    obtain ⟨i,hi,old,hold,-⟩ := (h.info _ info).mp hn
    have hlt := (List.getElem?_eq_some_iff.mp hold).1
    omega

/-- One more entry. -/
theorem Loaded.push {l : List CAddrInfo} (h : Loaded env am l) {info : CAddrInfo}
    (hip : ∀ old ∈ l, old.ip ≠ info.ip) {am' : CAddrMan} (hkey : am'.nKey = am.nKey)
    (hinfo : am'.info? = Function.update am.info? (l.length : ℤ)
      (some { info with nRandomPos := l.length }))
    (haddr : am'.mapAddr = Function.update am.mapAddr info.ip (some (l.length : ℤ)))
    (hrandom : am'.vRandom = am.vRandom ++ [(l.length : ℤ)])
    (htried : ∀ b, am'.vvTried b =
      if info.fInTried = true ∧ env.getTriedBucket am.nKey info.toCService = b then
        am.vvTried b ++ [(l.length : ℤ)] else am.vvTried b) :
    Loaded env am' (l ++ [info]) := by
  have hinfos (n : ℤ) (info' : CAddrInfo) : am'.info? n = some info' ↔
      ∃ i : ℕ, n = i ∧ ∃ old, (l ++ [info])[i]? = some old ∧ info' = { old with nRandomPos := i } := by
    rw [hinfo]
    by_cases hn : n = (l.length : ℤ)
    · rw [hn, Function.update_self]
      constructor
      · intro heq
        refine ⟨l.length, rfl, info, List.getElem?_concat_length, ?_⟩
        exact (Option.some.inj heq).symm
      · rintro ⟨i,hi,old,hold,rfl⟩
        have hil : i = l.length := by omega
        rw [hil, List.getElem?_concat_length] at hold
        rw [← Option.some.inj hold, hil]
    · rw [Function.update_of_ne hn, h.info]
      apply exists_congr
      intro i
      apply and_congr_right
      intro hni
      by_cases hlt : i < l.length
      · rw [List.getElem?_append_left hlt]
      · have hnone : l[i]? = none := List.getElem?_eq_none (by omega)
        have hnone' : (l ++ [info])[i]? = none := by
          apply List.getElem?_eq_none
          rw [List.length_append, List.length_singleton]
          omega
        rw [hnone, hnone']
  -- the next identifier is in no bucket
  have hfresh (b : TriedBucket) : (l.length : ℤ) ∉ am.vvTried b := by
    intro hmem
    obtain ⟨info',hinfo',-⟩ := (h.tried b _).mp hmem
    rw [h.unknown] at hinfo'
    cases hinfo'
  refine ⟨?_, hinfos, fun i info' hi => ?_, fun b n => ?_, fun b => ?_, fun b => ?_⟩
  · rw [hrandom, h.vRandom, List.length_append, List.length_singleton, List.range_succ,
      List.map_append]
    rfl
  -- the addresses read are distinct, so the newest does not hide another
  · rw [haddr]
    by_cases hlt : i < l.length
    · rw [List.getElem?_append_left hlt] at hi
      rw [Function.update_of_ne (hip info' (List.mem_of_getElem? hi))]
      exact h.mapAddr i info' hi
    · have hil : i = l.length := by
        have hlen := (List.getElem?_eq_some_iff.mp hi).1
        rw [List.length_append, List.length_singleton] at hlen
        omega
      rw [hil, List.getElem?_concat_length] at hi
      rw [← Option.some.inj hi, Function.update_self, hil]
  -- the newest entry is in its own bucket if it is tried, the others where they were
  · rw [htried, hkey, hinfo]
    by_cases hn : n = (l.length : ℤ)
    · rw [hn, Function.update_self]
      by_cases hb : info.fInTried = true ∧ env.getTriedBucket am.nKey info.toCService = b
      · rw [if_pos hb]
        exact iff_of_true (List.mem_append_right _ (List.mem_singleton_self _))
          ⟨_, rfl, hb.1, hb.2⟩
      · rw [if_neg hb]
        refine iff_of_false (hfresh b) ?_
        rintro ⟨info',hinfo',ht,hbucket⟩
        rw [← Option.some.inj hinfo'] at ht hbucket
        exact hb ⟨ht, hbucket⟩
    · rw [Function.update_of_ne hn, ← h.tried b n]
      by_cases hb : info.fInTried = true ∧ env.getTriedBucket am.nKey info.toCService = b
      · rw [if_pos hb, List.mem_append, List.mem_singleton, or_iff_left hn]
      · rw [if_neg hb]
  · rw [htried]
    split_ifs
    · exact List.nodup_append_comm.mp (List.nodup_cons.mpr ⟨hfresh b, h.nodup b⟩)
    · exact h.nodup b
  · rw [htried, hkey, List.countP_append, ← h.size b, List.countP_singleton]
    by_cases hb : info.fInTried = true ∧ env.getTriedBucket am.nKey info.toCService = b
    · rw [if_pos hb, if_pos (by rw [hb.1, Bool.true_and]; exact decide_eq_true hb.2),
        List.length_append, List.length_singleton]
    · rw [if_neg hb, if_neg fun hand => hb ?_]
      · rfl
      · rw [Bool.and_eq_true, decide_eq_true_iff] at hand
        exact hand

theorem info?_append (am : CAddrMan) (n : ℤ) (info : CAddrInfo) :
    (am.append n info).info? = Function.update am.info? n
      (some { info with nRandomPos := am.vRandom.length }) :=
  info?_setInfo am n { info with nRandomPos := am.vRandom.length }

theorem Loaded.length_vRandom {l : List CAddrInfo} (h : Loaded env am l) :
    am.vRandom.length = l.length := by
  rw [h.vRandom, List.length_map, List.length_range]

/-- The reader has touched only what belongs to the entries. -/
structure SameCounts (am am' : CAddrMan) : Prop where
  nKey : am'.nKey = am.nKey
  nTried : am'.nTried = am.nTried
  nNew : am'.nNew = am.nNew
  vvNew : am'.vvNew = am.vvNew

theorem SameCounts.trans {am am' am'' : CAddrMan} (h : SameCounts am am') (h' : SameCounts am' am'') :
    SameCounts am am'' :=
  ⟨h'.nKey.trans h.nKey, h'.nTried.trans h.nTried, h'.nNew.trans h.nNew, h'.vvNew.trans h.vvNew⟩

/-- The new entries come back in their order. -/
theorem readNew_spec (infos : List CAddrInfo) {am : CAddrMan} {l : List CAddrInfo}
    (h : Loaded env am l) (hnew : ∀ info ∈ infos, info.fInTried = false)
    (hips : ((l ++ infos).map fun info => info.ip).Nodup) (rest : List UInt8) :
    ∃ am', readNew env addrmanNewBucketCount infos.length l.length am
        (infos.flatMap CAddrInfo.serialize ++ rest) = some (am',rest) ∧
      Loaded env am' (l ++ infos.map CAddrInfo.reread) ∧
      SameCounts am am' := by
  induction infos generalizing am l with
  | nil =>
    refine ⟨am, rfl, ?_, rfl, rfl, rfl, rfl⟩
    rw [List.map_nil, List.append_nil]
    exact h
  | cons info infos ih =>
    -- an entry that was new is read back as it was written
    have hstored : info.stored = info.reread := by
      rw [CAddrInfo.reread, hnew info List.mem_cons_self]
      rfl
    let am1 := am.append l.length info.stored
    have h1 : Loaded env am1 (l ++ [info.stored]) := by
      apply h.push
      · intro old hold heq
        rw [List.map_append, List.nodup_append] at hips
        exact hips.2.2 _ (List.mem_map_of_mem hold) _
          (List.mem_map_of_mem List.mem_cons_self) heq
      · rfl
      · rw [info?_append, h.length_vRandom]
      · rfl
      · rfl
      · intro b
        rw [if_neg]
        · rfl
        · rintro ⟨hfalse,-⟩
          cases hfalse
    have hips1 : (((l ++ [info.stored]) ++ infos).map fun info => info.ip).Nodup := by
      rw [List.append_assoc, List.map_append, List.map_append]
      rw [List.map_append] at hips
      exact hips
    obtain ⟨am2,hread,h2,hsame⟩ := ih h1 (fun i hi => hnew i (List.mem_cons_of_mem info hi)) hips1
    refine ⟨am2, ?_, ?_, ?_⟩
    · rw [List.flatMap_cons, List.append_assoc, List.length_cons, readNew,
        unserializeAddrInfo_serialize]
      rw [List.length_append, List.length_singleton] at hread
      push_cast at hread
      simp only [Option.bind_eq_bind, Option.bind_some, readNewEntry, if_neg (not_not.mpr rfl)]
      exact hread
    · rw [List.append_assoc, List.singleton_append, hstored] at h2
      exact h2
    · have hfirst : SameCounts am am1 := ⟨rfl, rfl, rfl, rfl⟩
      exact hfirst.trans hsame

/-- No tried entry is lost while the buckets have room for all. -/
theorem readTried_spec (infos : List CAddrInfo) {am : CAddrMan} {l : List CAddrInfo}
    (h : Loaded env am l) (hcount : am.nIdCount = l.length)
    (htried : ∀ info ∈ infos, info.fInTried = true)
    (hips : ((l ++ infos).map fun info => info.ip).Nodup)
    (hroom : ∀ b, (am.vvTried b).length+
      infos.countP (fun info => decide (env.getTriedBucket am.nKey info.toCService = b)) ≤
        addrmanTriedBucketSize) (nLost : ℤ) (rest : List UInt8) :
    ∃ am', readTried env infos.length am nLost (infos.flatMap CAddrInfo.serialize ++ rest) =
        some ((am',nLost),rest) ∧
      Loaded env am' (l ++ infos.map CAddrInfo.reread) ∧
      SameCounts am am' := by
  induction infos generalizing am l with
  | nil =>
    refine ⟨am, rfl, ?_, rfl, rfl, rfl, rfl⟩
    rw [List.map_nil, List.append_nil]
    exact h
  | cons info infos ih =>
    let k := env.getTriedBucket am.nKey info.toCService
    let back : CAddrInfo := { info.stored with fInTried := true }
    have hback : back = info.reread := by
      rw [CAddrInfo.reread, htried info List.mem_cons_self]
    -- a tried entry is appended and put into its bucket
    let am1 : CAddrMan := { am.append am.nIdCount back with
      vvTried := Function.update am.vvTried k (am.vvTried k ++ [am.nIdCount])
      nIdCount := am.nIdCount+1 }
    have hk := hroom k
    rw [List.countP_cons, if_pos (decide_eq_true rfl)] at hk
    have h1 : Loaded env am1 (l ++ [back]) := by
      apply h.push
      · intro old hold heq
        rw [List.map_append, List.nodup_append] at hips
        exact hips.2.2 _ (List.mem_map_of_mem hold) _
          (List.mem_map_of_mem List.mem_cons_self) heq
      · rfl
      · change (am.append am.nIdCount back).info? = _
        rw [info?_append, h.length_vRandom, hcount]
      · change Function.update am.mapAddr info.ip (some am.nIdCount) = _
        rw [hcount]
        rfl
      · change am.vRandom ++ [am.nIdCount] = _
        rw [hcount]
      · intro b
        change Function.update am.vvTried k (am.vvTried k ++ [am.nIdCount]) b = _
        by_cases hb : k = b
        · rw [if_pos ⟨rfl, hb⟩, ← hb, Function.update_self, hcount]
        · rw [if_neg fun hand => hb hand.2, Function.update_of_ne (Ne.symm hb)]
    have hips1 : (((l ++ [back]) ++ infos).map fun info => info.ip).Nodup := by
      rw [List.append_assoc, List.map_append, List.map_append]
      rw [List.map_append] at hips
      exact hips
    have hroom1 (b : TriedBucket) : (am1.vvTried b).length+
        infos.countP (fun info => decide (env.getTriedBucket am1.nKey info.toCService = b)) ≤
          addrmanTriedBucketSize := by
      have hb := hroom b
      change (Function.update am.vvTried k (am.vvTried k ++ [am.nIdCount]) b).length+
        infos.countP (fun info => decide (env.getTriedBucket am.nKey info.toCService = b)) ≤ _
      rw [List.countP_cons] at hb
      by_cases hkb : k = b
      · rw [if_pos (decide_eq_true hkb)] at hb
        rw [← hkb] at hb ⊢
        rw [Function.update_self, List.length_append, List.length_singleton]
        omega
      · rw [Function.update_of_ne (Ne.symm hkb)]
        omega
    have hcount1 : am1.nIdCount = ((l ++ [back]).length : ℤ) := by
      change am.nIdCount+1 = _
      rw [List.length_append, List.length_singleton, hcount]
      push_cast
      rfl
    obtain ⟨am2,hread,h2,hsame⟩ := ih h1 hcount1 (fun i hi => htried i (List.mem_cons_of_mem info hi))
      hips1 hroom1
    refine ⟨am2, ?_, ?_, ?_⟩
    · have hspace : (am.vvTried (env.getTriedBucket am.nKey info.stored.toCService)).length <
          addrmanTriedBucketSize := by
        change (am.vvTried k).length < _
        omega
      rw [List.flatMap_cons, List.append_assoc, List.length_cons, readTried,
        unserializeAddrInfo_serialize]
      simp only [Option.bind_eq_bind, Option.bind_some, readTriedEntry, if_pos hspace]
      exact hread
    · rw [List.append_assoc, List.singleton_append, hback] at h2
      exact h2
    · have hfirst : SameCounts am am1 := ⟨rfl, rfl, rfl, rfl⟩
      exact hfirst.trans hsame

end Reader

section Buckets

/-- The entries of `am0` with the references that the buckets hold. -/
structure Counted (am0 am : CAddrMan) : Prop where
  info : ∀ n, am.info? n = (am0.info? n).map fun info => { info with nRefCount := refsTo am.vvNew n }
  nKey : am.nKey = am0.nKey
  mapAddr : am.mapAddr = am0.mapAddr
  vRandom : am.vRandom = am0.vRandom
  nTried : am.nTried = am0.nTried
  vvTried : am.vvTried = am0.vvTried
  nNew : am.nNew = am0.nNew

/-- An index puts its entry into the bucket, as long as the entry has fewer than four references. -/
theorem readIndex_spec {am0 : CAddrMan} (h : Counted am0 am) {b : NewBucket} {n : ℤ}
    (hn : (am0.info? n).isSome = true) (hout : n ∉ am.vvNew b) (hfew : refsTo am.vvNew n < 4) :
    Counted am0 (am.readIndex addrmanNewBucketCount b n) ∧
      (am.readIndex addrmanNewBucketCount b n).vvNew =
        Function.update am.vvNew b (insert n (am.vvNew b)) := by
  obtain ⟨info0,hinfo0⟩ := Option.isSome_iff_exists.mp hn
  let info : CAddrInfo := { info0 with nRefCount := refsTo am.vvNew n }
  have hinfo : am.info? n = some info := by
    rw [h.info, hinfo0]
    rfl
  let am1 : CAddrMan := { am.setInfo n { info with nRefCount := info.nRefCount+1 } with
    vvNew := Function.update am.vvNew b (insert n (am.vvNew b)) }
  have hread : am.readIndex addrmanNewBucketCount b n = am1 := by
    have hcond : (addrmanNewBucketCount : ℤ) = addrmanNewBucketCount ∧
        info.nRefCount < addrmanNewBucketsPerAddress := by
      refine ⟨rfl, ?_⟩
      change (refsTo am.vvNew n : ℤ) < 4
      omega
    rw [readIndex, hinfo]
    exact if_pos hcond
  rw [hread]
  refine ⟨⟨fun m => ?_, h.nKey, h.mapAddr, h.vRandom, h.nTried, h.vvTried, h.nNew⟩, rfl⟩
  change (am.setInfo n { info with nRefCount := info.nRefCount+1 }).info? m = (am0.info? m).map
    fun info => { info with nRefCount := refsTo (Function.update am.vvNew b (insert n (am.vvNew b))) m }
  rw [info?_setInfo]
  by_cases hm : m = n
  · rw [hm, Function.update_self, hinfo0, refsTo_insert hout]
    rfl
  · rw [Function.update_of_ne hm, refsTo_insert_ne hm]
    exact h.info m

/-- The indices of one bucket. -/
theorem readIndices_spec (indices : List ℤ) {am0 am : CAddrMan} (h : Counted am0 am) {b : NewBucket}
    (hnodup : indices.Nodup) (hrange : ∀ n ∈ indices, 0 ≤ n ∧ n < 2^31)
    (hknown : ∀ n ∈ indices, (am0.info? n).isSome = true) (hout : ∀ n ∈ indices, n ∉ am.vvNew b)
    (hfew : ∀ n ∈ indices, refsTo am.vvNew n < 4) (rest : List UInt8) :
    ∃ am', readIndices addrmanNewBucketCount b indices.length am
        (indices.flatMap (serializeInt 4) ++ rest) = some (am',rest) ∧ Counted am0 am' ∧
      am'.vvNew = Function.update am.vvNew b (am.vvNew b ∪ indices.toFinset) := by
  induction indices generalizing am with
  | nil =>
    refine ⟨am, rfl, h, ?_⟩
    rw [List.toFinset_nil, Finset.union_empty, Function.update_eq_self]
  | cons n indices ih =>
    -- each index puts one entry into the bucket
    obtain ⟨h1,hvv1⟩ := readIndex_spec h (hknown n List.mem_cons_self) (hout n List.mem_cons_self)
      (hfew n List.mem_cons_self)
    generalize hnext : am.readIndex addrmanNewBucketCount b n = am1 at h1 hvv1
    rw [List.nodup_cons] at hnodup
    have hne (m : ℤ) (hm : m ∈ indices) : m ≠ n := by
      rintro rfl
      exact hnodup.1 hm
    obtain ⟨am2,hread,h2,hvv2⟩ := ih h1 hnodup.2
      (fun m hm => hrange m (List.mem_cons_of_mem n hm))
      (fun m hm => hknown m (List.mem_cons_of_mem n hm))
      (fun m hm => by
        rw [hvv1, Function.update_self, Finset.mem_insert, or_iff_right (hne m hm)]
        exact hout m (List.mem_cons_of_mem n hm))
      (fun m hm => by
        rw [hvv1, refsTo_insert_ne (hne m hm)]
        exact hfew m (List.mem_cons_of_mem n hm))
    refine ⟨am2, ?_, h2, ?_⟩
    · have hn := hrange n List.mem_cons_self
      rw [List.flatMap_cons, List.append_assoc, List.length_cons, readIndices,
        unserializeInt_serialize (by omega) (by omega)]
      simp only [Option.bind_eq_bind, Option.bind_some, hnext]
      exact hread
    · rw [hvv2, hvv1, Function.update_self, Function.update_idem, List.toFinset_cons,
        Finset.insert_union, Finset.union_insert]

/-- The buckets before `k`; the others are empty. -/
def bucketsBefore (vvNew : NewBucket → Finset ℤ) (k : ℕ) (c : NewBucket) : Finset ℤ :=
  if c.val < k then vvNew c else ∅

theorem refsTo_before_lt {vvNew : NewBucket → Finset ℤ} {b : NewBucket} {n : ℤ} (hn : n ∈ vvNew b) :
    refsTo (bucketsBefore vvNew b) n < refsTo vvNew n := by
  apply Finset.card_lt_card
  rw [Finset.ssubset_iff_of_subset]
  · refine ⟨b, Finset.mem_filter.mpr ⟨Finset.mem_univ b, hn⟩, fun hmem => ?_⟩
    have hb := (Finset.mem_filter.mp hmem).2
    rw [bucketsBefore, if_neg (lt_irrefl _)] at hb
    exact Finset.notMem_empty n hb
  · intro c hc
    have hmem := (Finset.mem_filter.mp hc).2
    rw [bucketsBefore] at hmem
    split_ifs at hmem
    · exact Finset.mem_filter.mpr ⟨Finset.mem_univ c, hmem⟩
    · exact absurd hmem (Finset.notMem_empty n)

/-- All buckets from the `k`-th on. -/
theorem readBuckets_spec (vvNew : NewBucket → Finset ℤ) (indices : NewBucket → List ℤ)
    (hindices : ∀ b, (indices b).toFinset = vvNew b) (hnodup : ∀ b, (indices b).Nodup)
    (hlen : ∀ b, (indices b).length < 2^31)
    (hrange : ∀ b, ∀ n ∈ indices b, 0 ≤ n ∧ n < 2^31) {am0 : CAddrMan}
    (hknown : ∀ b, ∀ n ∈ indices b, (am0.info? n).isSome = true) (hfew : ∀ n, refsTo vvNew n ≤ 4)
    (turns k : ℕ) (hturns : k+turns = addrmanNewBucketCount) {am : CAddrMan} (h : Counted am0 am)
    (hvvNew : am.vvNew = bucketsBefore vvNew k) (rest : List UInt8) :
    ∃ am', readBuckets addrmanNewBucketCount turns k am
        (((List.finRange addrmanNewBucketCount).drop k).flatMap (fun b =>
          serializeInt 4 (indices b).length ++ (indices b).flatMap (serializeInt 4)) ++ rest) =
        some (am',rest) ∧ Counted am0 am' ∧ am'.vvNew = vvNew := by
  induction turns generalizing k am with
  | zero =>
    -- every bucket is read, so each is among those before the last
    refine ⟨am, ?_, h, ?_⟩
    · have hend : (List.finRange addrmanNewBucketCount).drop k = [] :=
        List.drop_eq_nil_of_le (by rw [List.length_finRange]; omega)
      rw [hend]
      rfl
    · rw [hvvNew]
      funext c
      rw [bucketsBefore, if_pos]
      have hc := c.isLt
      omega
  | succ turns ih =>
    have hk : k < addrmanNewBucketCount := by omega
    let b : NewBucket := ⟨k,hk⟩
    have hdrop : (List.finRange addrmanNewBucketCount).drop k =
        b :: (List.finRange addrmanNewBucketCount).drop (k+1) := by
      rw [List.drop_eq_getElem_cons (by rw [List.length_finRange]; exact hk), List.getElem_finRange]
      rfl
    have hmem (n : ℤ) (hn : n ∈ indices b) : n ∈ vvNew b := by
      rw [← hindices b]
      exact List.mem_toFinset.mpr hn
    have hempty : am.vvNew b = ∅ := by
      rw [hvvNew, bucketsBefore, if_neg (lt_irrefl k)]
    -- the bucket is still empty, and its entries have references left in the buckets behind
    obtain ⟨am1,hread,h1,hvv1⟩ := readIndices_spec (indices b) h (hnodup b) (hrange b) (hknown b)
      (fun n _ => by
        rw [hempty]
        exact Finset.notMem_empty n)
      (fun n hn => by
        rw [hvvNew]
        exact (refsTo_before_lt (hmem n hn)).trans_le (hfew n))
      (((List.finRange addrmanNewBucketCount).drop (k+1)).flatMap (fun b =>
        serializeInt 4 (indices b).length ++ (indices b).flatMap (serializeInt 4)) ++ rest)
    -- with this bucket filled, the first `k+1` are what they were
    have hvv : am1.vvNew = bucketsBefore vvNew (k+1) := by
      rw [hvv1, hempty, Finset.empty_union, hindices]
      funext c
      by_cases hc : c = b
      · rw [hc, Function.update_self, bucketsBefore, if_pos (Nat.lt_succ_self k)]
      · have hval : c.val ≠ k := fun heq => hc (Fin.ext heq)
        rw [Function.update_of_ne hc, hvvNew, bucketsBefore, bucketsBefore]
        by_cases hlt : c.val < k
        · rw [if_pos hlt, if_pos (Nat.lt_succ_of_lt hlt)]
        · rw [if_neg hlt, if_neg (by omega)]
    obtain ⟨am2,hread2,h2,hvv2⟩ := ih (k+1) (by omega) h1 hvv
    refine ⟨am2, ?_, h2, hvv2⟩
    have hl := hlen b
    rw [hdrop, List.flatMap_cons, List.append_assoc, List.append_assoc, readBuckets, dif_pos hk,
      unserializeInt_serialize (by omega) (by omega)]
    simp only [Option.bind_eq_bind, Option.bind_some, Int.toNat_natCast]
    change (readIndices addrmanNewBucketCount b (indices b).length am _).bind _ = _
    rw [hread]
    exact hread2

end Buckets

section Reload

/-- The tried entries stand in the buckets of their hashes. -/
def TriedPlaced (env : AddrEnv) (am : CAddrMan) : Prop :=
  ∀ b n info, n ∈ am.vvTried b → am.info? n = some info →
    env.getTriedBucket am.nKey info.toCService = b

theorem Checked.ip_inj (h : am.Checked) {n m : ℤ} {info info' : CAddrInfo}
    (hn : am.info? n = some info) (hm : am.info? m = some info') (hip : info.ip = info'.ip) : n = m := by
  have hfirst := (checkInfo_eq_none.mp (h.info n info hn)).2.2.1
  have hsecond := (checkInfo_eq_none.mp (h.info m info' hm)).2.2.1
  rw [← hfirst, ← hsecond, hip]

theorem Checked.ips_nodup (h : am.Checked) : (am.fileOrder.map fun e => e.2.ip).Nodup := by
  apply (am.fileOrder_nodup.of_map Prod.fst).map_on
  rintro ⟨n,info⟩ hn ⟨m,info'⟩ hm hip
  have hinfo := mem_fileOrder.mp hn
  have hinfo' := mem_fileOrder.mp hm
  obtain rfl := h.ip_inj hinfo hinfo' hip
  rw [hinfo] at hinfo'
  rw [Option.some.inj hinfo']

theorem Checked.refs_eq (h : am.Checked) {n : ℤ} {info : CAddrInfo} (hinfo : am.info? n = some info) :
    info.nRefCount = refsTo am.vvNew n := by
  cases htried : info.fInTried with
  | false => exact h.refs n info hinfo htried
  | true =>
    have hout : ∀ b, n ∉ am.vvNew b := by
      intro b hb
      obtain ⟨info',hinfo',hnew⟩ := mem_idsWith.mp (h.new b n hb)
      obtain rfl := Option.some.inj (hinfo.symm.trans hinfo')
      rw [htried] at hnew
      cases hnew
    rw [((checkInfo_eq_none.mp (h.info n info hinfo)).1 htried).2, refsTo_eq_zero_iff.mpr hout]
    rfl

theorem Checked.fileId_mem (h : am.Checked) {n : ℤ} {info : CAddrInfo} (hinfo : am.info? n = some info)
    (b : NewBucket) : am.fileId n ∈ (am.vvNew b).image am.fileId ↔ n ∈ am.vvNew b := by
  rw [Finset.mem_image]
  constructor
  · rintro ⟨m,hm,heq⟩
    obtain ⟨info',hinfo',-⟩ := mem_idsWith.mp (h.new b m hm)
    rw [← fileId_inj hinfo' hinfo heq]
    exact hm
  · intro hn
    exact ⟨n, hn, rfl⟩

theorem Checked.refsTo_fileId (h : am.Checked) {n : ℤ} {info : CAddrInfo}
    (hinfo : am.info? n = some info) :
    refsTo (fun b => (am.vvNew b).image am.fileId) (am.fileId n) = refsTo am.vvNew n := by
  rw [refsTo, refsTo]
  simp only [h.fileId_mem hinfo]

theorem Checked.refsTo_image_le (h : am.Checked) (n' : ℤ) :
    refsTo (fun b => (am.vvNew b).image am.fileId) n' ≤ 4 := by
  by_cases hout : ∀ b, n' ∉ (am.vvNew b).image am.fileId
  · rw [refsTo_eq_zero_iff.mpr hout]
    exact Nat.zero_le 4
  · obtain ⟨b,hb⟩ := not_forall.mp hout
    obtain ⟨n,hn,rfl⟩ := Finset.mem_image.mp (not_not.mp hb)
    obtain ⟨info,hinfo,hnew⟩ := mem_idsWith.mp (h.new b n hn)
    have hnew' := (Bool.not_eq_true' _).mp hnew
    have hbounds := (checkInfo_eq_none.mp (h.info n info hinfo)).2.1 hnew'
    have hrefs := h.refs n info hinfo hnew'
    have hle : info.nRefCount ≤ 4 := hbounds.2
    rw [h.refsTo_fileId hinfo]
    omega

/-- The limits of the buckets keep the counts small. -/
theorem Checked.counts_lt (h : am.Checked) (hnewSize : ∀ b, (am.vvNew b).card ≤ addrmanNewBucketSize)
    (htriedSize : ∀ b, (am.vvTried b).length ≤ addrmanTriedBucketSize) :
    am.newEntries.length ≤ 16384 ∧ am.triedEntries.length ≤ 4096 := by
  constructor
  -- a new entry has a reference, so some bucket of new entries holds it
  · have hsub : am.idsWith (!·.fInTried) ⊆ Finset.univ.biUnion am.vvNew := by
      intro n hn
      obtain ⟨info,hinfo,hnew⟩ := mem_idsWith.mp hn
      have hnew' := (Bool.not_eq_true' _).mp hnew
      have hbounds := (checkInfo_eq_none.mp (h.info n info hinfo)).2.1 hnew'
      have hrefs := h.refs n info hinfo hnew'
      have hsome : ¬∀ b, n ∉ am.vvNew b := by
        rw [← refsTo_eq_zero_iff]
        omega
      obtain ⟨b,hb⟩ := not_forall.mp hsome
      exact Finset.mem_biUnion.mpr ⟨b, Finset.mem_univ b, not_not.mp hb⟩
    rw [newEntries, length_filter_entries fun info => !info.fInTried]
    -- no more entries than all the buckets have room for
    calc (am.idsWith (!·.fInTried)).card ≤ (Finset.univ.biUnion am.vvNew).card :=
          Finset.card_le_card hsub
      _ ≤ ∑ b, (am.vvNew b).card := Finset.card_biUnion_le
      _ ≤ Finset.univ.card • addrmanNewBucketSize :=
          Finset.sum_le_card_nsmul _ _ _ fun b _ => hnewSize b
      _ = 16384 := by
          rw [Finset.card_univ, Fintype.card_fin]
          rfl
  · have hsub : am.idsWith (·.fInTried) ⊆
        ((List.finRange addrmanTriedBucketCount).flatMap am.vvTried).toFinset := by
      intro n hn
      obtain ⟨b,hb⟩ := (h.tried n).mpr hn
      exact List.mem_toFinset.mpr (List.mem_flatMap.mpr ⟨b, List.mem_finRange b, hb⟩)
    rw [triedEntries, length_filter_entries fun info => info.fInTried]
    calc (am.idsWith (·.fInTried)).card ≤ _ := Finset.card_le_card hsub
      _ ≤ ((List.finRange addrmanTriedBucketCount).flatMap am.vvTried).length := List.toFinset_card_le _
      _ = triedCount am.vvTried := length_flatMap_tried am.vvTried
      _ ≤ Finset.univ.card • addrmanTriedBucketSize :=
          Finset.sum_le_card_nsmul _ _ _ fun b _ => htriedSize b
      _ = 4096 := by
          rw [Finset.card_univ, Fintype.card_fin]
          rfl

/-- The tried entries that hash to a bucket are in it. -/
theorem Checked.countP_tried_le (h : am.Checked) (hplaced : TriedPlaced env am) (b : TriedBucket) :
    (am.triedEntries.map Prod.snd).countP
      (fun info => decide (env.getTriedBucket am.nKey info.toCService = b)) ≤ (am.vvTried b).length := by
  rw [List.countP_map, List.countP_eq_length_filter, ← List.length_map Prod.fst]
  have hnodup : ((am.triedEntries.filter ((fun info : CAddrInfo =>
      decide (env.getTriedBucket am.nKey info.toCService = b)) ∘ Prod.snd)).map Prod.fst).Nodup :=
    am.entries_nodup.sublist ((List.filter_sublist.trans List.filter_sublist).map Prod.fst)
  apply (hnodup.subperm _).length_le
  intro n hn
  obtain ⟨⟨m,info⟩,hmem,rfl⟩ := List.mem_map.mp hn
  obtain ⟨hmem,hbucket⟩ := List.mem_filter.mp hmem
  obtain ⟨hentry,htried⟩ := List.mem_filter.mp hmem
  have hinfo := mem_entries.mp hentry
  obtain ⟨c,hc⟩ := (h.tried m).mpr (mem_idsWith.mpr ⟨info, hinfo, htried⟩)
  rw [← hplaced c m info hc hinfo, of_decide_eq_true hbucket] at hc
  exact hc

/-- The state after the file was read; every entry has a new id. -/
structure Reloaded (env : AddrEnv) (am am' : CAddrMan) : Prop where
  entry : ∀ n info, am.info? n = some info →
    am'.info? (am.fileId n) = some { info with nLastTry := 0, nRandomPos := am.fileId n }
  known : ∀ n' info', am'.info? n' = some info' → ∃ n info, am.info? n = some info ∧ n' = am.fileId n
  mapAddr : ∀ n info, am.info? n = some info → am'.mapAddr info.ip = some (am.fileId n)
  vRandom : am'.vRandom = (List.range am.fileOrder.length).map fun i : ℕ => (i : ℤ)
  vvTried : ∀ b n', n' ∈ am'.vvTried b ↔ ∃ info, am'.info? n' = some info ∧ info.fInTried = true ∧
    env.getTriedBucket am.nKey info.toCService = b
  nodup : ∀ b, (am'.vvTried b).Nodup
  vvNew : am'.vvNew = fun b => (am.vvNew b).image am.fileId
  nTried : am'.nTried = am.nTried
  nNew : am'.nNew = am.nNew

/-- The reader, step by step. -/
theorem unserialize_of {bytes r1 r2 r3 r4 r5 r6 r7 r8 nKey : List UInt8} {nVersion : ℕ}
    {nNew nTried nUBuckets nLost : ℤ} {am1 am2 am3 : CAddrMan}
    (hversion : unserializeNumber 1 bytes = some (nVersion,r1))
    (hkey : unserializeString r1 = some (nKey,r2)) (hnNew : unserializeInt 4 r2 = some (nNew,r3))
    (hnTried : unserializeInt 4 r3 = some (nTried,r4))
    (hnUBuckets : unserializeInt 4 r4 = some (nUBuckets,r5))
    (hnews : readNew env nUBuckets nNew.toNat 0 { empty nKey with nNew := nNew, nTried := nTried } r5 =
      some (am1,r6))
    (htrieds : readTried env am1.nTried.toNat { am1 with nIdCount := am1.nNew } 0 r6 =
      some ((am2,nLost),r7))
    (hbuckets : readBuckets nUBuckets nUBuckets.toNat 0 { am2 with nTried := am2.nTried-nLost } r7 =
      some (am3,r8)) : unserialize env bytes = some (am3,r8) := by
  rw [unserialize, hversion]
  simp only [Option.bind_eq_bind, Option.bind_some, hkey, hnNew, hnTried, hnUBuckets, hnews, htrieds]
  exact hbuckets

/-- The entries of a new bucket, as the file lists them. -/
def fileIndices (am : CAddrMan) (b : NewBucket) : List ℤ := (bucketIds (am.vvNew b)).map am.fileId

/-- The new buckets in the file. -/
def bucketBytes (am : CAddrMan) : List UInt8 :=
  (List.finRange addrmanNewBucketCount).flatMap fun b =>
    serializeInt 4 (am.fileIndices b).length ++ (am.fileIndices b).flatMap (serializeInt 4)

theorem fileIndices_length (b : NewBucket) : (am.fileIndices b).length = (am.vvNew b).card := by
  rw [fileIndices, List.length_map]
  exact Finset.length_sort _

theorem fileIndices_toFinset (b : NewBucket) :
    (am.fileIndices b).toFinset = (am.vvNew b).image am.fileId := by
  ext n'
  rw [List.mem_toFinset, fileIndices, List.mem_map, Finset.mem_image]
  simp only [bucketIds, Finset.mem_sort]

theorem Checked.fileIndices_nodup (h : am.Checked) (b : NewBucket) : (am.fileIndices b).Nodup := by
  apply (Finset.sort_nodup _ _).map_on
  intro n hn m hm heq
  obtain ⟨info,hinfo,-⟩ := mem_idsWith.mp (h.new b n ((Finset.mem_sort _).mp hn))
  obtain ⟨info',hinfo',-⟩ := mem_idsWith.mp (h.new b m ((Finset.mem_sort _).mp hm))
  exact fileId_inj hinfo hinfo' heq

theorem Checked.of_fileIndices (h : am.Checked) {b : NewBucket} {n' : ℤ} (hn' : n' ∈ am.fileIndices b) :
    ∃ n info, am.info? n = some info ∧ n' = am.fileId n := by
  obtain ⟨n,hn,rfl⟩ := List.mem_map.mp hn'
  obtain ⟨info,hinfo,-⟩ := mem_idsWith.mp (h.new b n ((Finset.mem_sort _).mp hn))
  exact ⟨n, info, hinfo, rfl⟩

theorem Checked.writeNew_eq (h : am.Checked) :
    (writeNew am.nNew am.entries 0 fun _ => 0).1 = am.newEntries.flatMap (fun e => e.2.serialize) ∧
    ∀ (i : ℕ) e, am.newEntries[i]? = some e →
      (writeNew am.nNew am.entries 0 fun _ => 0).2 e.1 = (0 : ℕ)+(i : ℤ) := by
  have hcount := h.length_newEntries
  obtain ⟨hbytes,hids,-⟩ := writeNew_spec am.nNew am.entries 0 (fun _ => 0) am.entries_nodup
    (fun e he => h.new_iff (mem_entries.mp he)) (by
      rw [← hcount]
      exact (zero_add _).symm)
  exact ⟨hbytes, hids⟩

/-- The index of an entry in the file is its place among the entries there. -/
theorem Checked.writeNew_id (h : am.Checked) {b : NewBucket} {n : ℤ} (hn : n ∈ am.vvNew b) :
    (writeNew am.nNew am.entries 0 fun _ => 0).2 n = am.fileId n := by
  obtain ⟨info,hinfo,hnew⟩ := mem_idsWith.mp (h.new b n hn)
  have hmem : (n,info) ∈ am.newEntries := List.mem_filter.mpr ⟨mem_entries.mpr hinfo, hnew⟩
  obtain ⟨i,hi⟩ := List.mem_iff_getElem?.mp hmem
  have hid := h.writeNew_eq.2 i (n,info) hi
  have horder : am.fileOrder[i]? = some (n,info) := by
    rw [fileOrder, List.getElem?_append_left (List.getElem?_eq_some_iff.mp hi).1]
    exact hi
  rw [fileId_get horder]
  rw [Nat.cast_zero, zero_add] at hid
  exact hid

theorem Checked.writeBuckets_eq (h : am.Checked) :
    ((List.finRange addrmanNewBucketCount).flatMap fun b =>
      writeBucket (writeNew am.nNew am.entries 0 fun _ => 0).2 (am.vvNew b)) = am.bucketBytes := by
  rw [bucketBytes]
  congr 1
  funext b
  rw [writeBucket, fileIndices_length, fileIndices, List.flatMap_map]
  congr 1
  apply List.flatMap_congr
  intro n hn
  rw [h.writeNew_id ((Finset.mem_sort _).mp hn)]

/-- What is written: the counts, the entries, those that were not tried first, and the buckets. -/
theorem Checked.serialize_eq (h : am.Checked) : am.serialize = numberBytes 1 0 ++
    (serializeString am.nKey ++ (serializeInt 4 am.nNew ++ (serializeInt 4 am.nTried ++
      (serializeInt 4 addrmanNewBucketCount ++
        ((am.newEntries.map Prod.snd).flatMap CAddrInfo.serialize ++
          ((am.triedEntries.map Prod.snd).flatMap CAddrInfo.serialize ++ am.bucketBytes)))))) := by
  have hcount := h.length_triedEntries
  have htried := writeTried_spec am.nTried am.entries 0 (by
    rw [← hcount]
    exact (zero_add _).symm)
  rw [← h.writeBuckets_eq, List.flatMap_map, List.flatMap_map, ← h.writeNew_eq.1, triedEntries, ← htried]
  rfl

variable (env) in
theorem loaded_empty (nKey : List UInt8) (nNew nTried : ℤ) :
    Loaded env { empty nKey with nNew := nNew, nTried := nTried } [] := by
  refine ⟨rfl, fun n info => ?_, fun i info hi => (by cases hi), fun b n => ?_, fun b => List.nodup_nil,
    fun b => rfl⟩
  · refine iff_of_false (fun hn => (by cases hn)) ?_
    rintro ⟨i,-,old,hold,-⟩
    cases hold
  · refine iff_of_false (fun hn => (by cases hn)) ?_
    rintro ⟨info,hinfo,-⟩
    cases hinfo

theorem mem_newEntries {info : CAddrInfo} (hinfo : info ∈ am.newEntries.map Prod.snd) :
    info.fInTried = false := by
  obtain ⟨e,he,rfl⟩ := List.mem_map.mp hinfo
  exact (Bool.not_eq_true' _).mp (List.mem_filter.mp he).2

theorem mem_triedEntries {info : CAddrInfo} (hinfo : info ∈ am.triedEntries.map Prod.snd) :
    info.fInTried = true := by
  obtain ⟨e,he,rfl⟩ := List.mem_map.mp hinfo
  exact (List.mem_filter.mp he).2

theorem fileOrder_reread (am : CAddrMan) : (am.newEntries.map Prod.snd).map CAddrInfo.reread ++
    (am.triedEntries.map Prod.snd).map CAddrInfo.reread = am.fileOrder.map fun e => e.2.reread := by
  rw [← List.map_append, ← List.map_append, List.map_map]
  rfl

/-- The entries come back in the order of the file, and no tried entry is lost. -/
theorem Checked.readEntries (h : am.Checked) (hplaced : TriedPlaced env am)
    (htriedSize : ∀ b, (am.vvTried b).length ≤ addrmanTriedBucketSize) (tail : List UInt8) :
    let trieds := (am.triedEntries.map Prod.snd).flatMap CAddrInfo.serialize ++ tail
    let am0 : CAddrMan := { empty am.nKey with nNew := am.nNew, nTried := am.nTried }
    ∃ am1 am2, readNew env addrmanNewBucketCount am.nNew.toNat 0 am0
        ((am.newEntries.map Prod.snd).flatMap CAddrInfo.serialize ++ trieds) = some (am1,trieds) ∧
      readTried env am1.nTried.toNat { am1 with nIdCount := am1.nNew } 0 trieds = some ((am2,0),tail) ∧
      Loaded env am2 (am.fileOrder.map fun e => e.2.reread) ∧ SameCounts am0 am2 := by
  intro trieds am0
  have hips : ((am.newEntries.map Prod.snd ++ am.triedEntries.map Prod.snd).map
      fun info => info.ip).Nodup := by
    rw [← List.map_append, List.map_map]
    exact h.ips_nodup
  have hnNew : am.nNew.toNat = (am.newEntries.map Prod.snd).length := by
    rw [List.length_map, ← h.length_newEntries, Int.toNat_natCast]
  have hnTried : am.nTried.toNat = (am.triedEntries.map Prod.snd).length := by
    rw [List.length_map, ← h.length_triedEntries, Int.toNat_natCast]
  rw [List.map_append] at hips
  obtain ⟨am1,hread1,h1,hsame1⟩ := readNew_spec (am.newEntries.map Prod.snd)
    (loaded_empty env am.nKey am.nNew am.nTried) (fun info => mem_newEntries)
    (List.nodup_append.mp hips).1 trieds
  rw [List.nil_append] at h1
  have h1' : Loaded env { am1 with nIdCount := am1.nNew }
      ((am.newEntries.map Prod.snd).map CAddrInfo.reread) :=
    ⟨h1.vRandom, h1.info, h1.mapAddr, h1.tried, h1.nodup, h1.size⟩
  -- no bucket has a tried entry yet, and the file has no more of them than the bucket holds
  have hroom (b : TriedBucket) : (am1.vvTried b).length+(am.triedEntries.map Prod.snd).countP
      (fun info => decide (env.getTriedBucket am1.nKey info.toCService = b)) ≤
        addrmanTriedBucketSize := by
    have hzero : (am1.vvTried b).length = 0 := by
      rw [h1.size, List.countP_eq_zero]
      intro info hinfo
      obtain ⟨old,hold,rfl⟩ := List.mem_map.mp hinfo
      have hnew : old.fInTried = false := mem_newEntries hold
      rw [show old.reread.fInTried = false from hnew]
      exact Bool.false_ne_true
    rw [hzero, zero_add, hsame1.nKey]
    exact (h.countP_tried_le hplaced b).trans (htriedSize b)
  have hcount : am1.nNew = ((am.newEntries.map Prod.snd).map CAddrInfo.reread).length := by
    rw [hsame1.nNew, List.length_map, List.length_map]
    exact h.length_newEntries.symm
  have hips' : (((am.newEntries.map Prod.snd).map CAddrInfo.reread ++ am.triedEntries.map Prod.snd).map
      fun info => info.ip).Nodup := by
    rw [List.map_append, List.map_map]
    exact hips
  obtain ⟨am2,hread2,h2,hsame2⟩ := readTried_spec (am.triedEntries.map Prod.snd) h1' hcount
    (fun info => mem_triedEntries) hips' hroom 0 tail
  rw [fileOrder_reread] at h2
  refine ⟨am1, am2, ?_, ?_, h2, hsame1.trans ⟨hsame2.nKey, hsame2.nTried, hsame2.nNew, hsame2.vvNew⟩⟩
  · rw [hnNew]
    exact hread1
  · have hcount1 : am1.nTried.toNat = (am.triedEntries.map Prod.snd).length := hsame1.nTried ▸ hnTried
    rw [hcount1]
    exact hread2

section Loaded
variable {am2 : CAddrMan}

theorem Loaded.info_fileId (h2 : Loaded env am2 (am.fileOrder.map fun e => e.2.reread)) {n : ℤ}
    {info : CAddrInfo} (hinfo : am.info? n = some info) :
    am2.info? (am.fileId n) = some { info.reread with nRandomPos := am.fileId n } := by
  obtain ⟨i,hi,hid⟩ := CAddrMan.exists_fileId hinfo
  rw [h2.info]
  refine ⟨i, hid, info.reread, ?_, ?_⟩
  · rw [List.getElem?_map, hi]
    rfl
  · rw [hid]

theorem Loaded.exists_fileId (h2 : Loaded env am2 (am.fileOrder.map fun e => e.2.reread)) {n' : ℤ}
    {info' : CAddrInfo} (hinfo' : am2.info? n' = some info') :
    ∃ n info, am.info? n = some info ∧ n' = am.fileId n := by
  obtain ⟨i,hi,old,hold,-⟩ := (h2.info n' info').mp hinfo'
  rw [List.getElem?_map] at hold
  obtain ⟨⟨n,info⟩,he,-⟩ := Option.map_eq_some_iff.mp hold
  refine ⟨n, info, mem_fileOrder.mp (List.mem_of_getElem? he), ?_⟩
  rw [hi, fileId_get he]

/-- No entry has a reference before the buckets are read. -/
theorem Loaded.counted (h2 : Loaded env am2 (am.fileOrder.map fun e => e.2.reread))
    (hvvNew : am2.vvNew = fun _ => ∅) : Counted am2 am2 := by
  refine ⟨fun n => ?_, rfl, rfl, rfl, rfl, rfl, rfl⟩
  cases hn : am2.info? n with
  | none => rfl
  | some info =>
    obtain ⟨i,hi,old,hold,rfl⟩ := (h2.info n info).mp hn
    rw [List.getElem?_map] at hold
    obtain ⟨e,-,rfl⟩ := Option.map_eq_some_iff.mp hold
    have hzero : refsTo am2.vvNew n = 0 := by
      rw [refsTo_eq_zero_iff, hvvNew]
      exact fun b => Finset.notMem_empty n
    rw [Option.map_some, hzero]
    rfl

/-- The buckets come back, with the new ids of their entries. -/
theorem Loaded.readBuckets (h2 : Loaded env am2 (am.fileOrder.map fun e => e.2.reread))
    (h : am.Checked) (hnewSize : ∀ b, (am.vvNew b).card ≤ addrmanNewBucketSize)
    (htriedSize : ∀ b, (am.vvTried b).length ≤ addrmanTriedBucketSize)
    (hvvNew : am2.vvNew = fun _ => ∅) :
    ∃ am', readBuckets addrmanNewBucketCount addrmanNewBucketCount 0 am2 am.bucketBytes =
        some (am',[]) ∧ Counted am2 am' ∧ am'.vvNew = fun b => (am.vvNew b).image am.fileId := by
  obtain ⟨hnewLen,htriedLen⟩ := h.counts_lt hnewSize htriedSize
  have hlen (b : NewBucket) : (am.fileIndices b).length < 2^31 := by
    rw [fileIndices_length]
    exact (hnewSize b).trans_lt (by decide)
  -- an index is a place in the file, and the file holds fewer entries than `2^31`
  have hrange (b : NewBucket) (n' : ℤ) (hn' : n' ∈ am.fileIndices b) : 0 ≤ n' ∧ n' < 2^31 := by
    obtain ⟨n,info,hinfo,rfl⟩ := h.of_fileIndices hn'
    obtain ⟨i,hi,hid⟩ := CAddrMan.exists_fileId hinfo
    have hlt := (List.getElem?_eq_some_iff.mp hi).1
    rw [fileOrder, List.length_append] at hlt
    omega
  -- each index was written for an entry, and that entry has been read
  have hknown (b : NewBucket) (n' : ℤ) (hn' : n' ∈ am.fileIndices b) : (am2.info? n').isSome = true := by
    obtain ⟨n,info,hinfo,rfl⟩ := h.of_fileIndices hn'
    rw [h2.info_fileId hinfo]
    rfl
  have hbefore : am2.vvNew = bucketsBefore (fun b => (am.vvNew b).image am.fileId) 0 := by
    rw [hvvNew]
    rfl
  obtain ⟨am',hread,hcounted,hvv⟩ := readBuckets_spec _ am.fileIndices fileIndices_toFinset
    h.fileIndices_nodup hlen hrange hknown h.refsTo_image_le addrmanNewBucketCount 0 (zero_add _)
    (h2.counted hvvNew) hbefore []
  rw [List.append_nil, List.drop_zero] at hread
  exact ⟨am', hread, hcounted, hvv⟩

theorem Loaded.reloaded (h2 : Loaded env am2 (am.fileOrder.map fun e => e.2.reread)) (h : am.Checked)
    (hsame : SameCounts { empty am.nKey with nNew := am.nNew, nTried := am.nTried } am2)
    {am' : CAddrMan} (hcounted : Counted am2 am')
    (hvvNew : am'.vvNew = fun b => (am.vvNew b).image am.fileId) : Reloaded env am am' where
  entry n info hinfo := by
    -- the references counted while reading the buckets are the ones the entry had
    rw [hcounted.info, h2.info_fileId hinfo, Option.map_some, hvvNew, h.refsTo_fileId hinfo,
      ← h.refs_eq hinfo]
    rfl
  known n' info' hinfo' := by
    rw [hcounted.info] at hinfo'
    obtain ⟨info,hinfo,-⟩ := Option.map_eq_some_iff.mp hinfo'
    exact h2.exists_fileId hinfo
  mapAddr n info hinfo := by
    obtain ⟨i,hi,hid⟩ := CAddrMan.exists_fileId hinfo
    have hget : (am.fileOrder.map fun e => e.2.reread)[i]? = some info.reread := by
      rw [List.getElem?_map, hi]
      rfl
    rw [hcounted.mapAddr, hid]
    exact h2.mapAddr i info.reread hget
  vRandom := by rw [hcounted.vRandom, h2.vRandom, List.length_map]
  vvTried b n' := by
    rw [hcounted.vvTried, h2.tried, hcounted.info, hsame.nKey]
    cases am2.info? n' with
    | none => simp
    | some info => simp only [Option.map_some, Option.some.injEq, exists_eq_left']; rfl
  nodup b := by
    rw [hcounted.vvTried]
    exact h2.nodup b
  vvNew := hvvNew
  nTried := hcounted.nTried.trans hsame.nTried
  nNew := hcounted.nNew.trans hsame.nNew

end Loaded

/-- The reader takes what the writer gives. -/
theorem unserialize_serialize (h : am.Checked) (hplaced : TriedPlaced env am)
    (hnewSize : ∀ b, (am.vvNew b).card ≤ addrmanNewBucketSize)
    (htriedSize : ∀ b, (am.vvTried b).length ≤ addrmanTriedBucketSize)
    (hkey : am.nKey.length ≤ maxSize) :
    ∃ am', unserialize env am.serialize = some (am',[]) ∧ Reloaded env am am' := by
  obtain ⟨hnewLen,htriedLen⟩ := h.counts_lt hnewSize htriedSize
  have hnNew := h.length_newEntries
  have hnTried := h.length_triedEntries
  obtain ⟨am1,am2,hread1,hread2,h2,hsame⟩ := h.readEntries hplaced htriedSize am.bucketBytes
  obtain ⟨am',hbuckets,hcounted,hvvNew⟩ := h2.readBuckets h hnewSize htriedSize hsame.vvNew
  refine ⟨am', ?_, h2.reloaded h hsame hcounted hvvNew⟩
  -- the number of buckets written fits its four bytes
  have hlow : -(256^4 : ℤ) ≤ 2*(addrmanNewBucketCount : ℤ) := by
    rw [addrmanNewBucketCount]
    norm_num
  have hhigh : 2*(addrmanNewBucketCount : ℤ) < 256^4 := by
    rw [addrmanNewBucketCount]
    norm_num
  rw [h.serialize_eq]
  apply unserialize_of (unserializeNumber_numberBytes (by norm_num) _)
    (unserializeString_serialize hkey _) (unserializeInt_serialize (by omega) (by omega) _)
    (unserializeInt_serialize (by omega) (by omega) _) (unserializeInt_serialize hlow hhigh _) hread1
    hread2
  rw [Int.toNat_natCast, sub_zero]
  exact hbuckets

theorem Reloaded.idsWith_image {am' : CAddrMan} (h : Reloaded env am am') (p : Bool → Bool) :
    am'.idsWith (fun info => p info.fInTried) =
      (am.idsWith fun info => p info.fInTried).image am.fileId := by
  ext n'
  rw [mem_idsWith, Finset.mem_image]
  constructor
  · rintro ⟨info',hinfo',hp⟩
    obtain ⟨n,info,hinfo,rfl⟩ := h.known n' info' hinfo'
    rw [h.entry n info hinfo] at hinfo'
    rw [← Option.some.inj hinfo'] at hp
    exact ⟨n, mem_idsWith.mpr ⟨info, hinfo, hp⟩, rfl⟩
  · rintro ⟨n,hn,rfl⟩
    obtain ⟨info,hinfo,hp⟩ := mem_idsWith.mp hn
    exact ⟨_, h.entry n info hinfo, hp⟩

theorem Reloaded.card_idsWith {am' : CAddrMan} (h : Reloaded env am am') (p : Bool → Bool) :
    (am'.idsWith fun info => p info.fInTried).card = (am.idsWith fun info => p info.fInTried).card := by
  rw [h.idsWith_image p]
  apply Finset.card_image_of_injOn
  intro n hn m hm heq
  obtain ⟨info,hinfo,-⟩ := mem_idsWith.mp hn
  obtain ⟨info',hinfo',-⟩ := mem_idsWith.mp hm
  exact fileId_inj hinfo hinfo' heq

/-- `Check_` accepts the state that was read. -/
theorem Reloaded.checked {am' : CAddrMan} (h : Reloaded env am am') (hc : am.Checked) : am'.Checked := by
  have hlen : (am.fileOrder.length : ℤ) = am.nTried+am.nNew := by
    rw [fileOrder, List.length_append, Nat.cast_add, hc.length_newEntries, hc.length_triedEntries, add_comm]
  refine ⟨?_, fun n' info' hinfo' => ?_, ?_, ?_, ?_, fun n' => ?_, fun b n' hn' => ?_,
    fun n' info' hinfo' hnew => ?_⟩
  · rw [h.vRandom, List.length_map, List.length_range, h.nTried, h.nNew, hlen]
  · obtain ⟨n,info,hinfo,rfl⟩ := h.known n' info' hinfo'
    rw [h.entry n info hinfo] at hinfo'
    rw [← Option.some.inj hinfo']
    -- the last try is not in the file, and zero passes the check of it
    obtain ⟨htried,hnew,-,-,-,hlastSuccess⟩ := checkInfo_eq_none.mp (hc.info n info hinfo)
    rw [checkInfo_eq_none]
    refine ⟨htried, hnew, ?_, ?_, le_refl 0, hlastSuccess⟩
    · rw [h.mapAddr n info hinfo]
      rfl
    · obtain ⟨i,hi,hid⟩ := exists_fileId hinfo
      change at? am'.vRandom (am.fileId n) = _
      rw [hid, at?_natCast, h.vRandom, List.getElem?_map,
        List.getElem?_range (List.getElem?_eq_some_iff.mp hi).1]
      rfl
  · rw [show (am'.idsWith (·.fInTried)).card = _ from h.card_idsWith id, h.nTried]
    exact hc.nTried
  · rw [show (am'.idsWith (!·.fInTried)).card = _ from h.card_idsWith (!·), h.nNew]
    exact hc.nNew
  · rw [List.nodup_flatMap]
    refine ⟨fun b _ => h.nodup b, ?_⟩
    apply (List.nodup_finRange _).imp
    intro b c hbc n' hb hn
    -- two tried buckets share no identifier, as the bucket is computed from the entry
    obtain ⟨info,hinfo,-,hbucket⟩ := (h.vvTried b n').mp hb
    obtain ⟨info',hinfo',-,hbucket'⟩ := (h.vvTried c n').mp hn
    obtain rfl := Option.some.inj (hinfo.symm.trans hinfo')
    exact hbc (hbucket.symm.trans hbucket')
  · rw [mem_idsWith]
    constructor
    · rintro ⟨b,hb⟩
      obtain ⟨info,hinfo,htried,-⟩ := (h.vvTried b n').mp hb
      exact ⟨info, hinfo, htried⟩
    · rintro ⟨info,hinfo,htried⟩
      exact ⟨_, (h.vvTried _ n').mpr ⟨info, hinfo, htried, rfl⟩⟩
  · rw [h.idsWith_image (!·)]
    rw [h.vvNew] at hn'
    obtain ⟨n,hn,rfl⟩ := Finset.mem_image.mp hn'
    exact Finset.mem_image_of_mem _ (hc.new b n hn)
  · obtain ⟨n,info,hinfo,rfl⟩ := h.known n' info' hinfo'
    rw [h.entry n info hinfo] at hinfo'
    rw [← Option.some.inj hinfo', h.vvNew, hc.refsTo_fileId hinfo]
    change info.nRefCount = _
    exact hc.refs_eq hinfo

/-- What survives: the state is sound, no tried entry is lost, and every entry is there with what the
file keeps of it, in the buckets where it was. -/
structure Restored (am am' : CAddrMan) : Prop where
  check : am'.check = 0
  nTried : am'.nTried = am.nTried
  nNew : am'.nNew = am.nNew
  kept : ∀ n info, am.info? n = some info → ∃ n' info', am'.info? n' = some info' ∧
    info'.stored = info.stored ∧ info'.fInTried = info.fInTried ∧
    (∀ b, n' ∈ am'.vvTried b ↔ n ∈ am.vvTried b) ∧ ∀ b, n' ∈ am'.vvNew b ↔ n ∈ am.vvNew b
  added : ∀ n' info', am'.info? n' = some info' →
    ∃ n info, am.info? n = some info ∧ info'.stored = info.stored

theorem Reloaded.restored {am' : CAddrMan} (h : Reloaded env am am') (hc : am.Checked)
    (hplaced : TriedPlaced env am) : Restored am am' := by
  refine ⟨check_eq_zero_iff.mpr (h.checked hc), h.nTried, h.nNew, fun n info hinfo => ?_,
    fun n' info' hinfo' => ?_⟩
  · refine ⟨am.fileId n, _, h.entry n info hinfo, rfl, rfl, fun b => ?_, fun b => ?_⟩
    · rw [h.vvTried, h.entry n info hinfo]
      constructor
      · rintro ⟨info',hinfo',htried,hbucket⟩
        -- the bucket computed on reading is the one the entry was in
        rw [← Option.some.inj hinfo'] at htried hbucket
        obtain ⟨c,hn⟩ := (hc.tried n).mpr (mem_idsWith.mpr ⟨info, hinfo, htried⟩)
        have hsame : c = b := (hplaced c n info hn hinfo).symm.trans hbucket
        rw [← hsame]
        exact hn
      · intro hn
        obtain ⟨info',hinfo',htried⟩ := mem_idsWith.mp ((hc.tried n).mp ⟨b, hn⟩)
        obtain rfl := Option.some.inj (hinfo.symm.trans hinfo')
        exact ⟨_, rfl, htried, hplaced b n info hn hinfo⟩
    · rw [h.vvNew]
      exact hc.fileId_mem hinfo b
  · obtain ⟨n,info,hinfo,rfl⟩ := h.known n' info' hinfo'
    rw [h.entry n info hinfo] at hinfo'
    refine ⟨n, info, hinfo, ?_⟩
    rw [← Option.some.inj hinfo']
    rfl

/-- Every state that the calls reach has its tried entries in their places. -/
theorem Consistent.triedPlaced (h : Consistent env none am) : TriedPlaced env am := by
  intro b n info hn hinfo
  obtain ⟨refs,hrefs⟩ := (h.placed.tried b n).mp hn
  rw [role_eq hinfo] at hrefs
  have hbucket := (Prod.mk.inj (Option.some.inj hrefs)).1
  by_cases htried : info.fInTried = true
  · rw [if_pos htried] at hbucket
    exact Option.some.inj hbucket
  · rw [if_neg htried] at hbucket
    cases hbucket

end Reload

end CAddrMan

/-- The file of a sound state gives back its entries, in the buckets where they were. -/
theorem peers_file_round_trip (env : AddrEnv) (am : CAddrMan) (hcheck : am.check = 0)
    (hnewSize : ∀ b, (am.vvNew b).card ≤ 64) (htriedSize : ∀ b, (am.vvTried b).length ≤ 64)
    (hplaced : am.TriedPlaced env) (hkey : am.nKey.length ≤ maxSize) :
    ∃ am', CAddrMan.unserialize env am.serialize = some (am',[]) ∧ am.Restored am' := by
  have hchecked := CAddrMan.check_eq_zero_iff.mp hcheck
  obtain ⟨am',hread,hreloaded⟩ :=
    CAddrMan.unserialize_serialize hchecked hplaced hnewSize htriedSize hkey
  exact ⟨am', hread, hreloaded.restored hchecked hplaced⟩

theorem peers_file_round_trip_sample :
    ∃ am, AddrCall.execAll addrEnvSample (CAddrMan.empty []) addrCallsSample = some am ∧
      ∃ am', CAddrMan.unserialize addrEnvSample am.serialize = some (am',[]) ∧ am.Restored am' := by
  have hcalls : ∀ call ∈ addrCallsSample, call.Positive := by
    intro call hcall
    rcases List.mem_cons.mp hcall with rfl | hcall
    · trivial
    · obtain rfl := List.mem_singleton.mp hcall
      change 0 < (1400000100 : BitVec 64).toInt
      decide
  obtain ⟨am,hrun,h⟩ := CAddrMan.execAll_consistent addrCallsSample
    (CAddrMan.empty_consistent addrEnvSample []) hcalls
  have hkey : am.nKey.length ≤ maxSize := by
    have hnKey : (AddrCall.execAll addrEnvSample (CAddrMan.empty []) addrCallsSample).map
        CAddrMan.nKey = some [] := by decide +kernel
    rw [hrun] at hnKey
    rw [show am.nKey = [] from Option.some.inj hnKey]
    exact Nat.zero_le _
  exact ⟨am, hrun, peers_file_round_trip addrEnvSample am (CAddrMan.check_eq_zero_iff.mpr h.checked)
    h.newSize h.triedSize h.triedPlaced hkey⟩

def secondTriedBucket : TriedBucket := ⟨1,by decide⟩

/-- A tried entry in the second bucket, of an address that belongs into the first one. -/
def misplacedAddrMan : CAddrMan :=
  let addr : CAddress := ⟨⟨Vector.replicate 16 7,8333⟩,1,1399990000⟩
  { CAddrMan.empty (List.replicate 32 0) with
    nIdCount := 1
    mapInfo := AList.insert 0 { CAddrInfo.init addr (Vector.replicate 16 9) with
      nLastSuccess := 1400000000, fInTried := true, nRandomPos := 0 } ∅
    mapAddr := Function.update (fun _ => none) addr.ip (some 0)
    vRandom := [0]
    nTried := 1
    vvTried := Function.update (fun _ => []) secondTriedBucket [0] }

/-- `Check_` does not look at the bucket of a tried entry; the file puts it where it belongs. -/
theorem peers_file_moves_entry : ∃ (env : AddrEnv) (am : CAddrMan), am.check = 0 ∧
    (∀ b, (am.vvNew b).card ≤ 64) ∧ (∀ b, (am.vvTried b).length ≤ 64) ∧ am.nKey.length = 32 ∧
    ¬∃ am', CAddrMan.unserialize env am.serialize = some (am',[]) ∧ am.Restored am' := by
  let env : AddrEnv := ⟨fun _ _ => 0,fun _ _ _ => 0,fun _ => true⟩
  refine ⟨env, misplacedAddrMan, by decide +kernel, by decide +kernel, by decide +kernel,
    by decide +kernel, ?_⟩
  rintro ⟨am',hread,hrestored⟩
  have hbuckets : (CAddrMan.unserialize env misplacedAddrMan.serialize).map
      (fun r => r.1.vvTried secondTriedBucket) = some [] := by decide +kernel
  rw [hread] at hbuckets
  have hempty : am'.vvTried secondTriedBucket = [] := Option.some.inj hbuckets
  obtain ⟨n',-,-,-,-,hkept,-⟩ := hrestored.kept 0 _ (AList.lookup_insert _)
  have hmem : n' ∈ am'.vvTried secondTriedBucket := (hkept secondTriedBucket).mpr (by decide +kernel)
  rw [hempty] at hmem
  cases hmem

end Candypool.Net
