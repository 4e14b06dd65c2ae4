import Candypool.Net.AddrPlaces
import Mathlib

/-! What `Check_` of the address manager accepts. -/
namespace Candypool.Net

/-- The state that `Check_` accepts. -/
structure CAddrMan.Checked (am : CAddrMan) : Prop where
  size : (am.vRandom.length : ℤ) = am.nTried+am.nNew
  info : ∀ n info, am.info? n = some info → am.checkInfo n info = none
  nTried : ((am.idsWith (·.fInTried)).card : ℤ) = am.nTried
  nNew : ((am.idsWith (!·.fInTried)).card : ℤ) = am.nNew
  once : ((List.finRange addrmanTriedBucketCount).flatMap am.vvTried).Nodup
  tried : ∀ n, (∃ b, n ∈ am.vvTried b) ↔ n ∈ am.idsWith (·.fInTried)
  new : ∀ b n, n ∈ am.vvNew b → n ∈ am.idsWith (!·.fInTried)
  refs : ∀ n info, am.info? n = some info → info.fInTried = false →
    info.nRefCount = refsTo am.vvNew n

namespace CAddrMan
variable {am : CAddrMan}

theorem mem_idsWith {p : CAddrInfo → Bool} {n : ℤ} :
    n ∈ am.idsWith p ↔ ∃ info, am.info? n = some info ∧ p info = true := by
  rw [idsWith, Finset.mem_filter, List.mem_toFinset, ← AList.mem_keys, ← AList.lookup_isSome]
  change (am.info? n).isSome = true ∧ (am.info? n).any p = true ↔ _
  cases am.info? n with
  | none => simp
  | some info => simp

theorem mem_ids {n : ℤ} : n ∈ am.ids ↔ ∃ info, am.info? n = some info := by
  rw [ids, Finset.mem_sort, List.mem_toFinset, ← AList.mem_keys, ← AList.lookup_isSome,
    Option.isSome_iff_exists]
  rfl

theorem checkInfo_ne_zero (n : ℤ) (info : CAddrInfo) : am.checkInfo n info ≠ some 0 := by
  unfold checkInfo
  split_ifs <;> simp

section Loops

/-- The loop over the tried buckets meets every entry once. -/
theorem eraseTried_eq_some {vTried : List ℤ} {setTried left : Finset ℤ} :
    eraseTried vTried setTried = some left ↔
      vTried.Nodup ∧ (∀ n ∈ vTried, n ∈ setTried) ∧ left = setTried \ vTried.toFinset := by
  induction vTried generalizing setTried with
  | nil => simp [eraseTried, eq_comm]
  | cons n vTried ih =>
    rw [eraseTried]
    -- erasing fails at the first identifier that is not, or no more, in the set
    by_cases hn : n ∈ setTried
    · have hset : setTried.erase n \ vTried.toFinset = setTried \ (n :: vTried).toFinset := by
        rw [List.toFinset_cons, Finset.sdiff_insert, Finset.erase_sdiff_comm]
      rw [if_pos hn, ih, hset, List.nodup_cons]
      constructor
      · rintro ⟨hnodup,hsub,hleft⟩
        refine ⟨⟨fun hmem => ?_, hnodup⟩, fun m hm => ?_, hleft⟩
        · exact Finset.notMem_erase n _ (hsub n hmem)
        · rcases List.mem_cons.mp hm with rfl | hm
          · exact hn
          · exact Finset.mem_of_mem_erase (hsub m hm)
      · rintro ⟨⟨hout,hnodup⟩,hsub,hleft⟩
        refine ⟨hnodup, fun m hm => ?_, hleft⟩
        apply Finset.mem_erase_of_ne_of_mem
        · rintro rfl
          exact hout hm
        · exact hsub m (List.mem_cons_of_mem n hm)
    · rw [if_neg hn]
      refine iff_of_false (fun h => (by cases h)) fun h => ?_
      exact hn (h.2.1 n List.mem_cons_self)

/-- The loop over the new buckets meets every entry as often as its count says. -/
theorem countNew_exact {vNew : List ℤ} {counts : AList fun _ : ℤ => ℤ}
    (hpos : ∀ n r, counts.lookup n = some r → 0 < r) :
    (∃ left, countNew vNew counts = some left ∧ left.keys = []) ↔
      ∀ n, (vNew.count n : ℤ) = (counts.lookup n).getD 0 := by
  induction vNew generalizing counts with
  -- nothing is left to count, so each count must have been zero, and no zero is stored
  | nil =>
    constructor
    · rintro ⟨left,hleft,hkeys⟩ n
      obtain rfl := Option.some.inj hleft
      have hnone : counts.lookup n = none := by
        rw [AList.lookup_eq_none, AList.mem_keys, hkeys]
        exact List.not_mem_nil
      rw [hnone]
      rfl
    · intro h
      refine ⟨counts, rfl, List.eq_nil_iff_forall_not_mem.mpr fun n hn => ?_⟩
      rw [← AList.mem_keys, ← AList.lookup_isSome, Option.isSome_iff_exists] at hn
      obtain ⟨r,hr⟩ := hn
      have hzero := h n
      rw [hr] at hzero
      have hone := hpos n r hr
      rw [← show (0 : ℤ) = r from hzero] at hone
      exact lt_irrefl 0 hone
  | cons a vNew ih =>
    -- an identifier with no count left is an error
    cases ha : counts.lookup a with
    | none =>
      have hfail : countNew (a :: vNew) counts = none := by
        rw [countNew, ha]
        rfl
      refine iff_of_false ?_ fun h => ?_
      · rintro ⟨left,hleft,-⟩
        rw [hfail] at hleft
        cases hleft
      · have hcount := h a
        rw [ha, List.count_cons_self] at hcount
        have hzero : ((vNew.count a+1 : ℕ) : ℤ) = 0 := hcount
        omega
    | some r =>
      have hstep : countNew (a :: vNew) counts =
          countNew vNew (if r-1 = 0 then counts.erase a else counts.insert a (r-1)) := by
        rw [countNew, ha]
        rfl
      -- the count falls by one, and the entry goes when it reaches zero
      generalize hnext : (if r-1 = 0 then counts.erase a else counts.insert a (r-1)) = next at hstep
      have hr := hpos a r ha
      have hself : (next.lookup a).getD 0 = r-1 := by
        rw [← hnext]
        split_ifs with hone
        · rw [AList.lookup_erase, hone]
          rfl
        · rw [AList.lookup_insert]
          rfl
      have hother (n : ℤ) (hn : n ≠ a) : next.lookup n = counts.lookup n := by
        rw [← hnext]
        split_ifs
        · exact AList.lookup_erase_ne hn
        · exact AList.lookup_insert_ne hn
      -- so the counts stored stay positive
      have hposNext (n s : ℤ) (hs : next.lookup n = some s) : 0 < s := by
        by_cases hn : n = a
        · rw [hn] at hs
          rw [← hnext] at hs
          split_ifs at hs with hone
          · rw [AList.lookup_erase] at hs
            cases hs
          · rw [AList.lookup_insert] at hs
            have hvalue := Option.some.inj hs
            omega
        · rw [hother n hn] at hs
          exact hpos n s hs
      rw [hstep, ih hposNext]
      apply forall_congr'
      intro n
      by_cases hn : n = a
      · rw [hn, hself, ha, List.count_cons_self]
        have hget : (some r).getD 0 = r := rfl
        rw [hget]
        push_cast
        constructor <;> intro <;> omega
      · rw [hother n hn, List.count_cons_of_ne (Ne.symm hn)]

theorem lookup_foldl_insert (f : ℤ → ℤ) (l : List ℤ) (counts : AList fun _ : ℤ => ℤ) (n : ℤ) :
    (l.foldl (fun m a => m.insert a (f a)) counts).lookup n =
      if n ∈ l then some (f n) else counts.lookup n := by
  induction l generalizing counts with
  | nil => rfl
  | cons a l ih =>
    rw [List.foldl_cons, ih]
    by_cases hmem : n ∈ l
    · rw [if_pos hmem, if_pos (List.mem_cons_of_mem a hmem)]
    · rw [if_neg hmem]
      by_cases hn : n = a
      · rw [hn, if_pos List.mem_cons_self, AList.lookup_insert]
      · rw [AList.lookup_insert_ne hn, if_neg]
        rw [List.mem_cons, not_or]
        exact ⟨hn, hmem⟩

theorem count_newBuckets (vvNew : NewBucket → Finset ℤ) (buckets : List NewBucket) (n : ℤ) :
    (buckets.flatMap fun b => (vvNew b).sort (· ≤ ·)).count n =
      buckets.countP fun b => decide (n ∈ vvNew b) := by
  induction buckets with
  | nil => rfl
  | cons b buckets ih =>
    rw [List.flatMap_cons, List.count_append, ih, List.countP_cons, add_comm]
    congr 1
    rw [(Finset.sort_nodup _ _).count]
    simp only [Finset.mem_sort, decide_eq_true_eq]

end Loops

theorem lookup_mapNew (n : ℤ) : am.mapNew.lookup n =
    if n ∈ am.idsWith (!·.fInTried) then some (((am.info? n).map CAddrInfo.nRefCount).getD 0)
    else none := by
  rw [mapNew, lookup_foldl_insert]
  have hmem : n ∈ (am.ids.filter fun n => n ∈ am.idsWith (!·.fInTried)) ↔
      n ∈ am.idsWith (!·.fInTried) := by
    rw [List.mem_filter, decide_eq_true_iff, and_iff_right_iff_imp]
    intro h
    obtain ⟨info,hinfo,-⟩ := mem_idsWith.mp h
    exact mem_ids.mpr ⟨info, hinfo⟩
  simp only [hmem]
  rfl

theorem keys_mapNew : am.mapNew.keys.length = (am.idsWith (!·.fInTried)).card := by
  rw [← List.toFinset_card_of_nodup am.mapNew.keys_nodup]
  congr 1
  ext n
  rw [List.mem_toFinset, ← AList.mem_keys, ← AList.lookup_isSome, lookup_mapNew]
  split_ifs with h <;> simp [h]

/-- What an accepted entry satisfies. -/
theorem checkInfo_eq_none {n : ℤ} {info : CAddrInfo} : am.checkInfo n info = none ↔
    (info.fInTried = true → info.nLastSuccess ≠ 0 ∧ info.nRefCount = 0) ∧
    (info.fInTried = false → 1 ≤ info.nRefCount ∧ info.nRefCount ≤ addrmanNewBucketsPerAddress) ∧
    (am.mapAddr info.ip).getD 0 = n ∧ at? am.vRandom info.nRandomPos = some n ∧
    0 ≤ info.nLastTry.toInt ∧ 0 ≤ info.nLastSuccess.toInt := by
  rw [checkInfo]
  cases info.fInTried with
  | false =>
    simp only [Bool.false_eq_true, not_false_eq_true, true_and, false_and, if_false, gt_iff_lt]
    split_ifs <;> simp_all <;> omega
  | true =>
    simp only [not_true_eq_false, false_and, if_false, true_and]
    split_ifs <;> simp_all

theorem mapNew_pos (h : ∀ n info, am.info? n = some info → am.checkInfo n info = none) (n r : ℤ)
    (hr : am.mapNew.lookup n = some r) : 0 < r := by
  rw [lookup_mapNew] at hr
  split_ifs at hr with hn
  obtain ⟨info,hinfo,hnew⟩ := mem_idsWith.mp hn
  rw [hinfo] at hr
  have hbounds := (checkInfo_eq_none.mp (h n info hinfo)).2.1 ((Bool.not_eq_true' _).mp hnew)
  rw [← show info.nRefCount = r from Option.some.inj hr]
  omega

theorem checkInfos_eq_none : (am.ids.findSome? fun n => (am.info? n).bind (am.checkInfo n)) = none ↔
    ∀ n info, am.info? n = some info → am.checkInfo n info = none := by
  rw [List.findSome?_eq_none_iff]
  constructor
  · intro h n info hinfo
    have hn := h n (mem_ids.mpr ⟨info, hinfo⟩)
    rwa [hinfo, Option.bind_some] at hn
  · intro h n hn
    obtain ⟨info,hinfo⟩ := mem_ids.mp hn
    rw [hinfo, Option.bind_some]
    exact h n info hinfo

/-- The checks of `Check_`, one after the other. -/
theorem check_eq_zero : am.check = 0 ↔ (am.vRandom.length : ℤ) = am.nTried+am.nNew ∧
    (∀ n info, am.info? n = some info → am.checkInfo n info = none) ∧
    ((am.idsWith (·.fInTried)).card : ℤ) = am.nTried ∧ (am.mapNew.keys.length : ℤ) = am.nNew ∧
    eraseTried ((List.finRange addrmanTriedBucketCount).flatMap am.vvTried) (am.idsWith (·.fInTried)) =
      some ∅ ∧
    ∃ left, countNew ((List.finRange addrmanNewBucketCount).flatMap fun b =>
      (am.vvNew b).sort (· ≤ ·)) am.mapNew = some left ∧ left.keys = [] := by
  rw [← checkInfos_eq_none, check]
  constructor
  · intro h
    split_ifs at h with hsize
    refine ⟨not_not.mp hsize, ?_⟩
    cases hcodes : (am.ids.findSome? fun n => (am.info? n).bind (am.checkInfo n)) with
    | some code =>
      -- the code of an entry is not zero
      rw [hcodes] at h
      obtain ⟨n,-,hn⟩ := List.exists_of_findSome?_eq_some hcodes
      obtain ⟨info,-,hcode⟩ := Option.bind_eq_some_iff.mp hn
      rw [show code = 0 from h] at hcode
      exact absurd hcode (checkInfo_ne_zero n info)
    | none =>
      rw [hcodes] at h
      dsimp only at h
      split_ifs at h with hnTried hnNew
      refine ⟨rfl, not_not.mp hnTried, not_not.mp hnNew, ?_⟩
      cases hsetTried : eraseTried ((List.finRange addrmanTriedBucketCount).flatMap am.vvTried)
          (am.idsWith (·.fInTried)) with
      | none =>
        rw [hsetTried] at h
        cases h
      | some setTried =>
        rw [hsetTried] at h
        dsimp only at h
        cases hmapNew : countNew ((List.finRange addrmanNewBucketCount).flatMap fun b =>
            (am.vvNew b).sort (· ≤ ·)) am.mapNew with
        | none =>
          rw [hmapNew] at h
          cases h
        | some left =>
          rw [hmapNew] at h
          dsimp only at h
          split_ifs at h with hempty hkeys
          exact ⟨congrArg some (not_not.mp hempty), left, rfl, not_not.mp hkeys⟩
  · rintro ⟨hsize,hinfos,hnTried,hnNew,hsetTried,left,hmapNew,hkeys⟩
    rw [if_neg (not_not.mpr hsize), hinfos]
    dsimp only
    rw [if_neg (not_not.mpr hnTried), if_neg (not_not.mpr hnNew), hsetTried]
    dsimp only
    rw [hmapNew]
    dsimp only
    rw [if_neg (not_not.mpr rfl), if_neg (not_not.mpr hkeys)]

/-- The tried buckets have every tried entry once. -/
theorem eraseTried_eq_empty :
    eraseTried ((List.finRange addrmanTriedBucketCount).flatMap am.vvTried) (am.idsWith (·.fInTried)) =
        some ∅ ↔
      ((List.finRange addrmanTriedBucketCount).flatMap am.vvTried).Nodup ∧
        ∀ n, (∃ b, n ∈ am.vvTried b) ↔ n ∈ am.idsWith (·.fInTried) := by
  have hmem (n : ℤ) : n ∈ (List.finRange addrmanTriedBucketCount).flatMap am.vvTried ↔
      ∃ b, n ∈ am.vvTried b := by
    rw [List.mem_flatMap]
    constructor
    · rintro ⟨b,-,hb⟩
      exact ⟨b, hb⟩
    · rintro ⟨b,hb⟩
      exact ⟨b, List.mem_finRange b, hb⟩
  rw [eraseTried_eq_some, eq_comm, Finset.sdiff_eq_empty_iff_subset]
  refine and_congr_right fun _ => ?_
  -- with nothing left over, the set is what the buckets hold
  simp only [← hmem]
  constructor
  · rintro ⟨hsub,hall⟩ n
    exact ⟨hsub n, fun hn => List.mem_toFinset.mp (hall hn)⟩
  · intro h
    exact ⟨fun n => (h n).mp, fun n hn => List.mem_toFinset.mpr ((h n).mpr hn)⟩

/-- The new buckets have every new entry as often as its count says, and nothing else. -/
theorem countNew_eq_empty (hinfo : ∀ n info, am.info? n = some info → am.checkInfo n info = none) :
    (∃ left, countNew ((List.finRange addrmanNewBucketCount).flatMap fun b =>
        (am.vvNew b).sort (· ≤ ·)) am.mapNew = some left ∧ left.keys = []) ↔
      (∀ b n, n ∈ am.vvNew b → n ∈ am.idsWith (!·.fInTried)) ∧
        ∀ n info, am.info? n = some info → info.fInTried = false →
          info.nRefCount = refsTo am.vvNew n := by
  have hcount (n : ℤ) : ((List.finRange addrmanNewBucketCount).flatMap fun b =>
      (am.vvNew b).sort (· ≤ ·)).count n = refsTo am.vvNew n := by
    rw [count_newBuckets, ← newBucketsOf_eq]
    rfl
  -- each bucket is a set, so an identifier is counted once for each bucket that holds it
  rw [countNew_exact (mapNew_pos hinfo)]
  simp only [hcount, lookup_mapNew]
  constructor
  · intro hcounts
    refine ⟨fun b n hn => ?_, fun n info hn hnew => ?_⟩
    -- an identifier without a count must be in no bucket
    · by_contra hout
      have hzero := hcounts n
      rw [if_neg hout] at hzero
      exact refsTo_eq_zero_iff.mp (Int.natCast_eq_zero.mp hzero) b hn
    · have hmem : n ∈ am.idsWith (!·.fInTried) := mem_idsWith.mpr ⟨info, hn, by rw [hnew]; rfl⟩
      have hrefs := hcounts n
      rw [if_pos hmem, hn] at hrefs
      exact hrefs.symm
  · rintro ⟨hnew,hrefs⟩ n
    by_cases hn : n ∈ am.idsWith (!·.fInTried)
    · rw [if_pos hn]
      obtain ⟨info,hninfo,hnot⟩ := mem_idsWith.mp hn
      rw [hninfo]
      exact (hrefs n info hninfo ((Bool.not_eq_true' _).mp hnot)).symm
    · rw [if_neg hn]
      exact Int.natCast_eq_zero.mpr (refsTo_eq_zero_iff.mpr fun b hb => hn (hnew b n hb))

/-- `Check_` accepts exactly the checked states. -/
theorem check_eq_zero_iff : am.check = 0 ↔ am.Checked := by
  rw [check_eq_zero, keys_mapNew, eraseTried_eq_empty]
  constructor
  · rintro ⟨hsize,hinfo,hnTried,hnNew,⟨honce,htried⟩,hcounted⟩
    obtain ⟨hnew,hrefs⟩ := (countNew_eq_empty hinfo).mp hcounted
    exact ⟨hsize, hinfo, hnTried, hnNew, honce, htried, hnew, hrefs⟩
  · intro h
    exact ⟨h.size, h.info, h.nTried, h.nNew, ⟨h.once, h.tried⟩,
      (countNew_eq_empty h.info).mpr ⟨h.new, h.refs⟩⟩

end CAddrMan

end Candypool.Net
