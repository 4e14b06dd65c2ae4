import Candypool.Net.AddrConsistent
import Mathlib.Data.List.Perm.Basic

/-! The calls of the address manager keep it consistent. -/
namespace Candypool.Net

namespace CAddrMan
variable {env : AddrEnv} {pending : Option ℤ} {am : CAddrMan}

section MakeTried

/-- The shuffle only reorders the bucket, and the place it returns is within it. -/
theorem selectTriedLoop_spec (am : CAddrMan) (rand : ℕ → ℕ) (turns i : ℕ) (vTried : List ℤ)
    (oldest : Option (ℤ × ℕ))
    (hentry : ∀ n ∈ vTried, ∃ info, am.info? n = some info)
    (holdest : ∀ n p, oldest = some (n,p) → p < vTried.length ∧ ∃ info, am.info? n = some info) :
    ∃ vTried' nPos, am.selectTriedLoop rand turns i vTried oldest = some (vTried',nPos) ∧
      vTried'.Perm vTried ∧ (∀ p, nPos = some p → p < vTried.length) ∧
      (oldest.isSome = true ∨ (0 < turns ∧ i < vTried.length) → nPos.isSome = true) := by
  have hstop (hno : ¬(0 < turns ∧ i < vTried.length)) : vTried.Perm vTried ∧
      (∀ p, oldest.map Prod.snd = some p → p < vTried.length) ∧
      (oldest.isSome = true ∨ (0 < turns ∧ i < vTried.length) →
        (oldest.map Prod.snd).isSome = true) := by
    refine ⟨List.Perm.refl _, fun p hp => ?_, fun hsome => ?_⟩
    · obtain ⟨⟨n,q⟩,hq,rfl⟩ := Option.map_eq_some_iff.mp hp
      exact (holdest n q hq).1
    · rw [Option.isSome_map]
      exact hsome.resolve_right hno
  induction turns generalizing i vTried oldest with
  | zero => exact ⟨vTried, oldest.map Prod.snd, rfl, hstop fun h => absurd h.1 (Nat.lt_irrefl 0)⟩
  | succ turns ih =>
    by_cases hi : i < vTried.length
    · let nPos := rand i % (vTried.length-i)+i
      have hpos : nPos < vTried.length := by
        have hmod := Nat.mod_lt (rand i) (show 0 < vTried.length-i by omega)
        change rand i % (vTried.length-i)+i < _
        omega
      let vNext := (vTried.set nPos vTried[i]).set i vTried[nPos]
      have hperm : vNext.Perm vTried := List.set_set_perm hpos hi
      have hlen : vNext.length = vTried.length := hperm.length_eq
      obtain ⟨info,hinfo⟩ := hentry vTried[nPos] (List.getElem_mem hpos)
      -- whichever entry is kept as the oldest one
      have hgo (kept : ℤ × ℕ) (hkept : kept = (vTried[nPos],nPos) ∨ oldest = some kept) :
          ∃ vTried' p, am.selectTriedLoop rand turns (i+1) vNext (some kept) = some (vTried',p) ∧
            vTried'.Perm vTried ∧ (∀ q, p = some q → q < vTried.length) ∧ p.isSome = true := by
        have hkeptSpec : kept.2 < vNext.length ∧ ∃ info, am.info? kept.1 = some info := by
          rw [hlen]
          rcases hkept with rfl | hkept
          · exact ⟨hpos, info, hinfo⟩
          · exact holdest kept.1 kept.2 hkept
        have hnextOldest : ∀ n p, some kept = some (n,p) →
            p < vNext.length ∧ ∃ info, am.info? n = some info := by
          intro n p heq
          rw [Option.some.inj heq] at hkeptSpec
          exact hkeptSpec
        obtain ⟨vTried',p,hloop,hperm',hbound,hsome⟩ := ih (i+1) vNext (some kept)
          (fun n hn => hentry n (hperm.mem_iff.mp hn)) hnextOldest (by
            intro hno
            refine ⟨List.Perm.refl _, fun p hp => ?_, fun _ => rfl⟩
            rw [← show kept.2 = p from Option.some.inj hp]
            exact hkeptSpec.1)
        refine ⟨vTried', p, hloop, hperm'.trans hperm, fun q hq => ?_, hsome (Or.inl rfl)⟩
        rw [← hlen]
        exact hbound q hq
      have hget : vTried[rand i % (vTried.length-i)+i]? = some vTried[nPos] :=
        List.getElem?_eq_getElem hpos
      have hfirst : vTried[i]? = some vTried[i] := List.getElem?_eq_getElem hi
      cases oldest with
      | none =>
        obtain ⟨vTried',p,hloop,hperm',hbound,hsome⟩ := hgo _ (Or.inl rfl)
        refine ⟨vTried', p, ?_, hperm', hbound, fun _ => hsome⟩
        rw [selectTriedLoop, if_pos hi]
        simp only [hget, hfirst, Option.bind_eq_bind, Option.bind_some]
        exact hloop
      | some old =>
        obtain ⟨nOldest,nOldestPos⟩ := old
        obtain ⟨-,infoOldest,hinfoOldest⟩ := holdest nOldest nOldestPos rfl
        obtain ⟨vTried',p,hloop,hperm',hbound,hsome⟩ :=
          hgo (if info.nLastSuccess.toInt < infoOldest.nLastSuccess.toInt then (vTried[nPos],nPos)
            else (nOldest,nOldestPos)) (by
              split_ifs
              · exact Or.inl rfl
              · exact Or.inr rfl)
        refine ⟨vTried', p, ?_, hperm', hbound, fun _ => hsome⟩
        rw [apply_ite some] at hloop
        rw [selectTriedLoop, if_pos hi]
        simp only [hget, hfirst, Option.bind_eq_bind, Option.bind_some, hinfo, hinfoOldest]
        exact hloop
    · refine ⟨vTried, oldest.map Prod.snd, ?_, hstop fun h => hi h.2⟩
      unfold selectTriedLoop
      rw [if_neg hi]

theorem selectTried_spec (am : CAddrMan) (rand : ℕ → ℕ) {vTried : List ℤ} (hne : 0 < vTried.length)
    (hentry : ∀ n ∈ vTried, ∃ info, am.info? n = some info) :
    ∃ vTried' nPos, am.selectTried rand vTried = some (vTried',some nPos) ∧ vTried'.Perm vTried ∧
      nPos < vTried.length := by
  obtain ⟨vTried',p,hloop,hperm,hbound,hsome⟩ := selectTriedLoop_spec am rand
    addrmanTriedEntriesInspectOnEvict 0 vTried none hentry fun n p h => (by cases h)
  obtain ⟨nPos,rfl⟩ := Option.isSome_iff_exists.mp (hsome (Or.inr ⟨by decide, hne⟩))
  exact ⟨vTried', nPos, hloop, hperm, hbound nPos rfl⟩

theorem triedCount_update (vvTried : TriedBucket → List ℤ) (k : TriedBucket) (v : List ℤ) :
    triedCount (Function.update vvTried k v)+(vvTried k).length = triedCount vvTried+v.length := by
  have hupdate : (fun b => (Function.update vvTried k v b).length) =
      Function.update (fun b => (vvTried b).length) k v.length := by
    funext b
    by_cases hb : b = k
    · rw [hb, Function.update_self, Function.update_self]
    · rw [Function.update_of_ne hb, Function.update_of_ne hb]
  have hsplit := Finset.add_sum_erase Finset.univ (fun b => (vvTried b).length) (Finset.mem_univ k)
  rw [triedCount, hupdate, Finset.sum_update_of_mem (Finset.mem_univ k), triedCount, ← hsplit,
    Finset.sdiff_singleton_eq_erase]
  omega

theorem length_update_le {vvTried : TriedBucket → List ℤ} {k : TriedBucket} {v : List ℤ} {m : ℕ}
    (h : ∀ b, (vvTried b).length ≤ m) (hv : v.length ≤ m) (b : TriedBucket) :
    (Function.update vvTried k v b).length ≤ m := by
  by_cases hb : b = k
  · rw [hb, Function.update_self]
    exact hv
  · rw [Function.update_of_ne hb]
    exact h b

/-- Writing over an entry is taking it out and putting the new one in. -/
theorem evict_perm {vTried : List ℤ} {nPos : ℕ} {nOld : ℤ} (nId : ℤ) (h : vTried[nPos]? = some nOld) :
    (vTried.set nPos nId).Perm (vTried.erase nOld ++ [nId]) := by
  obtain ⟨hlt,hget⟩ := List.getElem?_eq_some_iff.mp h
  have hrest : (vTried.eraseIdx nPos).Perm (vTried.erase nOld) := by
    have hmem : nOld ∈ vTried := List.mem_of_getElem? h
    have hcons := (List.getElem_cons_eraseIdx_perm hlt).trans (List.perm_cons_erase hmem)
    rw [hget] at hcons
    exact hcons.cons_inv
  apply (List.set_perm_cons_eraseIdx hlt nId).trans
  apply (hrest.cons nId).trans
  exact (List.perm_append_singleton _ _).symm

section Move
variable {nId : ℤ} {info info' : CAddrInfo} {r : ℤ} {k : TriedBucket} {am' : CAddrMan}

/-- A new entry goes to the end of its tried bucket. -/
theorem Consistent.addTried (h : Consistent env none am) (hinfo : am.info? nId = some info)
    (hrole : am.role env nId = some (none,r)) (hsame : SameIndex am am')
    (hinfos : am'.info? = Function.update am.info? nId (some info')) (hpos : info'.pos = info.pos)
    (htimed : info'.Timed) (hrole' : info'.role env am.nKey = (some k,0))
    (hroom : (am.vvTried k).length < addrmanTriedBucketSize)
    (hvvTried : am'.vvTried = Function.update am.vvTried k (am.vvTried k ++ [nId]))
    (hvvNew : am'.vvNew = fun b => (am.vvNew b).erase nId) (hnTried : am'.nTried = am.nTried+1)
    (hnNew : am'.nNew = am.nNew-1) : Consistent env none am' := by
  apply h.rebuild hsame
  -- the place of the entry is the same: only its role changes
  · rw [pos_of_update hinfos, hpos, ← pos_eq hinfo, Function.update_eq_self]
  · exact timed_of_update hinfos htimed h.timed
  · rw [role_of_update hsame.nKey hinfos, hrole', hvvTried, hvvNew]
    exact h.placed.promote hrole k
  · have hcount := triedCount_update am.vvTried k (am.vvTried k ++ [nId])
    rw [List.length_append, List.length_singleton] at hcount
    rw [hnTried, hvvTried, h.nTried]
    omega
  · rw [hnTried, hnNew]
    omega
  · rw [hvvTried]
    apply length_update_le h.triedSize
    rw [List.length_append, List.length_singleton]
    exact hroom
  · intro b
    rw [hvvNew]
    exact Finset.card_erase_le.trans (h.newSize b)

/-- A new entry takes the place of one in its tried bucket, which goes to a new bucket. -/
theorem Consistent.exchange (h : Consistent env none am) (hinfo : am.info? nId = some info)
    (hrole : am.role env nId = some (none,r)) {nOld : ℤ} {infoOld : CAddrInfo}
    (hinfoOld : am.info? nOld = some infoOld) (hne : nOld ≠ nId) (hsame : SameIndex am am')
    (hinfos : am'.info? = Function.update
      (am.setInfo nOld { infoOld with fInTried := false, nRefCount := 1 }).info? nId (some info'))
    (hpos : info'.pos = info.pos) (htimed : info'.Timed)
    (hrole' : info'.role env am.nKey = (some k,0)) {vTried : List ℤ} (hperm : vTried.Perm (am.vvTried k))
    {nPos : ℕ} (hold : vTried[nPos]? = some nOld) {nBack : NewBucket}
    (hspace : ((am.vvNew nBack).erase nId).card < addrmanNewBucketSize)
    (hvvTried : am'.vvTried = Function.update am.vvTried k (vTried.set nPos nId))
    (hvvNew : am'.vvNew = Function.update (fun b => (am.vvNew b).erase nId) nBack
      (insert nOld ((am.vvNew nBack).erase nId)))
    (hnTried : am'.nTried = am.nTried) (hnNew : am'.nNew = am.nNew-1+1) : Consistent env none am' := by
  have hlen : (vTried.set nPos nId).length = (am.vvTried k).length := by
    rw [List.length_set, hperm.length_eq]
  apply h.rebuild hsame
  · rw [pos_of_update hinfos, pos_setInfo, hpos]
    change Function.update (Function.update am.pos nOld (some infoOld.pos)) nId (some info.pos) = am.pos
    rw [← pos_eq hinfoOld, Function.update_eq_self, ← pos_eq hinfo, Function.update_eq_self]
  · have ht := h.timed nOld infoOld hinfoOld
    apply timed_of_update hinfos htimed
    exact timed_of_update (info?_setInfo _ _ _)
      ⟨fun hfalse => (by cases hfalse), ht.nLastTry, ht.nLastSuccess⟩ h.timed
  · have hkey : am'.nKey = (am.setInfo nOld { infoOld with fInTried := false, nRefCount := 1 }).nKey :=
      hsame.nKey
    rw [role_of_update hkey hinfos, role_setInfo]
    change Placed none (Function.update (Function.update (am.role env) nOld (some (none,1))) nId
      (some (info'.role env am.nKey))) _ _
    rw [hrole']
    -- the shuffle, the eviction, and the entry in its place
    have hshuffle : Placed none (am.role env) (Function.update am.vvTried k vTried) am.vvNew := by
      apply h.placed.perm
      intro b
      by_cases hb : b = k
      · rw [hb, Function.update_self]
        exact hperm
      · rw [Function.update_of_ne hb]
    have hmem : nOld ∈ Function.update am.vvTried k vTried k := by
      rw [Function.update_self]
      exact List.mem_of_getElem? hold
    have hroleId : Function.update (am.role env) nOld (some (none,(1 : ℤ))) nId = some (none,r) := by
      rw [Function.update_of_ne (Ne.symm hne)]
      exact hrole
    have hpromote := (hshuffle.demote hmem nBack).promote hroleId k
    rw [Function.update_self, Function.update_self, Function.update_idem, Function.update_idem]
      at hpromote
    have herase : (fun b => (Function.update am.vvNew nBack (insert nOld (am.vvNew nBack)) b).erase
        nId) = am'.vvNew := by
      rw [hvvNew]
      funext b
      by_cases hb : b = nBack
      · rw [hb, Function.update_self, Function.update_self]
        exact Finset.erase_insert_of_ne hne
      · rw [Function.update_of_ne hb, Function.update_of_ne hb]
    rw [herase] at hpromote
    apply hpromote.perm
    intro b
    rw [hvvTried]
    by_cases hb : b = k
    · rw [hb, Function.update_self, Function.update_self]
      exact evict_perm nId hold
    · rw [Function.update_of_ne hb, Function.update_of_ne hb]
  · have hcount := triedCount_update am.vvTried k (vTried.set nPos nId)
    rw [hnTried, hvvTried, h.nTried]
    omega
  · rw [hnTried, hnNew]
    omega
  · rw [hvvTried]
    apply length_update_le h.triedSize
    rw [hlen]
    exact h.triedSize k
  · rw [hvvNew]
    apply card_update_le fun b => Finset.card_erase_le.trans (h.newSize b)
    exact (Finset.card_insert_le _ _).trans hspace

end Move

/-- What `SelectTried` finds in a full bucket, other entries than `nId` being as they were. -/
theorem Consistent.selectTried_full (h : Consistent env none am) {am0 : CAddrMan} {nId : ℤ}
    {info0 : CAddrInfo} (hinfos : am0.info? = Function.update am.info? nId (some info0)) (rand : ℕ → ℕ)
    {k : TriedBucket} (hout : nId ∉ am.vvTried k)
    (hfull : ¬(am.vvTried k).length < addrmanTriedBucketSize) :
    ∃ vTried nPos nOld infoOld, am0.selectTried rand (am.vvTried k) = some (vTried,some nPos) ∧
      vTried.Perm (am.vvTried k) ∧ vTried[nPos]? = some nOld ∧ nOld ≠ nId ∧
      am.info? nOld = some infoOld ∧ am0.info? nOld = some infoOld := by
  -- the bucket does not hold the entry that moves in, so its entries are the old ones
  have hother {n : ℤ} (hn : n ∈ am.vvTried k) : n ≠ nId ∧ am0.info? n = am.info? n := by
    have hne : n ≠ nId := by
      rintro rfl
      exact hout hn
    rw [hinfos, Function.update_of_ne hne]
    exact ⟨hne, rfl⟩
  have hentry : ∀ n ∈ am.vvTried k, ∃ info, am0.info? n = some info := by
    intro n hn
    rw [(hother hn).2]
    exact h.info_of_tried hn
  obtain ⟨vTried,nPos,hselect,hperm,hpos⟩ :=
    selectTried_spec am0 rand (lt_of_lt_of_le (by decide) (Nat.not_lt.mp hfull)) hentry
  have hlt : nPos < vTried.length := by
    rw [hperm.length_eq]
    exact hpos
  have hold := List.getElem?_eq_getElem hlt
  generalize vTried[nPos] = nOld at hold
  have hmem : nOld ∈ am.vvTried k := hperm.mem_iff.mp (List.mem_of_getElem? hold)
  obtain ⟨infoOld,hinfoOld⟩ := h.info_of_tried hmem
  obtain ⟨hne,heq⟩ := hother hmem
  exact ⟨vTried, nPos, nOld, infoOld, hselect, hperm, hold, hne, hinfoOld, heq.trans hinfoOld⟩

/-- `MakeTried` meets its assertions; an evicted entry finds a place in a new bucket. -/
theorem makeTried_spec (h : Consistent env none am) (rand : ℕ → ℕ) {nId : ℤ} {info : CAddrInfo}
    {nOrigin : NewBucket} (hinfo : am.info? nId = some info) (hin : nId ∈ am.vvNew nOrigin)
    (hgood : info.nLastSuccess ≠ 0) :
    ∃ am', am.makeTried env rand nId nOrigin = some am' ∧ Consistent env none am' := by
  obtain ⟨r,hrole⟩ := h.placed.new nOrigin nId hin
  have hinfoRole : info.role env am.nKey = (none,r) :=
    Option.some.inj ((role_eq hinfo).symm.trans hrole)
  obtain ⟨hnew,hr⟩ := role_new hinfoRole
  -- no reference is missing, so the count equals the buckets that hold it
  have hrefs : r = refsTo am.vvNew nId := by
    have hcount := h.placed.refs nId none r hrole
    rw [if_neg (Option.some_ne_none nId).symm] at hcount
    omega
  have ht := h.timed nId info hinfo
  let k := env.getTriedBucket am.nKey info.toCService
  let info0 : CAddrInfo := { info with nRefCount := info.nRefCount-am.newBucketsOf nId }
  let info1 : CAddrInfo := { info0 with fInTried := true }
  -- it leaves all of them, so the assertion on the count holds
  have hzero : info.nRefCount-(am.newBucketsOf nId : ℤ) = 0 := by
    rw [newBucketsOf_eq, hr, hrefs, sub_self]
  have hrole1 : info1.role env am.nKey = (some k,0) := by
    rw [CAddrInfo.role, if_pos rfl, Prod.mk.injEq]
    exact ⟨rfl, hzero⟩
  have htimed1 : info1.Timed := ⟨fun _ => hgood, ht.nLastTry, ht.nLastSuccess⟩
  let am0 : CAddrMan := { am.setInfo nId info0 with
    vvNew := fun b => (am.vvNew b).erase nId
    nNew := am.nNew-1 }
  have hinfos0 : am0.info? = Function.update am.info? nId (some info0) := info?_setInfo am nId info0
  -- a bucket with room takes the entry; a full one gives another back to new
  by_cases hroom : (am.vvTried k).length < addrmanTriedBucketSize
  · let am1 : CAddrMan := { am0.setInfo nId info1 with
      vvTried := Function.update am.vvTried k (am.vvTried k ++ [nId])
      nTried := am.nTried+1 }
    have hinfos : am1.info? = Function.update am.info? nId (some info1) := by
      change (am0.setInfo nId info1).info? = _
      rw [info?_setInfo, hinfos0, Function.update_idem]
    refine ⟨am1, ?_, h.addTried hinfo hrole ⟨rfl, rfl, rfl, rfl⟩ hinfos rfl htimed1 hrole1 hroom rfl rfl
      rfl rfl⟩
    rw [makeTried, hinfo]
    simp only [Option.bind_eq_bind, Option.bind_some]
    rw [if_neg (not_not.mpr hin), if_neg (not_not.mpr hzero)]
    exact if_pos hroom
  -- a new entry is in no tried bucket
  · have hout : nId ∉ am.vvTried k := by
      intro hmem
      obtain ⟨refs,hrefs⟩ := (h.placed.tried k nId).mp hmem
      rw [hrole] at hrefs
      cases hrefs
    obtain ⟨vTried,nPos,nOld,infoOld,hselect,hperm,hold,hne,hinfoOld,hinfoOld0⟩ :=
      h.selectTried_full hinfos0 rand hout hroom
    let infoOld' : CAddrInfo := { infoOld with fInTried := false, nRefCount := 1 }
    let nUBucket := env.getNewBucket am.nKey infoOld.ip infoOld.source
    let nBack := if (am0.vvNew nUBucket).card < addrmanNewBucketSize then nUBucket else nOrigin
    let am1 : CAddrMan := { (am0.setInfo nOld infoOld').setInfo nId info1 with
      vvNew := Function.update am0.vvNew nBack (insert nOld (am0.vvNew nBack))
      nNew := am0.nNew+1
      vvTried := Function.update am.vvTried k (vTried.set nPos nId) }
    have hinfos : am1.info? = Function.update (am.setInfo nOld infoOld').info? nId (some info1) := by
      calc
        am1.info? = Function.update (Function.update am0.info? nOld (some infoOld')) nId (some info1) := by
          change ((am0.setInfo nOld infoOld').setInfo nId info1).info? = _
          rw [info?_setInfo, info?_setInfo]
        _ = Function.update (Function.update am.info? nOld (some infoOld')) nId (some info1) := by
          rw [hinfos0, Function.update_comm hne, Function.update_idem, Function.update_comm (Ne.symm hne)]
        _ = Function.update (am.setInfo nOld infoOld').info? nId (some info1) := by rw [info?_setInfo]
    -- the bucket the old entry goes back to has room
    have hspace : (am0.vvNew nBack).card < addrmanNewBucketSize := by
      by_cases hspace : (am0.vvNew nUBucket).card < addrmanNewBucketSize
      · rw [show nBack = nUBucket from if_pos hspace]
        exact hspace
      · -- `nId` left its bucket of origin
        rw [show nBack = nOrigin from if_neg hspace]
        exact (Finset.card_erase_lt_of_mem hin).trans_le (h.newSize nOrigin)
    refine ⟨am1, ?_, h.exchange hinfo hrole hinfoOld hne ⟨rfl, rfl, rfl, rfl⟩ hinfos rfl htimed1 hrole1
      hperm hold hspace rfl rfl rfl rfl⟩
    rw [makeTried, hinfo]
    simp only [Option.bind_eq_bind, Option.bind_some]
    rw [if_neg (not_not.mpr hin), if_neg (not_not.mpr hzero)]
    refine (if_neg hroom).trans ?_
    change (am0.selectTried rand (am.vvTried k)).bind _ = _
    rw [hselect]
    simp only [Option.bind_some, hold]
    change (am0.info? nOld).bind _ = _
    rw [hinfoOld0]
    rfl

end MakeTried

section Add

/-- The bucket takes the entry, after it lost one if it was full. -/
theorem addToBucket_spec (am : CAddrMan) (nNow : ℤ) (rand : ℕ → ℕ) (nId : ℤ) (info : CAddrInfo)
    (source : CNetAddr)
    (hin : nId ∈ am.vvNew (env.getNewBucket am.nKey info.ip source) → Consistent env none am)
    (hout : nId ∉ am.vvNew (env.getNewBucket am.nKey info.ip source) →
      Consistent env (some nId) (am.setInfo nId { info with nRefCount := info.nRefCount+1 })) :
    ∃ am', am.addToBucket env nNow rand nId info source = some am' ∧ Consistent env none am' := by
  generalize hb : env.getNewBucket am.nKey info.ip source = b at hin hout
  by_cases hmem : nId ∈ am.vvNew b
  · refine ⟨am, ?_, hin hmem⟩
    rw [addToBucket, hb]
    exact if_pos hmem
  have hwait := hout hmem
  generalize ham1 : am.setInfo nId { info with nRefCount := info.nRefCount+1 } = am1 at hwait
  have hvv1 : am1.vvNew = am.vvNew := by
    rw [← ham1]
    rfl
  -- the bucket has a place for the entry
  have hsettle (am2 : CAddrMan) (h2 : Consistent env (some nId) am2) (hout2 : nId ∉ am2.vvNew b)
      (hroom : (am2.vvNew b).card < addrmanNewBucketSize) : Consistent env none
        { am2 with vvNew := Function.update am2.vvNew b (insert nId (am2.vvNew b)) } :=
    ⟨h2.nIdCount, h2.fresh, h2.indexed, h2.placed.settle hout2, h2.nTried, h2.nNew, h2.triedSize,
      card_update_le h2.newSize ((Finset.card_insert_le _ _).trans hroom), h2.timed⟩
  by_cases hfull : (am.vvNew b).card = addrmanNewBucketSize
  · rw [← hvv1] at hfull
    obtain ⟨am2,hshrink,h2,-,n,hn,hvv2⟩ := shrinkNew_spec hwait (b := b) nNow rand (by
      rw [hfull]
      decide) (by
        intro m hm
        rw [← Option.some.inj hm, hvv1]
        exact hmem)
    refine ⟨_, ?_, hsettle am2 h2 ?_ ?_⟩
    · rw [addToBucket, hb]
      refine (if_neg hmem).trans ?_
      rw [← hvv1, if_pos hfull, ham1, hshrink]
      rfl
    · rw [hvv2, Function.update_self, hvv1]
      exact fun hback => hmem (Finset.mem_of_mem_erase hback)
    · rw [hvv2, Function.update_self, ← hfull]
      exact Finset.card_erase_lt_of_mem hn
  · refine ⟨_, ?_, hsettle am1 hwait ?_ ?_⟩
    · rw [addToBucket, hb]
      refine (if_neg hmem).trans ?_
      rw [if_neg hfull, ham1]
      rfl
    · rw [hvv1]
      exact hmem
    · rw [hvv1]
      have hle := hwait.newSize b
      rw [hvv1] at hle
      exact lt_of_le_of_ne hle hfull

/-- What the update of a known entry leaves as it is, and what it grants. -/
theorem refresh_spec (info : CAddrInfo) (nAdjustedTime : ℤ) (rand : ℕ → ℕ) (addr : CAddress)
    (nTimePenalty : ℤ) :
    (refresh info nAdjustedTime rand addr nTimePenalty).2.toCService = info.toCService ∧
    (refresh info nAdjustedTime rand addr nTimePenalty).2.nRandomPos = info.nRandomPos ∧
    (refresh info nAdjustedTime rand addr nTimePenalty).2.nRefCount = info.nRefCount ∧
    (refresh info nAdjustedTime rand addr nTimePenalty).2.fInTried = info.fInTried ∧
    (refresh info nAdjustedTime rand addr nTimePenalty).2.nLastTry = info.nLastTry ∧
    (refresh info nAdjustedTime rand addr nTimePenalty).2.nLastSuccess = info.nLastSuccess ∧
    ((refresh info nAdjustedTime rand addr nTimePenalty).1 = true →
      info.fInTried = false ∧ info.nRefCount ≠ addrmanNewBucketsPerAddress) := by
  unfold refresh
  -- only the time and the services change before the tests, and each test only returns
  extract_lets time fOnline nInterval info1 info2 nFactor
  have h1 : info1.toCService = info.toCService ∧ info1.nRandomPos = info.nRandomPos ∧
      info1.nRefCount = info.nRefCount ∧ info1.fInTried = info.fInTried ∧
      info1.nLastTry = info.nLastTry ∧ info1.nLastSuccess = info.nLastSuccess := by
    unfold info1
    split_ifs <;> exact ⟨rfl, rfl, rfl, rfl, rfl, rfl⟩
  obtain ⟨hservice,hplace,hrefs,htried,hlastTry,hlastSuccess⟩ := h1
  have hsame : info2.toCService = info.toCService ∧ info2.nRandomPos = info.nRandomPos ∧
      info2.nRefCount = info.nRefCount ∧ info2.fInTried = info.fInTried ∧
      info2.nLastTry = info.nLastTry ∧ info2.nLastSuccess = info.nLastSuccess :=
    ⟨hservice, hplace, hrefs, htried, hlastTry, hlastSuccess⟩
  obtain ⟨h2,h3,h4,h5,h6,h7⟩ := hsame
  split_ifs with hstale hinTried hmax hrandom
  · exact ⟨h2, h3, h4, h5, h6, h7, fun h => (by cases h)⟩
  · exact ⟨h2, h3, h4, h5, h6, h7, fun h => (by cases h)⟩
  · exact ⟨h2, h3, h4, h5, h6, h7, fun h => (by cases h)⟩
  · exact ⟨h2, h3, h4, h5, h6, h7, fun h => (by cases h)⟩
  · refine ⟨h2, h3, h4, h5, h6, h7, fun _ => ⟨?_, ?_⟩⟩
    · rw [← h5]
      exact Bool.eq_false_of_not_eq_true hinTried
    · rw [← h4]
      exact hmax

theorem find_spec (h : Consistent env pending am) (addr : CNetAddr) :
    (am.find addr = none ∧ am.mapAddr addr = none) ∨
      ∃ nId info, am.find addr = some (nId,info) ∧ am.info? nId = some info := by
  cases haddr : am.mapAddr addr with
  | none =>
    left
    refine ⟨?_, rfl⟩
    rw [find, haddr]
    rfl
  | some nId =>
    right
    obtain ⟨p,hp⟩ := (h.indexed.key addr nId).mp haddr
    obtain ⟨info,hinfo,-⟩ := info_of_pos hp
    refine ⟨nId, info, ?_, hinfo⟩
    rw [find, haddr, Option.bind_eq_bind, Option.bind_some, hinfo]
    rfl

theorem Consistent.unknown (h : Consistent env pending am) : am.info? am.nIdCount = none := by
  cases hn : am.info? am.nIdCount with
  | none => rfl
  | some info => exact absurd (h.fresh _ info hn).2 (lt_irrefl _)

/-- An entry under the next id, at the end of the random order, that is about to go to a bucket. -/
theorem Consistent.create (h : Consistent env none am) {am' : CAddrMan} {info : CAddrInfo}
    (hinfos : am'.info? = Function.update am.info? am.nIdCount (some info))
    (hpos : info.pos = (info.ip,(am.vRandom.length : ℤ))) (hrole : info.role env am.nKey = (none,0+1))
    (htimed : info.Timed) (haddr : am.mapAddr info.ip = none) (hkey : am'.nKey = am.nKey)
    (hcount : am'.nIdCount = am.nIdCount+1)
    (hmap : am'.mapAddr = Function.update am.mapAddr info.ip (some am.nIdCount))
    (hrandom : am'.vRandom = am.vRandom ++ [am.nIdCount]) (hnTried : am'.nTried = am.nTried)
    (hvvTried : am'.vvTried = am.vvTried) (hnNew : am'.nNew = am.nNew+1)
    (hvvNew : am'.vvNew = am.vvNew) : Consistent env (some am.nIdCount) am' := by
  -- the next identifier is not in use, so it has neither a role nor a reference
  have hunknown : am.role env am.nIdCount = none := by
    rw [role, h.unknown]
    rfl
  have hnone (b : NewBucket) : am.nIdCount ∉ am.vvNew b := by
    apply h.placed.not_new
    intro refs
    rw [hunknown]
    exact (Option.some_ne_none _).symm
  refine ⟨?_, fun n infon hn => ?_, ?_, ?_, ?_, ?_, hvvTried ▸ h.triedSize, hvvNew ▸ h.newSize,
    timed_of_update hinfos htimed h.timed⟩
  · rw [hcount]
    exact Int.le_add_one h.nIdCount
  · rw [hinfos] at hn
    rw [hcount]
    by_cases hne : n = am.nIdCount
    · rw [hne]
      exact ⟨h.nIdCount, Int.lt_add_one_iff.mpr (le_refl _)⟩
    · rw [Function.update_of_ne hne] at hn
      have hold := h.fresh n infon hn
      exact ⟨hold.1, by omega⟩
  -- it is the last of the random order and the new entry of its address
  · rw [pos_of_update hinfos, hpos, hmap, hrandom]
    apply h.indexed.push
    · rw [pos, h.unknown]
      rfl
    · exact haddr
  -- its count is one and no bucket holds it yet, so it is the entry that waits
  · rw [role_of_update hkey hinfos, hrole, hvvTried, hvvNew]
    apply h.placed.request
    · intro e he
      rw [hunknown] at he
      cases he
    · rw [refsTo_eq_zero_iff.mpr hnone]
      rfl
    · decide
  · rw [hnTried, hvvTried]
    exact h.nTried
  -- both sides of the sum of the counts grow by one
  · have hsum := h.nNew
    rw [hnTried, hnNew, hrandom, List.length_append, List.length_singleton]
    push_cast
    omega

/-- A known new entry with fewer references than the limit is about to go to one more bucket. -/
theorem Consistent.request (h : Consistent env none am) {nId : ℤ} {info : CAddrInfo}
    (hinfo : am.info? nId = some info) (hnew : info.fInTried = false)
    (hfew : info.nRefCount ≠ addrmanNewBucketsPerAddress) :
    Consistent env (some nId) (am.setInfo nId { info with nRefCount := info.nRefCount+1 }) := by
  have hrole : am.role env nId = some (none,info.nRefCount) := by
    rw [role_eq hinfo, role_of_new hnew]
  have ht := h.timed nId info hinfo
  let info' : CAddrInfo := { info with nRefCount := info.nRefCount+1 }
  have hpos : info'.pos = info.pos := rfl
  have htimed : info'.Timed := ⟨ht.tried, ht.nLastTry, ht.nLastSuccess⟩
  have hrole' : info'.role env am.nKey = (none,info.nRefCount+1) := role_of_new hnew
  apply h.setInfo hinfo hpos htimed
  rw [hrole']
  apply h.placed.request
  · intro e he
    rw [hrole] at he
    exact (Option.some.inj he).symm
  -- the count was exact, so one more is what the entry now waits for
  · have hcount := h.placed.refs nId none _ hrole
    rw [if_neg (Option.some_ne_none nId).symm] at hcount
    omega
  · have hbound := h.placed.bounds nId _ hrole
    exact lt_of_le_of_ne hbound.2 hfew

/-- The update keeps the place and the role of an entry. -/
theorem Consistent.refresh (h : Consistent env none am) {nId : ℤ} {info info' : CAddrInfo}
    (hinfo : am.info? nId = some info) {nAdjustedTime : ℤ} {rand : ℕ → ℕ} {addr : CAddress}
    {nTimePenalty : ℤ} {fGoOn : Bool}
    (hrefresh : CAddrMan.refresh info nAdjustedTime rand addr nTimePenalty = (fGoOn,info')) :
    Consistent env none (am.setInfo nId info') ∧ (fGoOn = true →
      info'.fInTried = false ∧ info'.nRefCount ≠ addrmanNewBucketsPerAddress) := by
  obtain ⟨hservice,hplace,hrefs,htried,hlastTry,hlastSuccess,hgo⟩ :=
    refresh_spec info nAdjustedTime rand addr nTimePenalty
  rw [hrefresh] at hservice hplace hrefs htried hlastTry hlastSuccess hgo
  dsimp only at hservice hplace hrefs htried hlastTry hlastSuccess hgo
  -- neither place nor role depends on the time, so the tables still fit
  have hpos : info'.pos = info.pos := by
    rw [CAddrInfo.pos, CAddrInfo.pos, hplace, show info'.ip = info.ip from congrArg _ hservice]
  have hrole : info'.role env am.nKey = info.role env am.nKey := by
    rw [CAddrInfo.role, CAddrInfo.role, htried, hservice, hrefs]
  have ht := h.timed nId info hinfo
  have htimed : info'.Timed := by
    constructor
    · rw [htried, hlastSuccess]
      exact ht.tried
    · rw [hlastTry]
      exact ht.nLastTry
    · rw [hlastSuccess]
      exact ht.nLastSuccess
  refine ⟨h.setInfo_same hinfo hpos htimed hrole, fun hgoes => ?_⟩
  rw [htried, hrefs]
  exact hgo hgoes

/-- An address that is not known gets an entry, and a bucket. -/
theorem add_new_spec (h : Consistent env none am) (nAdjustedTime : ℤ) (rand : ℕ → ℕ) (addr : CAddress)
    (source : CNetAddr) (nTimePenalty : ℤ) (hroutable : ¬(!env.isRoutable addr.ip) = true)
    (hfind : am.find addr.ip = none) (haddr : am.mapAddr addr.ip = none) :
    ∃ fNew am', am.add env nAdjustedTime rand addr source nTimePenalty = some (fNew,am') ∧
      Consistent env none am' := by
  let info0 : CAddrInfo := { CAddrInfo.init addr source with nRandomPos := am.vRandom.length }
  let info1 : CAddrInfo := { info0 with
    nTime := BitVec.ofInt 32 (max 0 ((info0.nTime.toNat : ℤ)-nTimePenalty)) }
  let info2 : CAddrInfo := { info1 with nRefCount := info1.nRefCount+1 }
  let am1 : CAddrMan := { (am.create addr source).setInfo am.nIdCount info1 with nNew := am.nNew+1 }
  have hcreate : (am.create addr source).info? = Function.update am.info? am.nIdCount (some info0) :=
    info?_setInfo am am.nIdCount info0
  have hinfos : (am1.setInfo am.nIdCount info2).info? =
      Function.update am.info? am.nIdCount (some info2) := by
    rw [info?_setInfo]
    change Function.update ((am.create addr source).setInfo am.nIdCount info1).info? _ _ = _
    rw [info?_setInfo, Function.update_idem, hcreate, Function.update_idem]
  -- no bucket holds the new identifier, so it can be added to any
  have hout (b : NewBucket) : am.nIdCount ∉ am.vvNew b := by
    intro hin
    obtain ⟨info,hinfo,-⟩ := h.info_of_new hin
    rw [h.unknown] at hinfo
    cases hinfo
  -- the entry was created and now waits for its first bucket
  have hwait : Consistent env (some am.nIdCount) (am1.setInfo am.nIdCount info2) :=
    h.create hinfos rfl rfl ⟨fun hfalse => (by cases hfalse), le_refl 0, le_refl 0⟩ haddr rfl rfl rfl rfl
      rfl rfl rfl rfl
  obtain ⟨am2,hbucket,h2⟩ := addToBucket_spec am1 nAdjustedTime rand am.nIdCount info1 source
    (fun hin => absurd hin (hout (env.getNewBucket am1.nKey info1.ip source))) fun _ => hwait
  refine ⟨true, am2, ?_, h2⟩
  rw [add, if_neg hroutable, hfind]
  have hself : (am.create addr source).info? am.nIdCount = some info0 := by
    rw [hcreate, Function.update_self]
  simp only [Option.bind_eq_bind, hself, Option.bind_some]
  change (am1.addToBucket env nAdjustedTime rand am.nIdCount info1 source).map _ = _
  rw [hbucket]
  rfl

/-- The entry of a known address is updated, and may get one more bucket. -/
theorem add_known_spec (h : Consistent env none am) (nAdjustedTime : ℤ) (rand : ℕ → ℕ) (addr : CAddress)
    (source : CNetAddr) (nTimePenalty : ℤ) (hroutable : ¬(!env.isRoutable addr.ip) = true) {nId : ℤ}
    {info : CAddrInfo} (hfind : am.find addr.ip = some (nId,info)) (hinfo : am.info? nId = some info) :
    ∃ fNew am', am.add env nAdjustedTime rand addr source nTimePenalty = some (fNew,am') ∧
      Consistent env none am' := by
  cases hrefresh : CAddrMan.refresh info nAdjustedTime rand addr nTimePenalty with
  | mk fGoOn info' =>
    obtain ⟨h1,hgo⟩ := h.refresh hinfo hrefresh
    cases fGoOn with
    | false =>
      refine ⟨false, am.setInfo nId info', ?_, h1⟩
      rw [add, if_neg hroutable, hfind]
      dsimp only
      rw [hrefresh]
      rfl
    | true =>
      obtain ⟨hnew,hfew⟩ := hgo rfl
      have hself : (am.setInfo nId info').info? nId = some info' := by
        rw [info?_setInfo, Function.update_self]
      -- before it is placed the entry waits for the reference just counted
      obtain ⟨am2,hbucket,h2⟩ := addToBucket_spec (am.setInfo nId info') nAdjustedTime rand nId info'
        source (fun _ => h1) fun _ => h1.request hself hnew hfew
      refine ⟨false, am2, ?_, h2⟩
      rw [add, if_neg hroutable, hfind]
      dsimp only
      rw [hrefresh]
      change ((am.setInfo nId info').addToBucket env nAdjustedTime rand nId info' source).map _ = _
      rw [hbucket]
      rfl

theorem add_spec (h : Consistent env none am) (nAdjustedTime : ℤ) (rand : ℕ → ℕ) (addr : CAddress)
    (source : CNetAddr) (nTimePenalty : ℤ) :
    ∃ fNew am', am.add env nAdjustedTime rand addr source nTimePenalty = some (fNew,am') ∧
      Consistent env none am' := by
  by_cases hroutable : (!env.isRoutable addr.ip) = true
  · exact ⟨false, am, if_pos hroutable, h⟩
  · rcases find_spec h addr.ip with ⟨hfind,haddr⟩ | ⟨nId,info,hfind,hinfo⟩
    · exact add_new_spec h nAdjustedTime rand addr source nTimePenalty hroutable hfind haddr
    · exact add_known_spec h nAdjustedTime rand addr source nTimePenalty hroutable hfind hinfo

end Add

section Calls

/-- A known entry at the asked address gets times that are not negative. -/
theorem Consistent.setTimes (h : Consistent env none am) {nId : ℤ} {info info' : CAddrInfo}
    (hinfo : am.info? nId = some info) (hpos : info'.pos = info.pos)
    (hservice : info'.toCService = info.toCService) (hrefs : info'.nRefCount = info.nRefCount)
    (htried : info'.fInTried = info.fInTried) (htimed : info'.Timed) :
    Consistent env none (am.setInfo nId info') := by
  apply h.setInfo_same hinfo hpos htimed
  rw [CAddrInfo.role, CAddrInfo.role, htried, hservice, hrefs]

theorem good_spec (h : Consistent env none am) (rand : ℕ → ℕ) (addr : CService) {nTime : BitVec 64}
    (hnTime : 0 < nTime.toInt) :
    ∃ am', am.good env rand addr nTime = some am' ∧ Consistent env none am' := by
  rcases find_spec h addr.ip with ⟨hfind,-⟩ | ⟨nId,info,hfind,hinfo⟩
  · refine ⟨am, ?_, h⟩
    rw [good, hfind]
  by_cases haddr : info.toCService ≠ addr
  · refine ⟨am, ?_, h⟩
    rw [good, hfind]
    exact if_pos haddr
  let info1 : CAddrInfo := { info with
    nLastSuccess := nTime, nLastTry := nTime, nTime := nTime.setWidth 32, nAttempts := 0 }
  -- the time of the handshake is positive, so a tried entry has one
  have hnonzero : info1.nLastSuccess ≠ 0 := by
    intro hzero
    rw [show nTime = 0 from hzero] at hnTime
    exact lt_irrefl _ hnTime
  have h1 : Consistent env none (am.setInfo nId info1) :=
    h.setTimes hinfo rfl rfl rfl rfl ⟨fun _ => hnonzero, hnTime.le, hnTime.le⟩
  by_cases htried : info.fInTried = true
  · refine ⟨am.setInfo nId info1, ?_, h1⟩
    rw [good, hfind]
    refine (if_neg haddr).trans ?_
    exact if_pos htried
  have hself : (am.setInfo nId info1).info? nId = some info1 := by
    rw [info?_setInfo, Function.update_self]
  rw [good, hfind]
  dsimp only
  rw [if_neg haddr, if_neg htried]
  split
  · exact ⟨am.setInfo nId info1, rfl, h1⟩
  -- the bucket found holds the entry, as the loop looks for one that does
  · rename_i nUBucket hbucket
    have hin : nId ∈ am.vvNew nUBucket := by
      obtain ⟨n,-,hn⟩ := List.exists_of_findSome?_eq_some hbucket
      split_ifs at hn with hmem
      rw [← Option.some.inj hn]
      exact hmem
    exact makeTried_spec h1 rand hself hin hnonzero

theorem attempt_spec (h : Consistent env none am) (addr : CService) {nTime : BitVec 64}
    (hnTime : 0 < nTime.toInt) : Consistent env none (am.attempt addr nTime) := by
  rw [attempt]
  rcases find_spec h addr.ip with ⟨hfind,-⟩ | ⟨nId,info,hfind,hinfo⟩
  · rw [hfind]
    exact h
  rw [hfind]
  dsimp only
  split_ifs
  · exact h
  · have ht := h.timed nId info hinfo
    exact h.setTimes hinfo rfl rfl rfl rfl ⟨ht.tried, hnTime.le, ht.nLastSuccess⟩

theorem connected_spec (h : Consistent env none am) (addr : CService) (nTime : BitVec 64) :
    Consistent env none (am.connected addr nTime) := by
  rw [connected]
  rcases find_spec h addr.ip with ⟨hfind,-⟩ | ⟨nId,info,hfind,hinfo⟩
  · rw [hfind]
    exact h
  rw [hfind]
  dsimp only
  split_ifs
  · exact h
  · have ht := h.timed nId info hinfo
    exact h.setTimes hinfo rfl rfl rfl rfl ⟨ht.tried, ht.nLastTry, ht.nLastSuccess⟩
  · exact h

theorem getAddrLoop_spec (rand : ℕ → ℕ) (turns n : ℕ) {am : CAddrMan} (h : Consistent env none am)
    (hlen : n+turns ≤ am.vRandom.length) :
    ∃ vAddr am', getAddrLoop rand turns n am = some (vAddr,am') ∧ Consistent env none am' := by
  induction turns generalizing n am with
  | zero => exact ⟨[], am, rfl, h⟩
  | succ turns ih =>
    have hn : n < am.vRandom.length := by omega
    have hpos : rand n % (am.vRandom.length-n)+n < am.vRandom.length := by
      have hmod := Nat.mod_lt (rand n) (show 0 < am.vRandom.length-n by omega)
      omega
    -- the swap only reorders the random order, so the entry drawn next exists
    obtain ⟨am1,hswap,hreorder,hindexed,-⟩ := swapRandom_spec h.indexed hn hpos
    have h1 := hreorder.consistent h hindexed
    have hn1 : n < am1.vRandom.length := by
      rw [hreorder.length]
      exact hn
    have hget := List.getElem?_eq_getElem hn1
    obtain ⟨a,ha⟩ := h1.indexed.entry n _ hget
    obtain ⟨info,hinfo,-⟩ := info_of_pos ha
    obtain ⟨vAddr,am2,hloop,h2⟩ := ih (n+1) h1 (by rw [hreorder.length]; omega)
    refine ⟨info.toCAddress :: vAddr, am2, ?_, h2⟩
    rw [getAddrLoop, hswap]
    simp only [Option.bind_eq_bind, Option.bind_some, hget, hinfo, hloop]
    rfl

theorem getAddr_spec (h : Consistent env none am) (rand : ℕ → ℕ) :
    ∃ vAddr am', am.getAddr rand = some (vAddr,am') ∧ Consistent env none am' := by
  apply getAddrLoop_spec rand _ 0 h
  rw [addrmanGetaddrMaxPct]
  omega

/-- No assertion of a call fires, and the call keeps the invariant. -/
theorem exec_consistent (h : Consistent env none am) (call : AddrCall) (hcall : call.Positive) :
    ∃ am', call.exec env am = some am' ∧ Consistent env none am' := by
  cases call with
  | add nAdjustedTime rand addr source nTimePenalty =>
    obtain ⟨fNew,am',hadd,h'⟩ := add_spec h nAdjustedTime rand addr source nTimePenalty
    refine ⟨am', ?_, h'⟩
    rw [AddrCall.exec, hadd]
    rfl
  | good rand addr nTime => exact good_spec h rand addr hcall
  | attempt addr nTime => exact ⟨_, rfl, attempt_spec h addr hcall⟩
  | connected addr nTime => exact ⟨_, rfl, connected_spec h addr nTime⟩
  | getAddr rand =>
    obtain ⟨vAddr,am',hget,h'⟩ := getAddr_spec h rand
    refine ⟨am', ?_, h'⟩
    rw [AddrCall.exec, hget]
    rfl

/-- The calls one after the other. -/
theorem execAll_consistent (calls : List AddrCall) {am : CAddrMan} (h : Consistent env none am)
    (hcalls : ∀ call ∈ calls, call.Positive) :
    ∃ am', AddrCall.execAll env am calls = some am' ∧ Consistent env none am' := by
  induction calls generalizing am with
  | nil => exact ⟨am, rfl, h⟩
  | cons call calls ih =>
    obtain ⟨am1,hexec,h1⟩ := exec_consistent h call (hcalls call List.mem_cons_self)
    obtain ⟨am2,hrun,h2⟩ := ih h1 fun c hc => hcalls c (List.mem_cons_of_mem call hc)
    refine ⟨am2, ?_, h2⟩
    rw [AddrCall.execAll, List.foldlM_cons, hexec]
    exact hrun

end Calls

section Check

theorem length_flatMap_tried (vvTried : TriedBucket → List ℤ) :
    ((List.finRange addrmanTriedBucketCount).flatMap vvTried).length = triedCount vvTried := by
  rw [List.length_flatMap, triedCount, Fin.sum_univ_def]

theorem Consistent.fInTried_iff (h : Consistent env none am) {n : ℤ} {info : CAddrInfo}
    (hinfo : am.info? n = some info) :
    info.fInTried = true ↔ am.role env n = some (some (env.getTriedBucket am.nKey info.toCService),0) := by
  have hrole : am.role env n = some (info.role env am.nKey) := role_eq hinfo
  constructor
  · intro htried
    have hbucket : info.role env am.nKey =
        (some (env.getTriedBucket am.nKey info.toCService),info.nRefCount) := by
      rw [CAddrInfo.role, if_pos htried]
    rw [hbucket] at hrole
    -- a tried entry is in no new bucket, so its exact count is zero
    have hcount := h.placed.refs n _ _ hrole
    have hzero := refsTo_eq_zero_iff.mpr (h.placed.not_new (x := n) fun refs hrefs => by
      rw [hrole] at hrefs
      cases hrefs)
    rw [if_neg (Option.some_ne_none n).symm, hzero] at hcount
    rw [hrole, hcount]
    rfl
  · intro hsome
    rw [hrole] at hsome
    have hfst := (Prod.mk.inj (Option.some.inj hsome)).1
    by_contra htried
    rw [if_neg htried] at hfst
    cases hfst

/-- The tried buckets hold the entries marked as tried, -/
theorem Consistent.tried_iff (h : Consistent env none am) (n : ℤ) :
    (∃ b, n ∈ am.vvTried b) ↔ n ∈ am.idsWith (·.fInTried) := by
  rw [mem_idsWith]
  constructor
  · rintro ⟨b,hb⟩
    obtain ⟨refs,hrefs⟩ := (h.placed.tried b n).mp hb
    obtain ⟨info,hinfo,hrole⟩ := info_of_role hrefs
    refine ⟨info, hinfo, ?_⟩
    by_contra htried
    rw [CAddrInfo.role, if_neg htried] at hrole
    cases hrole
  · rintro ⟨info,hinfo,htried⟩
    exact ⟨_, (h.placed.tried _ n).mpr ⟨0, (h.fInTried_iff hinfo).mp htried⟩⟩

/-- each once, -/
theorem Consistent.tried_once (h : Consistent env none am) :
    ((List.finRange addrmanTriedBucketCount).flatMap am.vvTried).Nodup := by
  rw [List.nodup_flatMap]
  refine ⟨fun b _ => h.placed.nodup b, ?_⟩
  -- two buckets share no entry, since an entry has one role
  apply (List.nodup_finRange _).imp
  intro b c hbc n hb hc
  obtain ⟨r,hr⟩ := (h.placed.tried b n).mp hb
  obtain ⟨s,hs⟩ := (h.placed.tried c n).mp hc
  rw [hr] at hs
  exact hbc (Option.some.inj (Prod.mk.inj (Option.some.inj hs)).1)

/-- and so `nTried` counts them. -/
theorem Consistent.card_tried (h : Consistent env none am) :
    ((am.idsWith (·.fInTried)).card : ℤ) = am.nTried := by
  have hset : am.idsWith (·.fInTried) =
      ((List.finRange addrmanTriedBucketCount).flatMap am.vvTried).toFinset := by
    ext n
    rw [← h.tried_iff, List.mem_toFinset, List.mem_flatMap]
    constructor
    · rintro ⟨b,hb⟩
      exact ⟨b, List.mem_finRange b, hb⟩
    · rintro ⟨b,-,hb⟩
      exact ⟨b, hb⟩
  rw [hset, List.toFinset_card_of_nodup h.tried_once, length_flatMap_tried, h.nTried]

/-- Every entry of the random order is tried or new. -/
theorem Consistent.card_ids (h : Consistent env none am) :
    (am.idsWith (·.fInTried)).card+(am.idsWith (!·.fInTried)).card = am.vRandom.length := by
  rw [← List.toFinset_card_of_nodup h.indexed.nodup, ← Finset.card_union_of_disjoint]
  · congr 1
    ext n
    rw [Finset.mem_union, mem_idsWith, mem_idsWith, List.mem_toFinset, h.indexed.mem_order, pos,
      Option.isSome_map]
    cases am.info? n with
    | none => simp
    | some info => cases hb : info.fInTried <;> simp [hb]
  · rw [Finset.disjoint_left]
    intro n htried hnew
    obtain ⟨info,hinfo,ht⟩ := mem_idsWith.mp htried
    obtain ⟨info',hinfo',hf⟩ := mem_idsWith.mp hnew
    obtain rfl := Option.some.inj (hinfo.symm.trans hinfo')
    rw [ht] at hf
    cases hf

/-- `Check_` accepts each entry, -/
theorem Consistent.checkInfo (h : Consistent env none am) {n : ℤ} {info : CAddrInfo}
    (hinfo : am.info? n = some info) : am.checkInfo n info = none := by
  have ht := h.timed n info hinfo
  have hbyKey : am.mapAddr info.ip = some n :=
    (h.indexed.key info.ip n).mpr ⟨info.nRandomPos, pos_eq hinfo⟩
  have hbyPlace : at? am.vRandom info.nRandomPos = some n := by
    obtain ⟨i,hi,hget⟩ := h.indexed.place n info.ip info.nRandomPos (pos_eq hinfo)
    rw [hi, at?_natCast]
    exact hget
  rw [checkInfo_eq_none]
  refine ⟨fun htried => ⟨ht.tried htried, ?_⟩, fun hnew => ?_, ?_, hbyPlace, ht.nLastTry,
    ht.nLastSuccess⟩
  · have hrole := (h.fInTried_iff hinfo).mp htried
    rw [role_eq hinfo] at hrole
    exact (Prod.mk.inj (Option.some.inj hrole)).2
  · apply h.placed.bounds n
    rw [role_eq hinfo, role_of_new hnew]
  · rw [hbyKey]
    rfl

/-- and a consistent state. -/
theorem Consistent.checked (h : Consistent env none am) : am.Checked := by
  refine ⟨h.nNew.symm, fun n info hinfo => h.checkInfo hinfo, h.card_tried, ?_, h.tried_once,
    h.tried_iff, fun b n hn => ?_, fun n info hinfo hnew => ?_⟩
  · have hsum := h.nNew
    have htried := h.card_tried
    have hall := h.card_ids
    omega
  · obtain ⟨info,hinfo,hnew⟩ := h.info_of_new hn
    exact mem_idsWith.mpr ⟨info, hinfo, by rw [hnew]; rfl⟩
  · have hrole : am.role env n = some (none,info.nRefCount) := by
      rw [role_eq hinfo, role_of_new hnew]
    have hcount := h.placed.refs n none _ hrole
    rw [if_neg (Option.some_ne_none n).symm] at hcount
    omega

/-- The containers are views of one set of entries. -/
structure Agrees (am : CAddrMan) : Prop where
  byEntry : ∀ n info, am.info? n = some info →
    am.mapAddr info.ip = some n ∧ at? am.vRandom info.nRandomPos = some n
  byAddr : ∀ addr n, am.mapAddr addr = some n → ∃ info, am.info? n = some info ∧ info.ip = addr
  byPlace : ∀ (i : ℕ) n, am.vRandom[i]? = some n → ∃ info, am.info? n = some info ∧ info.nRandomPos = i
  nTried : am.nTried = (am.idsWith (·.fInTried)).card
  nNew : am.nNew = (am.idsWith (!·.fInTried)).card
  tried : ∀ n info, am.info? n = some info → info.fInTried = true →
    (∃ b, (am.vvTried b).count n = 1 ∧ ∀ c, c ≠ b → n ∉ am.vvTried c) ∧ ∀ b, n ∉ am.vvNew b
  new : ∀ n info, am.info? n = some info → info.fInTried = false →
    (∀ b, n ∉ am.vvTried b) ∧ info.nRefCount = refsTo am.vvNew n ∧
      1 ≤ info.nRefCount ∧ info.nRefCount ≤ 4
  triedKnown : ∀ b, ∀ n ∈ am.vvTried b, (am.info? n).isSome = true
  newKnown : ∀ b, ∀ n ∈ am.vvNew b, (am.info? n).isSome = true

theorem Consistent.agrees (h : Consistent env none am) : am.Agrees := by
  have hchecked := h.checked
  refine ⟨fun n info hinfo => ⟨?_, ?_⟩, fun addr n hn => ?_, fun i n hi => ?_, hchecked.nTried.symm,
    hchecked.nNew.symm, fun n info hinfo htried => ⟨?_, fun b hb => ?_⟩,
    fun n info hinfo hnew => ⟨fun b hb => ?_, hchecked.refs n info hinfo hnew, ?_⟩, fun b n hn => ?_,
    fun b n hn => ?_⟩
  · exact (h.indexed.key info.ip n).mpr ⟨info.nRandomPos, pos_eq hinfo⟩
  · exact (checkInfo_eq_none.mp (hchecked.info n info hinfo)).2.2.2.1
  · obtain ⟨p,hp⟩ := (h.indexed.key addr n).mp hn
    obtain ⟨info,hinfo,hpos⟩ := info_of_pos hp
    exact ⟨info, hinfo, (Prod.mk.inj hpos).1⟩
  · obtain ⟨a,ha⟩ := h.indexed.entry i n hi
    obtain ⟨info,hinfo,hpos⟩ := info_of_pos ha
    exact ⟨info, hinfo, (Prod.mk.inj hpos).2⟩
  · have hrole := (h.fInTried_iff hinfo).mp htried
    refine ⟨env.getTriedBucket am.nKey info.toCService, ?_, fun c hc hn => ?_⟩
    · exact List.count_eq_one_of_mem (h.placed.nodup _) ((h.placed.tried _ n).mpr ⟨0, hrole⟩)
    · obtain ⟨refs,hrefs⟩ := (h.placed.tried c n).mp hn
      rw [hrole] at hrefs
      exact hc (Option.some.inj (Prod.mk.inj (Option.some.inj hrefs)).1).symm
  · obtain ⟨info',hinfo',hnew⟩ := h.info_of_new hb
    obtain rfl := Option.some.inj (hinfo.symm.trans hinfo')
    rw [htried] at hnew
    cases hnew
  · obtain ⟨info',hinfo',htried⟩ := mem_idsWith.mp ((hchecked.tried n).mp ⟨b, hb⟩)
    obtain rfl := Option.some.inj (hinfo.symm.trans hinfo')
    rw [hnew] at htried
    cases htried
  · exact (checkInfo_eq_none.mp (hchecked.info n info hinfo)).2.1 hnew
  · obtain ⟨info,hinfo⟩ := h.info_of_tried hn
    exact Option.isSome_iff_exists.mpr ⟨info, hinfo⟩
  · obtain ⟨info,hinfo,-⟩ := h.info_of_new hn
    exact Option.isSome_iff_exists.mpr ⟨info, hinfo⟩

end Check

end CAddrMan

/-- An address becomes known and is then found good. -/
def addrCallsSample : List AddrCall :=
  let addr : CService := ⟨Vector.replicate 16 7,8333⟩
  [.add 1400000000 (fun _ => 0) ⟨addr,1,1399990000⟩ (Vector.replicate 16 9) 0,
    .good (fun _ => 0) addr 1400000100]

def addrEnvSample : AddrEnv := ⟨fun _ _ => 5,fun _ _ _ => 7,fun _ => true⟩

end Candypool.Net
