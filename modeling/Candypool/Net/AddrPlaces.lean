import Candypool.Net.AddrMan
import Mathlib.Data.Finset.Card
import Mathlib.Data.List.Perm.Basic

/-! Where the entries of the address manager stand: in one tried bucket, or in as many new buckets as
they have references. -/
namespace Candypool.Net

/-- In how many new buckets an entry is. -/
def refsTo (vvNew : NewBucket → Finset ℤ) (n : ℤ) : ℕ :=
  (Finset.univ.filter fun b => n ∈ vvNew b).card

/-- `role` gives the tried bucket of an entry, if it has one, and its references. The references of the
entry `pending` are one ahead of the buckets. -/
structure Placed (pending : Option ℤ) (role : ℤ → Option (Option TriedBucket × ℤ))
    (vvTried : TriedBucket → List ℤ) (vvNew : NewBucket → Finset ℤ) : Prop where
  tried : ∀ b n, n ∈ vvTried b ↔ ∃ refs, role n = some (some b,refs)
  nodup : ∀ b, (vvTried b).Nodup
  new : ∀ b n, n ∈ vvNew b → ∃ refs, role n = some (none,refs)
  refs : ∀ n t refs, role n = some (t,refs) →
    refs = refsTo vvNew n+if pending = some n then 1 else 0
  bounds : ∀ n refs, role n = some (none,refs) → 1 ≤ refs ∧ refs ≤ addrmanNewBucketsPerAddress
  waits : ∀ n, pending = some n → ∃ refs, role n = some (none,refs)

section Counts
variable {vvNew : NewBucket → Finset ℤ}

theorem newBucketsOf_eq (am : CAddrMan) (n : ℤ) : am.newBucketsOf n = refsTo am.vvNew n := by
  rw [CAddrMan.newBucketsOf, List.countP_eq_length_filter]
  rfl

theorem refsTo_eq_zero_iff {n : ℤ} : refsTo vvNew n = 0 ↔ ∀ b, n ∉ vvNew b := by
  rw [refsTo, Finset.card_eq_zero, Finset.filter_eq_empty_iff]
  exact ⟨fun h b => h (Finset.mem_univ b), fun h b _ => h b⟩

theorem refsTo_congr {vvNew' : NewBucket → Finset ℤ} {n : ℤ} (h : ∀ b, n ∈ vvNew' b ↔ n ∈ vvNew b) :
    refsTo vvNew' n = refsTo vvNew n := by
  rw [refsTo, refsTo]
  simp only [h]

theorem refsTo_insert {b : NewBucket} {n : ℤ} (hb : n ∉ vvNew b) :
    refsTo (Function.update vvNew b (insert n (vvNew b))) n = refsTo vvNew n+1 := by
  have hset : (Finset.univ.filter fun c => n ∈ Function.update vvNew b (insert n (vvNew b)) c) =
      insert b (Finset.univ.filter fun c => n ∈ vvNew c) := by
    ext c
    rw [Finset.mem_insert, Finset.mem_filter, Finset.mem_filter]
    by_cases hc : c = b
    · rw [hc, Function.update_self]
      simp
    · rw [Function.update_of_ne hc]
      simp [hc]
  rw [refsTo, refsTo, hset, Finset.card_insert_of_notMem]
  rw [Finset.mem_filter]
  exact fun h => hb h.2

theorem refsTo_erase {b : NewBucket} {n : ℤ} (hb : n ∈ vvNew b) :
    refsTo (Function.update vvNew b ((vvNew b).erase n)) n+1 = refsTo vvNew n := by
  have hout : n ∉ Function.update vvNew b ((vvNew b).erase n) b := by
    rw [Function.update_self]
    exact Finset.notMem_erase n _
  have hback := refsTo_insert hout
  rw [Function.update_self, Finset.insert_erase hb, Function.update_idem, Function.update_eq_self]
    at hback
  exact hback.symm

theorem refsTo_insert_ne {b : NewBucket} {n m : ℤ} (h : m ≠ n) :
    refsTo (Function.update vvNew b (insert n (vvNew b))) m = refsTo vvNew m := by
  apply refsTo_congr
  intro c
  by_cases hc : c = b
  · rw [hc, Function.update_self, Finset.mem_insert, or_iff_right h]
  · rw [Function.update_of_ne hc]

theorem refsTo_erase_ne {b : NewBucket} {n m : ℤ} (h : m ≠ n) :
    refsTo (Function.update vvNew b ((vvNew b).erase n)) m = refsTo vvNew m := by
  apply refsTo_congr
  intro c
  by_cases hc : c = b
  · rw [hc, Function.update_self, Finset.mem_erase, and_iff_right h]
  · rw [Function.update_of_ne hc]

end Counts

namespace Placed
variable {pending : Option ℤ} {role : ℤ → Option (Option TriedBucket × ℤ)}
  {vvTried : TriedBucket → List ℤ} {vvNew : NewBucket → Finset ℤ} {n x : ℤ} {r : ℤ}

theorem empty : Placed none (fun _ => none) (fun _ => []) (fun _ => ∅) where
  tried b n := by
    constructor
    · intro h
      cases h
    · rintro ⟨refs,h⟩
      cases h
  nodup b := List.nodup_nil
  new b n h := absurd h (Finset.notMem_empty n)
  refs n t refs h := by cases h
  bounds n refs h := by cases h
  waits n h := by cases h

/-- The order in a tried bucket is of no account. -/
theorem perm (h : Placed pending role vvTried vvNew) {vvTried' : TriedBucket → List ℤ}
    (hperm : ∀ b, (vvTried' b).Perm (vvTried b)) : Placed pending role vvTried' vvNew where
  tried b n := (hperm b).mem_iff.trans (h.tried b n)
  nodup b := (hperm b).nodup_iff.mpr (h.nodup b)
  new := h.new
  refs := h.refs
  bounds := h.bounds
  waits := h.waits

theorem not_new (h : Placed pending role vvTried vvNew) (hx : ∀ refs, role x ≠ some (none,refs))
    (b : NewBucket) : x ∉ vvNew b := by
  intro hmem
  obtain ⟨refs,hrefs⟩ := h.new b x hmem
  exact hx refs hrefs

/-- An entry, known or not, gets a reference that no bucket holds yet. -/
theorem request (h : Placed none role vvTried vvNew) (hx : ∀ e, role x = some e → e = (none,r))
    (hr : r = refsTo vvNew x) (hfew : r < addrmanNewBucketsPerAddress) :
    Placed (some x) (Function.update role x (some (none,r+1))) vvTried vvNew := by
  refine ⟨fun b n => ?_, h.nodup, fun b n hn => ?_, fun n t refs hn => ?_, fun n refs hn => ?_, ?_⟩
  · rw [h.tried]
    by_cases hnx : n = x
    · rw [hnx, Function.update_self]
      constructor
      · rintro ⟨refs,hrefs⟩
        cases hx _ hrefs
      · rintro ⟨refs,hrefs⟩
        cases hrefs
    · rw [Function.update_of_ne hnx]
  · by_cases hnx : n = x
    · exact ⟨r+1, by rw [hnx, Function.update_self]⟩
    · rw [Function.update_of_ne hnx]
      exact h.new b n hn
  · by_cases hnx : n = x
    · rw [hnx, Function.update_self] at hn
      rw [hnx, if_pos rfl, ← hr]
      exact (Prod.mk.inj (Option.some.inj hn)).2.symm
    · rw [Function.update_of_ne hnx] at hn
      rw [if_neg fun heq => hnx (Option.some.inj heq).symm]
      exact h.refs n t refs hn
  · by_cases hnx : n = x
    · rw [hnx, Function.update_self] at hn
      have heq := (Prod.mk.inj (Option.some.inj hn)).2
      have hpos : 0 ≤ r := by
        rw [hr]
        exact Int.natCast_nonneg _
      exact ⟨by omega, by omega⟩
    · rw [Function.update_of_ne hnx] at hn
      exact h.bounds n refs hn
  · intro n hn
    obtain rfl := Option.some.inj hn
    exact ⟨r+1, Function.update_self _ _ _⟩

/-- The bucket for the reference. -/
theorem settle (h : Placed (some x) role vvTried vvNew) {b : NewBucket} (hb : x ∉ vvNew b) :
    Placed none role vvTried (Function.update vvNew b (insert x (vvNew b))) := by
  refine ⟨h.tried, h.nodup, fun c n hn => ?_, fun n t refs hn => ?_, h.bounds, fun n hn => (by cases hn)⟩
  · by_cases hc : c = b
    · rw [hc, Function.update_self, Finset.mem_insert] at hn
      rcases hn with rfl | hn
      · exact h.waits n rfl
      · exact h.new b n hn
    · rw [Function.update_of_ne hc] at hn
      exact h.new c n hn
  · rw [if_neg (Option.some_ne_none n).symm]
    have hrefs := h.refs n t refs hn
    by_cases hnx : n = x
    · rw [hnx, if_pos rfl] at hrefs
      rw [hnx, refsTo_insert hb]
      push_cast
      omega
    · rw [if_neg fun heq => hnx (Option.some.inj heq).symm] at hrefs
      rw [refsTo_insert_ne hnx]
      exact hrefs

/-- An entry loses its place in a new bucket, and goes if that was its last one. -/
theorem drop (h : Placed pending role vvTried vvNew) {b : NewBucket} (hb : n ∈ vvNew b)
    (hrole : role n = some (none,r)) (hpending : pending ≠ some n) :
    Placed pending (Function.update role n (if r = 1 then none else some (none,r-1))) vvTried
      (Function.update vvNew b ((vvNew b).erase n)) := by
  -- one place less, as the count of references says
  have hr := h.refs n none r hrole
  rw [if_neg hpending, ← refsTo_erase hb] at hr
  push_cast at hr
  have hbounds := h.bounds n r hrole
  refine ⟨fun c m => ?_, h.nodup, fun c m hm => ?_, fun m t refs hm => ?_, fun m refs hm => ?_,
    fun m hm => ?_⟩
  · rw [h.tried]
    by_cases hmn : m = n
    · rw [hmn, Function.update_self, hrole]
      constructor
      · rintro ⟨refs,hrefs⟩
        cases hrefs
      · rintro ⟨refs,hrefs⟩
        split_ifs at hrefs
        cases hrefs
    · rw [Function.update_of_ne hmn]
  · have hold : m ∈ vvNew c := by
      by_cases hc : c = b
      · rw [hc, Function.update_self] at hm
        rw [hc]
        exact Finset.mem_of_mem_erase hm
      · rwa [Function.update_of_ne hc] at hm
    by_cases hmn : m = n
    · subst hmn
      rw [Function.update_self]
      -- the entry is still in a bucket, so this was not its last place
      have hcount : refsTo (Function.update vvNew b ((vvNew b).erase m)) m ≠ 0 := by
        rw [Ne, refsTo_eq_zero_iff, not_forall]
        exact ⟨c, not_not.mpr hm⟩
      rw [if_neg (by omega)]
      exact ⟨_, rfl⟩
    · rw [Function.update_of_ne hmn]
      exact h.new c m hold
  · by_cases hmn : m = n
    · subst hmn
      rw [Function.update_self] at hm
      split_ifs at hm with hone
      rw [if_neg hpending]
      have heq := (Prod.mk.inj (Option.some.inj hm)).2
      omega
    · rw [Function.update_of_ne hmn] at hm
      rw [refsTo_erase_ne hmn]
      exact h.refs m t refs hm
  · by_cases hmn : m = n
    · subst hmn
      rw [Function.update_self] at hm
      split_ifs at hm with hone
      have heq := (Prod.mk.inj (Option.some.inj hm)).2
      exact ⟨by omega, by omega⟩
    · rw [Function.update_of_ne hmn] at hm
      exact h.bounds m refs hm
  · have hmn : m ≠ n := by
      rintro rfl
      exact hpending hm
    rw [Function.update_of_ne hmn]
    exact h.waits m hm

/-- An entry leaves the new buckets for a tried one. -/
theorem promote (h : Placed none role vvTried vvNew) (hrole : role x = some (none,r))
    (k : TriedBucket) :
    Placed none (Function.update role x (some (some k,0)))
      (Function.update vvTried k (vvTried k ++ [x])) (fun b => (vvNew b).erase x) := by
  have hout (b : TriedBucket) : x ∉ vvTried b := by
    rw [h.tried]
    rintro ⟨refs,hrefs⟩
    rw [hrole] at hrefs
    cases hrefs
  refine ⟨fun b n => ?_, fun b => ?_, fun b n hn => ?_, fun n t refs hn => ?_, fun n refs hn => ?_,
    fun n hn => (by cases hn)⟩
  · by_cases hnx : n = x
    · rw [hnx, Function.update_self]
      by_cases hb : b = k
      · rw [hb, Function.update_self]
        exact iff_of_true (List.mem_append_right _ (List.mem_singleton_self x)) ⟨0, rfl⟩
      · rw [Function.update_of_ne hb]
        refine iff_of_false (hout b) ?_
        rintro ⟨refs,hrefs⟩
        exact hb (Option.some.inj (Prod.mk.inj (Option.some.inj hrefs)).1).symm
    · rw [Function.update_of_ne hnx, ← h.tried]
      by_cases hb : b = k
      · rw [hb, Function.update_self, List.mem_append, List.mem_singleton, or_iff_left hnx]
      · rw [Function.update_of_ne hb]
  · by_cases hb : b = k
    · rw [hb, Function.update_self]
      exact List.nodup_append_comm.mp (List.nodup_cons.mpr ⟨hout k, h.nodup k⟩)
    · rw [Function.update_of_ne hb]
      exact h.nodup b
  · have hnx : n ≠ x := Finset.ne_of_mem_erase hn
    rw [Function.update_of_ne hnx]
    exact h.new b n (Finset.mem_of_mem_erase hn)
  · rw [if_neg (Option.some_ne_none n).symm]
    by_cases hnx : n = x
    · rw [hnx, Function.update_self] at hn
      -- the entry is in no new bucket any more
      have hzero : refsTo (fun b => (vvNew b).erase x) n = 0 := by
        rw [refsTo_eq_zero_iff, hnx]
        exact fun b => Finset.notMem_erase x _
      rw [hzero]
      exact (Prod.mk.inj (Option.some.inj hn)).2.symm
    · rw [Function.update_of_ne hnx] at hn
      have hcount : refsTo (fun b => (vvNew b).erase x) n = refsTo vvNew n := by
        apply refsTo_congr
        intro b
        rw [Finset.mem_erase, and_iff_right hnx]
      have hrefs := h.refs n t refs hn
      rwa [if_neg (Option.some_ne_none n).symm, ← hcount] at hrefs
  · by_cases hnx : n = x
    · rw [hnx, Function.update_self] at hn
      cases hn
    · rw [Function.update_of_ne hnx] at hn
      exact h.bounds n refs hn

/-- A tried entry goes back to a new bucket. -/
theorem demote (h : Placed none role vvTried vvNew) {k : TriedBucket} (hk : x ∈ vvTried k)
    (b : NewBucket) :
    Placed none (Function.update role x (some (none,1)))
      (Function.update vvTried k ((vvTried k).erase x))
      (Function.update vvNew b (insert x (vvNew b))) := by
  obtain ⟨r,hrole⟩ := (h.tried k x).mp hk
  -- a tried entry is in no new bucket
  have hout := h.not_new fun refs hrefs => by
    rw [hrole] at hrefs
    cases hrefs
  refine ⟨fun c n => ?_, fun c => ?_, fun c n hn => ?_, fun n t refs hn => ?_, fun n refs hn => ?_,
    fun n hn => (by cases hn)⟩
  · by_cases hnx : n = x
    · rw [hnx, Function.update_self]
      refine iff_of_false ?_ fun ⟨refs,hrefs⟩ => (by cases hrefs)
      by_cases hc : c = k
      · rw [hc, Function.update_self]
        exact (h.nodup k).not_mem_erase
      · rw [Function.update_of_ne hc, h.tried, hrole]
        rintro ⟨refs,hrefs⟩
        exact hc (Option.some.inj (Prod.mk.inj (Option.some.inj hrefs)).1).symm
    · rw [Function.update_of_ne hnx, ← h.tried]
      by_cases hc : c = k
      · rw [hc, Function.update_self, List.mem_erase_of_ne hnx]
      · rw [Function.update_of_ne hc]
  · by_cases hc : c = k
    · rw [hc, Function.update_self]
      exact (h.nodup k).erase x
    · rw [Function.update_of_ne hc]
      exact h.nodup c
  · by_cases hnx : n = x
    · exact ⟨1, by rw [hnx, Function.update_self]⟩
    · rw [Function.update_of_ne hnx]
      by_cases hc : c = b
      · rw [hc, Function.update_self, Finset.mem_insert, or_iff_right hnx] at hn
        exact h.new b n hn
      · rw [Function.update_of_ne hc] at hn
        exact h.new c n hn
  · rw [if_neg (Option.some_ne_none n).symm]
    by_cases hnx : n = x
    · rw [hnx, Function.update_self] at hn
      rw [hnx, refsTo_insert (hout b), refsTo_eq_zero_iff.mpr hout]
      exact (Prod.mk.inj (Option.some.inj hn)).2.symm
    · rw [Function.update_of_ne hnx] at hn
      have hrefs := h.refs n t refs hn
      rwa [if_neg (Option.some_ne_none n).symm, ← refsTo_insert_ne hnx] at hrefs
  · by_cases hnx : n = x
    · rw [hnx, Function.update_self] at hn
      rw [← (Prod.mk.inj (Option.some.inj hn)).2]
      decide
    · rw [Function.update_of_ne hnx] at hn
      exact h.bounds n refs hn

end Placed

end Candypool.Net
