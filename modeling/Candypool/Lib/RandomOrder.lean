import Mathlib.Data.Int.Notation
import Mathlib.Data.List.Nodup
import Mathlib.Logic.Function.Basic
import Mathlib.Tactic.Common

/-! A table whose entries also stand in a vector in random order: each entry has a key, by which it is
found, and knows its place in the vector. -/
namespace Candypool.Lib

/-- `pos` gives the key and the place of an entry. -/
structure Indexed {ι κ : Type*} (pos : ι → Option (κ × ℤ)) (byKey : κ → Option ι) (order : List ι) :
    Prop where
  key : ∀ a n, byKey a = some n ↔ ∃ p, pos n = some (a,p)
  place : ∀ n a p, pos n = some (a,p) → ∃ i : ℕ, p = i ∧ order[i]? = some n
  entry : ∀ (i : ℕ) n, order[i]? = some n → ∃ a, pos n = some (a,(i : ℤ))

namespace Indexed
variable {ι κ : Type*} {pos : ι → Option (κ × ℤ)} {byKey : κ → Option ι} {order : List ι}

theorem empty : Indexed (fun _ : ι => none) (fun _ : κ => none) [] := by
  refine ⟨fun a n => ?_, fun n a p h => (by cases h), fun i n h => (by cases h)⟩
  constructor
  · intro h
    cases h
  · rintro ⟨p,h⟩
    cases h

theorem nodup (h : Indexed pos byKey order) : order.Nodup := by
  rw [List.nodup_iff_getElem?_ne_getElem?]
  intro i j hlt hj heq
  have hj' := List.getElem?_eq_getElem hj
  obtain ⟨a,ha⟩ := h.entry j _ hj'
  obtain ⟨b,hb⟩ := h.entry i _ (heq.trans hj')
  have hplace : (j : ℤ) = i := (Prod.mk.inj (Option.some.inj (ha.symm.trans hb))).2
  omega

theorem mem_order (h : Indexed pos byKey order) (n : ι) : n ∈ order ↔ (pos n).isSome = true := by
  rw [List.mem_iff_getElem?, Option.isSome_iff_exists]
  constructor
  · rintro ⟨i,hi⟩
    obtain ⟨a,ha⟩ := h.entry i n hi
    exact ⟨_, ha⟩
  · rintro ⟨⟨a,p⟩,hp⟩
    obtain ⟨i,-,hi⟩ := h.place n a p hp
    exact ⟨i, hi⟩

variable [DecidableEq ι] [DecidableEq κ]

/-- A new entry at the end of the vector. -/
theorem push (h : Indexed pos byKey order) {n : ι} {a : κ} (hnew : pos n = none)
    (hkey : byKey a = none) : Indexed (Function.update pos n (some (a,(order.length : ℤ))))
      (Function.update byKey a (some n)) (order ++ [n]) := by
  have hne (m : ι) (e : κ × ℤ) (hm : pos m = some e) : m ≠ n := by
    rintro rfl
    rw [hnew] at hm
    cases hm
  refine ⟨fun c m => ?_, fun m c p hm => ?_, fun i m hi => ?_⟩
  · by_cases hc : c = a
    · rw [hc, Function.update_self]
      constructor
      · intro heq
        rw [← Option.some.inj heq, Function.update_self]
        exact ⟨_, rfl⟩
      · rintro ⟨p,hp⟩
        by_cases hm : m = n
        · rw [hm]
        · rw [Function.update_of_ne hm] at hp
          rw [(h.key a m).mpr ⟨p, hp⟩] at hkey
          cases hkey
    · rw [Function.update_of_ne hc, h.key]
      by_cases hm : m = n
      · rw [hm, hnew, Function.update_self]
        constructor
        · rintro ⟨p,hp⟩
          cases hp
        · rintro ⟨p,hp⟩
          exact absurd (Prod.mk.inj (Option.some.inj hp)).1.symm hc
      · rw [Function.update_of_ne hm]
  · by_cases hmn : m = n
    · rw [hmn, Function.update_self] at hm
      refine ⟨order.length, (Prod.mk.inj (Option.some.inj hm)).2.symm, ?_⟩
      rw [hmn, List.getElem?_concat_length]
    · rw [Function.update_of_ne hmn] at hm
      obtain ⟨i,hp,hi⟩ := h.place m c p hm
      refine ⟨i, hp, ?_⟩
      rw [List.getElem?_append_left (List.getElem?_eq_some_iff.mp hi).1, hi]
  · by_cases hlt : i < order.length
    · rw [List.getElem?_append_left hlt] at hi
      obtain ⟨c,hc⟩ := h.entry i m hi
      exact ⟨c, by rw [Function.update_of_ne (hne m _ hc), hc]⟩
    -- behind the old places there is only the new one
    · have hend : i = order.length := by
        have hlen := (List.getElem?_eq_some_iff.mp hi).1
        rw [List.length_append, List.length_singleton] at hlen
        omega
      rw [hend, List.getElem?_concat_length] at hi
      rw [← Option.some.inj hi, Function.update_self, hend]
      exact ⟨a, rfl⟩

omit [DecidableEq κ] in
/-- Two entries change places. -/
theorem swap (h : Indexed pos byKey order) {i j : ℕ} {n m : ι} {a b : κ} (hne : i ≠ j)
    (hi : order[i]? = some n) (hj : order[j]? = some m) (hn : pos n = some (a,(i : ℤ)))
    (hm : pos m = some (b,(j : ℤ))) :
    Indexed (Function.update (Function.update pos n (some (a,(j : ℤ)))) m (some (b,(i : ℤ)))) byKey
      ((order.set i m).set j n) := by
  have hnm : n ≠ m := by
    rintro rfl
    have hplace : (i : ℤ) = j := (Prod.mk.inj (Option.some.inj (hn.symm.trans hm))).2
    omega
  have hil := (List.getElem?_eq_some_iff.mp hi).1
  have hjl := (List.getElem?_eq_some_iff.mp hj).1
  -- after the exchange m is at i and n at j
  have hget (k : ℕ) : ((order.set i m).set j n)[k]? =
      if k = j then some n else if k = i then some m else order[k]? := by
    rw [List.getElem?_set, List.getElem?_set, List.length_set]
    split_ifs <;> first | rfl | omega
  refine ⟨fun c k => ?_, fun k c p hk => ?_, fun k l hl => ?_⟩
  · rw [h.key]
    by_cases hkm : k = m
    · rw [hkm, Function.update_self, hm]
      constructor
      · rintro ⟨p,hp⟩
        exact ⟨i, by rw [(Prod.mk.inj (Option.some.inj hp)).1]⟩
      · rintro ⟨p,hp⟩
        exact ⟨j, by rw [(Prod.mk.inj (Option.some.inj hp)).1]⟩
    rw [Function.update_of_ne hkm]
    by_cases hkn : k = n
    · rw [hkn, Function.update_self, hn]
      constructor
      · rintro ⟨p,hp⟩
        exact ⟨j, by rw [(Prod.mk.inj (Option.some.inj hp)).1]⟩
      · rintro ⟨p,hp⟩
        exact ⟨i, by rw [(Prod.mk.inj (Option.some.inj hp)).1]⟩
    · rw [Function.update_of_ne hkn]
  · by_cases hkm : k = m
    · rw [hkm, Function.update_self] at hk
      refine ⟨i, (Prod.mk.inj (Option.some.inj hk)).2.symm, ?_⟩
      rw [hget, if_neg hne, if_pos rfl, hkm]
    rw [Function.update_of_ne hkm] at hk
    by_cases hkn : k = n
    · rw [hkn, Function.update_self] at hk
      refine ⟨j, (Prod.mk.inj (Option.some.inj hk)).2.symm, ?_⟩
      rw [hget, if_pos rfl, hkn]
    · rw [Function.update_of_ne hkn] at hk
      obtain ⟨l,hp,hl⟩ := h.place k c p hk
      refine ⟨l, hp, ?_⟩
      -- an entry that is neither m nor n keeps its place
      have hlj : l ≠ j := by
        rintro rfl
        exact hkm (Option.some.inj (hl.symm.trans hj))
      have hli : l ≠ i := by
        rintro rfl
        exact hkn (Option.some.inj (hl.symm.trans hi))
      rw [hget, if_neg hlj, if_neg hli, hl]
  · rw [hget] at hl
    split_ifs at hl with hkj hki
    · rw [← Option.some.inj hl, Function.update_of_ne hnm, Function.update_self, hkj]
      exact ⟨a, rfl⟩
    · rw [← Option.some.inj hl, Function.update_self, hki]
      exact ⟨b, rfl⟩
    · obtain ⟨c,hc⟩ := h.entry k l hl
      have hlm : l ≠ m := by
        rintro rfl
        have hplace : (k : ℤ) = j := (Prod.mk.inj (Option.some.inj (hc.symm.trans hm))).2
        omega
      have hln : l ≠ n := by
        rintro rfl
        have hplace : (k : ℤ) = i := (Prod.mk.inj (Option.some.inj (hc.symm.trans hn))).2
        omega
      rw [Function.update_of_ne hlm, Function.update_of_ne hln, hc]
      exact ⟨c, rfl⟩

/-- The entry at the end of the vector goes. -/
theorem pop (h : Indexed pos byKey order) {n : ι} {a : κ}
    (hn : pos n = some (a,(order.length : ℤ)-1)) :
    Indexed (Function.update pos n none) (Function.update byKey a none) order.dropLast := by
  obtain ⟨last,hplace,hlast⟩ := h.place n a _ hn
  have hlen : last+1 = order.length := by omega
  -- the last place goes, and the others stay
  have hget (k : ℕ) : order.dropLast[k]? = if k < last then order[k]? else none := by
    rw [List.getElem?_dropLast]
    split_ifs <;> first | rfl | omega
  refine ⟨fun c m => ?_, fun m c p hm => ?_, fun i m hi => ?_⟩
  · by_cases hm : m = n
    · rw [hm, Function.update_self]
      constructor
      · intro hc
        by_cases hca : c = a
        · rw [hca, Function.update_self] at hc
          cases hc
        · rw [Function.update_of_ne hca, h.key, hn] at hc
          obtain ⟨p,hp⟩ := hc
          exact absurd (Prod.mk.inj (Option.some.inj hp)).1.symm hca
      · rintro ⟨p,hp⟩
        cases hp
    · rw [Function.update_of_ne hm]
      by_cases hca : c = a
      · rw [hca, Function.update_self]
        constructor
        · intro hc
          cases hc
        · rintro ⟨p,hp⟩
          have hkey := (h.key a m).mpr ⟨p, hp⟩
          rw [(h.key a n).mpr ⟨_, hn⟩] at hkey
          exact absurd (Option.some.inj hkey).symm hm
      · rw [Function.update_of_ne hca, h.key]
  · by_cases hmn : m = n
    · rw [hmn, Function.update_self] at hm
      cases hm
    · rw [Function.update_of_ne hmn] at hm
      obtain ⟨i,hp,hi⟩ := h.place m c p hm
      refine ⟨i, hp, ?_⟩
      have hil := (List.getElem?_eq_some_iff.mp hi).1
      -- only n was at the last place
      have hine : i ≠ last := by
        rintro rfl
        exact hmn (Option.some.inj (hi.symm.trans hlast))
      rw [hget, if_pos (by omega), hi]
  · rw [hget] at hi
    split_ifs at hi with hlt
    obtain ⟨c,hc⟩ := h.entry i m hi
    refine ⟨c, ?_⟩
    have hmn : m ≠ n := by
      rintro rfl
      have heq : (i : ℤ) = (order.length : ℤ)-1 :=
        (Prod.mk.inj (Option.some.inj (hc.symm.trans hn))).2
      omega
    rw [Function.update_of_ne hmn, hc]

end Indexed

end Candypool.Lib
