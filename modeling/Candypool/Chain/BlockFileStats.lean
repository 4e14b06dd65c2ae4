import Candypool.Chain.BlockFile
import Mathlib.Data.List.Infix
import Mathlib.Order.Bounds.Basic

/-! The statistics of a block file: what `AddBlock` makes of the heights and times of the blocks, in
whatever order they come. -/
namespace Candypool.Chain

/-- The calls of `AddBlock` one after the other, each with a height and a time. -/
def CBlockFileInfo.addBlocks (info : CBlockFileInfo) (calls : List (ℕ × ℕ)) : CBlockFileInfo :=
  calls.foldl (fun info call => info.addBlock call.1 call.2) info

/-- What the fields are said to hold: the number of the blocks and the bounds of their heights and
times. -/
structure CBlockFileInfo.Bounds (info : CBlockFileInfo) (calls : List (ℕ × ℕ)) : Prop where
  nBlocks : info.nBlocks = calls.length
  nHeightFirst : calls ≠ [] → IsLeast {h | h ∈ calls.map Prod.fst} info.nHeightFirst
  nHeightLast : calls ≠ [] → IsGreatest {h | h ∈ calls.map Prod.fst} info.nHeightLast
  nTimeFirst : calls ≠ [] → IsLeast {t | t ∈ calls.map Prod.snd} info.nTimeFirst
  nTimeLast : calls ≠ [] → IsGreatest {t | t ∈ calls.map Prod.snd} info.nTimeLast

section Rises
variable {heights seen seen' : List ℕ} {h h' x : ℕ}

/-- After the blocks of `seen` comes one of height `h`, and one of them is lower. -/
def Rise (heights seen : List ℕ) (h : ℕ) : Prop := seen ++ [h] <+: heights ∧ ∃ l ∈ seen, l < h

/-- The height of the last rise, zero when there is none. -/
def LastRise (heights : List ℕ) (h : ℕ) : Prop :=
  (h = 0 ∧ ∀ seen l, ¬Rise heights seen l) ∨
    ∃ seen, Rise heights seen h ∧ ∀ seen' l, Rise heights seen' l → seen'.length ≤ seen.length

/-- Every height is zero, or some rise is to the greatest height, and each later one too. -/
def RisesEndHighest (heights : List ℕ) : Prop :=
  (∀ h ∈ heights, h = 0) ∨ ∃ seen h, Rise heights seen h ∧ (∀ l ∈ heights, l ≤ h) ∧
    ∀ seen' h', Rise heights seen' h' → seen.length ≤ seen'.length → h' = h

theorem Rise.mem (hr : Rise heights seen h) : h ∈ heights :=
  hr.1.subset (List.mem_append_right _ (List.mem_singleton_self h))

/-- A place has one height. -/
theorem Rise.eq (hr : Rise heights seen h) (hr' : Rise heights seen' h')
    (hlen : seen.length = seen'.length) : h = h' := by
  -- both begin the list of the heights, and are equally long
  have hsame : seen ++ [h] = seen' ++ [h'] := by
    apply List.IsPrefix.eq_of_length
    · apply List.prefix_of_prefix_length_le hr.1 hr'.1
      simp [hlen]
    · simp [hlen]
  exact (List.cons.inj (List.append_inj_right hsame hlen)).1

/-- The last height rises if it is above the least one before it. -/
theorem rise_append : Rise (heights ++ [x]) seen h ↔
    Rise heights seen h ∨ seen = heights ∧ h = x ∧ ∃ l ∈ heights, l < x := by
  rw [Rise, List.prefix_concat_iff, Rise]
  constructor
  · rintro ⟨heq | hbegins,hlow⟩
    · obtain ⟨rfl,hx⟩ := List.append_inj' heq rfl
      obtain rfl := (List.cons.inj hx).1
      exact Or.inr ⟨rfl, rfl, hlow⟩
    · exact Or.inl ⟨hbegins, hlow⟩
  · rintro (⟨hbegins,hlow⟩ | ⟨rfl,rfl,hlow⟩)
    · exact ⟨Or.inr hbegins, hlow⟩
    · exact ⟨Or.inl rfl, hlow⟩

theorem Rise.length_lt (hr : Rise heights seen h) : seen.length < heights.length := by
  have hle := hr.1.length_le
  rw [List.length_append, List.length_singleton] at hle
  omega

theorem LastRise.rise (hlow : ∃ l ∈ heights, l < x) : LastRise (heights ++ [x]) x := by
  refine Or.inr ⟨heights, rise_append.mpr (Or.inr ⟨rfl, rfl, hlow⟩), fun seen' l hr => ?_⟩
  have hlt := hr.length_lt
  rw [List.length_append, List.length_singleton] at hlt
  omega

theorem LastRise.keep (hl : LastRise heights h) (hnot : ¬∃ l ∈ heights, l < x) :
    LastRise (heights ++ [x]) h := by
  -- a height that is not above the least one adds no rise
  have hsame (seen : List ℕ) (l : ℕ) : Rise (heights ++ [x]) seen l ↔ Rise heights seen l :=
    rise_append.trans (or_iff_left fun hr => hnot hr.2.2)
  simpa only [LastRise, hsame] using hl

/-- The last rise is to the greatest height exactly when the rises end with it. -/
theorem LastRise.isGreatest_iff (hl : LastRise heights h) (hne : heights ≠ []) :
    IsGreatest {l | l ∈ heights} h ↔ RisesEndHighest heights := by
  constructor
  · rintro ⟨-,hupper⟩
    rcases hl with ⟨rfl,-⟩ | ⟨seen,hr,hlast⟩
    · exact Or.inl fun l hl => Nat.le_zero.mp (hupper hl)
    -- a rise that is not before the last one is the last one
    · refine Or.inr ⟨seen, h, hr, fun l hl => hupper hl, fun seen' h' hr' hle => ?_⟩
      exact hr'.eq hr ((hlast seen' h' hr').antisymm hle)
  · rintro (hzero | ⟨seen,top,hr,hupper,hlater⟩)
    · -- nothing rises from zero
      have hh : h = 0 := by
        rcases hl with ⟨hh,-⟩ | ⟨seen,hr,-⟩
        · exact hh
        · exact hzero h hr.mem
      obtain ⟨l,hmem⟩ := List.exists_mem_of_ne_nil heights hne
      rw [hh]
      refine ⟨?_, fun l hl => (hzero l hl).le⟩
      rw [← hzero l hmem]
      exact hmem
    · rcases hl with ⟨-,hnone⟩ | ⟨last,hr',hlast⟩
      · exact absurd hr (hnone seen top)
      · rw [hlater last h hr' (hlast seen top hr)]
        exact ⟨hr.mem, fun l hl => hupper l hl⟩

end Rises

section Calls
variable {info : CBlockFileInfo} {calls : List (ℕ × ℕ)}

/-- What the fields do hold, as long as `nBlocks` has not wrapped. -/
structure CBlockFileInfo.Added (info : CBlockFileInfo) (calls : List (ℕ × ℕ)) : Prop where
  nBlocks : info.nBlocks = calls.length
  nHeightFirst : calls ≠ [] → IsLeast {h | h ∈ calls.map Prod.fst} info.nHeightFirst
  nHeightLast : LastRise (calls.map Prod.fst) info.nHeightLast
  nTimeFirst : calls ≠ [] → IsLeast {t | t ∈ calls.map Prod.snd} info.nTimeFirst
  nTimeLast : IsGreatest (insert 0 {t | t ∈ calls.map Prod.snd}) info.nTimeLast

theorem CBlockFileInfo.null_added : CBlockFileInfo.null.Added [] where
  nBlocks := rfl
  nHeightFirst h := absurd rfl h
  nHeightLast := by
    refine Or.inl ⟨rfl, fun seen l hr => ?_⟩
    exact absurd hr.length_lt (Nat.not_lt_zero _)
  nTimeFirst h := absurd rfl h
  nTimeLast := by simp [CBlockFileInfo.null]

theorem setOf_mem_append {α : Type*} (l : List α) (x : α) :
    {y | y ∈ l ++ [x]} = insert x {y | y ∈ l} := by
  ext y
  simp [or_comm]

/-- The lower bound as the code keeps it: the first value whatever it is, then any lower one. -/
theorem isLeast_append {l : List ℕ} {n first x : ℕ} (hn : n = 0 ↔ l = [])
    (h : l ≠ [] → IsLeast {y | y ∈ l} first) :
    IsLeast {y | y ∈ l ++ [x]} (if n = 0 ∨ first > x then x else first) := by
  rw [setOf_mem_append]
  by_cases hnil : l = []
  · rw [if_pos (Or.inl (hn.mpr hnil)), hnil]
    simp
  · have hleast := (h hnil).insert x
    by_cases hlow : first > x
    · rw [if_pos (Or.inr hlow)]
      rwa [min_eq_left hlow.le] at hleast
    · rw [if_neg (not_or.mpr ⟨hnil ∘ hn.mp, hlow⟩)]
      rwa [min_eq_right (not_lt.mp hlow)] at hleast

theorem CBlockFileInfo.Added.addBlock (h : info.Added calls) (hlen : calls.length+1 < 2^32)
    (nHeightIn nTimeIn : ℕ) :
    (info.addBlock nHeightIn nTimeIn).Added (calls ++ [(nHeightIn,nTimeIn)]) := by
  -- the count says whether this is the first block
  have hfirst (f : ℕ × ℕ → ℕ) : info.nBlocks = 0 ↔ calls.map f = [] := by
    rw [h.nBlocks, List.length_eq_zero_iff, List.map_eq_nil_iff]
  have hheight : IsLeast {l | l ∈ calls.map Prod.fst ++ [nHeightIn]}
      (info.addBlock nHeightIn nTimeIn).nHeightFirst :=
    isLeast_append (hfirst Prod.fst) fun hne => h.nHeightFirst (hne ∘ List.map_eq_nil_iff.mpr)
  refine ⟨?_, fun _ => ?_, ?_, fun _ => ?_, ?_⟩
  · change add32 info.nBlocks 1 = _
    rw [h.nBlocks, add32, Nat.mod_eq_of_lt hlen, List.length_append, List.length_singleton]
  · rw [List.map_append]
    exact hheight
  · rw [List.map_append]
    change LastRise (calls.map Prod.fst ++ [nHeightIn])
      (if nHeightIn > (info.addBlock nHeightIn nTimeIn).nHeightFirst then nHeightIn
        else info.nHeightLast)
    -- the height is compared with the lowest one, itself included
    split_ifs with hrise
    · apply LastRise.rise
      rcases List.mem_append.mp hheight.1 with hmem | hmem
      · exact ⟨_, hmem, hrise⟩
      · rw [List.mem_singleton.mp hmem] at hrise
        exact absurd hrise (lt_irrefl _)
    · apply h.nHeightLast.keep
      rintro ⟨l,hmem,hlow⟩
      exact hrise ((hheight.2 (List.mem_append_left _ hmem)).trans_lt hlow)
  · rw [List.map_append]
    exact isLeast_append (hfirst Prod.snd) fun hne => h.nTimeFirst (hne ∘ List.map_eq_nil_iff.mpr)
  · have hgreatest := h.nTimeLast.insert nTimeIn
    rw [List.map_append, List.map_singleton, setOf_mem_append, Set.insert_comm]
    change IsGreatest _ (if nTimeIn > info.nTimeLast then nTimeIn else info.nTimeLast)
    split_ifs with hlater
    · rwa [max_eq_left hlater.le] at hgreatest
    · rwa [max_eq_right (not_lt.mp hlater)] at hgreatest

theorem CBlockFileInfo.added_addBlocks (hlen : calls.length < 2^32) :
    (CBlockFileInfo.null.addBlocks calls).Added calls := by
  -- The induction is on the calls, the last one at the end.
  induction calls using List.reverseRecOn with
  | nil => exact null_added
  | append_singleton calls call ih =>
    rw [List.length_append, List.length_singleton] at hlen
    rw [addBlocks, List.foldl_append]
    exact (ih (by omega)).addBlock hlen call.1 call.2

/-- The count of the blocks is an `unsigned int`. -/
theorem CBlockFileInfo.addBlocks_nBlocks_lt (calls : List (ℕ × ℕ)) :
    (CBlockFileInfo.null.addBlocks calls).nBlocks < 2^32 := by
  induction calls using List.reverseRecOn with
  | nil => decide
  | append_singleton calls call ih =>
    rw [addBlocks, List.foldl_append]
    exact Nat.mod_lt _ (by decide)

/-- The statistics are the bounds of the blocks added exactly when the count does not wrap and the
rises of the height end with the greatest one: `AddBlock` compares a height with `nHeightFirst`
where it looks for the last one. -/
theorem blockFile_stats_iff (calls : List (ℕ × ℕ)) :
    (CBlockFileInfo.null.addBlocks calls).Bounds calls ↔
      calls.length < 2^32 ∧ RisesEndHighest (calls.map Prod.fst) := by
  constructor
  · intro h
    have hlen : calls.length < 2^32 := h.nBlocks ▸ CBlockFileInfo.addBlocks_nBlocks_lt calls
    refine ⟨hlen, ?_⟩
    by_cases hnil : calls = []
    · rw [hnil]
      exact Or.inl fun _ hmem => absurd hmem List.not_mem_nil
    -- the height that the field holds is that of the last rise
    · have hadded := CBlockFileInfo.added_addBlocks hlen
      rw [← hadded.nHeightLast.isGreatest_iff (hnil ∘ List.map_eq_nil_iff.mp)]
      exact h.nHeightLast hnil
  · rintro ⟨hlen,hrises⟩
    have hadded := CBlockFileInfo.added_addBlocks hlen
    refine ⟨hadded.nBlocks, hadded.nHeightFirst, fun hne => ?_, hadded.nTimeFirst, fun hne => ?_⟩
    · rwa [hadded.nHeightLast.isGreatest_iff (hne ∘ List.map_eq_nil_iff.mp)]
    · -- the zero it starts with is no time of a block unless one has it
      obtain ⟨hmem,hupper⟩ := hadded.nTimeLast
      refine ⟨?_, fun t ht => hupper (Set.mem_insert_of_mem _ ht)⟩
      rcases hmem with hzero | hmem
      · obtain ⟨t,ht⟩ := List.exists_mem_of_ne_nil _ (hne ∘ List.map_eq_nil_iff.mp)
        have hle := hupper (Set.mem_insert_of_mem _ ht)
        rw [hzero] at hle ⊢
        rwa [Nat.le_zero.mp hle] at ht
      · exact hmem

/-- One block leaves `nHeightLast` at zero, and of three the last is taken for the highest. -/
theorem nHeightLast_not_greatest :
    (CBlockFileInfo.null.addBlocks [(5,1400000000)]).nHeightLast = 0 ∧
    (CBlockFileInfo.null.addBlocks [(1,1400000000),(3,1400000120),(2,1400000060)]).nHeightLast = 2 ∧
    ¬(CBlockFileInfo.null.addBlocks [(5,1400000000)]).Bounds [(5,1400000000)] ∧
    ¬(CBlockFileInfo.null.addBlocks [(1,1400000000),(3,1400000120),(2,1400000060)]).Bounds
      [(1,1400000000),(3,1400000120),(2,1400000060)] := by
  have hone : (CBlockFileInfo.null.addBlocks [(5,1400000000)]).nHeightLast = 0 := by decide
  have hthree : (CBlockFileInfo.null.addBlocks
    [(1,1400000000),(3,1400000120),(2,1400000060)]).nHeightLast = 2 := by decide
  refine ⟨hone, hthree, fun h => ?_, fun h => ?_⟩
  · have hmem := (h.nHeightLast (List.cons_ne_nil _ _)).1
    rw [hone] at hmem
    exact absurd hmem (by decide)
  · have hupper := (h.nHeightLast (List.cons_ne_nil _ _)).2
    rw [hthree] at hupper
    have hle : 3 ≤ 2 := hupper (by decide)
    exact absurd hle (by decide)

end Calls

end Candypool.Chain
