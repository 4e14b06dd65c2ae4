import Candypool.Lib.Int64
import Candypool.Lib.OrderStatistic
import Candypool.Net.AddrMan

/-! The clock that follows the peers: a median filter over the offsets of their clocks. -/
namespace Candypool.Net
open Candypool.Lib

structure CMedianFilter where
  vValues : List ℤ
  vSorted : List ℤ
  nSize : ℕ
  deriving DecidableEq

namespace CMedianFilter

def new (size : ℕ) (initialValue : ℤ) : CMedianFilter := ⟨[initialValue],[initialValue],size⟩

def input (filter : CMedianFilter) (value : ℤ) : CMedianFilter :=
  let vValues := if filter.vValues.length = filter.nSize then filter.vValues.tail else filter.vValues
  let vValues := vValues ++ [value]
  { filter with vValues := vValues, vSorted := vValues.insertionSort (· ≤ ·) }

/-- The assertion is that there is a value. -/
def median (filter : CMedianFilter) : Option ℤ :=
  let size := filter.vSorted.length
  if size = 0 then none
  else if size % 2 = 1 then filter.vSorted[size/2]?
  else do
    let low ← filter.vSorted[size/2-1]?
    let high ← filter.vSorted[size/2]?
    return (wrap64 (low+high)).tdiv 2

def size (filter : CMedianFilter) : ℕ := filter.vValues.length

end CMedianFilter

/-- A call of `AddTimeData`, with what `GetTime` returns in it. -/
structure TimeCall where
  ip : CNetAddr
  nTime : ℤ
  now : ℤ

def TimeCall.nOffsetSample (call : TimeCall) : ℤ := wrap64 (call.nTime-call.now)

structure TimeData where
  setKnown : Finset CNetAddr
  vTimeOffsets : CMedianFilter
  nTimeOffset : ℤ
  fDone : Bool
  strMiscWarning : String
  deriving DecidableEq

namespace TimeData

def init : TimeData where
  setKnown := ∅
  vTimeOffsets := .new 200 0
  nTimeOffset := 0
  fDone := false
  strMiscWarning := ""

def clockWarning : String :=
  "Warning: Please check that your computer's date and time are correct! If your clock is wrong Primecoin will not work properly."

/-- Somebody has a time different than ours but within 5 minutes of ours. -/
def someMatch (vSorted : List ℤ) : Bool :=
  vSorted.any fun nOffset => nOffset != 0 && decide (abs64 nOffset < 5*60)

/-- What a median does to the offset of the clock. -/
def follow (data : TimeData) (nMedian : ℤ) : TimeData :=
  -- only let other nodes change our time by so much
  if abs64 nMedian < 70*60 then { data with nTimeOffset := nMedian }
  else if data.fDone ∨ someMatch data.vTimeOffsets.vSorted then { data with nTimeOffset := 0 }
  else { data with nTimeOffset := 0, fDone := true, strMiscWarning := clockWarning }

/-- `AddTimeData`. -/
def add (data : TimeData) (call : TimeCall) : Option TimeData :=
  -- ignore duplicates
  if call.ip ∈ data.setKnown then some data
  else
    let data := { data with
      setKnown := insert call.ip data.setKnown
      vTimeOffsets := data.vTimeOffsets.input call.nOffsetSample }
    if data.vTimeOffsets.size ≥ 5 ∧ data.vTimeOffsets.size % 2 = 1 then
      data.vTimeOffsets.median.map data.follow
    else some data

/-- The calls one after the other. -/
def run (calls : List TimeCall) : Option TimeData := calls.foldlM add init

end TimeData

section Filter
variable {filter : CMedianFilter}

theorem CMedianFilter.median_congr {filter' : CMedianFilter} (h : filter.vSorted = filter'.vSorted) :
    filter.median = filter'.median := by
  rw [median, median, h]

/-- The sorted copy is the sorted window, and there is a value. -/
structure CMedianFilter.Sorted (filter : CMedianFilter) : Prop where
  values : filter.vValues ≠ []
  sorted : filter.vSorted = filter.vValues.insertionSort (· ≤ ·)

theorem CMedianFilter.Sorted.input (filter : CMedianFilter) (value : ℤ) :
    (filter.input value).Sorted := ⟨List.append_ne_nil_of_right_ne_nil _ (List.cons_ne_nil _ _), rfl⟩

theorem CMedianFilter.Sorted.rank (h : filter.Sorted) {k : ℕ} (hk : k < filter.size) :
    ∃ v, filter.vSorted[k]? = some v ∧ Rank filter.vValues k v := by
  have hlen : k < filter.vSorted.length := by
    rw [h.sorted, List.length_insertionSort]
    exact hk
  refine ⟨_, List.getElem?_eq_getElem hlen, ?_⟩
  apply Rank.perm (s := filter.vSorted)
  · apply rank_of_sorted _ (List.getElem?_eq_getElem hlen)
    rw [h.sorted]
    exact List.pairwise_insertionSort _ _
  · rw [h.sorted]
    exact List.perm_insertionSort _ _

/-- `median` is the median of the window, if the two in the middle can be added. -/
theorem CMedianFilter.Sorted.median (h : filter.Sorted) :
    ∃ m, filter.median = some m ∧
      ((filter.size % 2 = 1 ∨ ∀ v ∈ filter.vValues, -2^62 ≤ v ∧ v < 2^62) →
        IsMedian filter.vValues m) := by
  have hpos : 0 < filter.size := List.length_pos_iff.mpr h.values
  have hlen : filter.vSorted.length = filter.size := by
    rw [h.sorted, List.length_insertionSort]
    rfl
  obtain ⟨high,hhigh,hrankHigh⟩ := h.rank (show filter.size/2 < filter.size by omega)
  rw [CMedianFilter.median, hlen]
  -- the middle value alone, or the two in the middle added as 64-bit integers
  by_cases hodd : filter.size % 2 = 1
  · refine ⟨high, ?_, fun _ => ⟨high, high, ?_, hrankHigh, ?_⟩⟩
    · simp only [if_neg hpos.ne', if_pos hodd]
      exact hhigh
    · have hmiddle : (filter.size-1)/2 = filter.size/2 := by omega
      change Rank _ ((filter.size-1)/2) high
      rw [hmiddle]
      exact hrankHigh
    · rw [← two_mul, Int.mul_tdiv_cancel_left _ (by decide)]
  · obtain ⟨low,hlow,hrankLow⟩ := h.rank (show filter.size/2-1 < filter.size by omega)
    refine ⟨(wrap64 (low+high)).tdiv 2, ?_, fun hfits => ⟨low, high, ?_, hrankHigh, ?_⟩⟩
    · simp only [if_neg hpos.ne', if_neg hodd]
      rw [hlow, hhigh]
      rfl
    · have hmiddle : (filter.size-1)/2 = filter.size/2-1 := by omega
      change Rank _ ((filter.size-1)/2) low
      rw [hmiddle]
      exact hrankLow
    · have hbounds := hfits.resolve_left hodd
      have hmem {k : ℕ} {v : ℤ} (hk : filter.vSorted[k]? = some v) : v ∈ filter.vValues := by
        have hin := List.mem_of_getElem? hk
        rwa [h.sorted, List.mem_insertionSort] at hin
      have hl := hbounds low (hmem hlow)
      have hh := hbounds high (hmem hhigh)
      rw [wrap64_eq (by omega) (by omega)]

/-- The median of an odd number of values is one of them. -/
theorem CMedianFilter.Sorted.median_mem (h : filter.Sorted) (hodd : filter.size % 2 = 1) :
    ∃ m ∈ filter.vValues, filter.median = some m := by
  obtain ⟨m,hm,-⟩ := h.rank (show filter.size/2 < filter.size by omega)
  have hlen : filter.vSorted.length = filter.size := by
    rw [h.sorted, List.length_insertionSort]
    rfl
  refine ⟨m, ?_, ?_⟩
  · have hin := List.mem_of_getElem? hm
    rwa [h.sorted, List.mem_insertionSort] at hin
  · rw [CMedianFilter.median, hlen]
    simp only [if_neg (show ¬filter.size = 0 by omega), if_pos hodd]
    exact hm

end Filter

namespace TimeData
variable {data data' : TimeData} {calls : List TimeCall} {call : TimeCall}

section Run

/-- The calls of addresses that were not heard before. -/
def firstCalls (calls : List TimeCall) : List TimeCall :=
  calls.foldl (fun first call => if call.ip ∈ first.map TimeCall.ip then first else first ++ [call]) []

/-- All offsets there are, with the one at the start. -/
def offsets (calls : List TimeCall) : List ℤ := 0 :: (firstCalls calls).map TimeCall.nOffsetSample

/-- The difference of the clocks fits, and has an absolute value. -/
def Fits (call : TimeCall) : Prop := -2^63 < call.nTime-call.now ∧ call.nTime-call.now < 2^63

/-- The offset is the current median, if that is within the limit, and 0 otherwise. -/
def Follows (data : TimeData) : Prop :=
  ∃ m, data.vTimeOffsets.median = some m ∧
    data.nTimeOffset = if |m| < 70*60 then m else 0

/-- What holds after any calls. -/
structure After (calls : List TimeCall) (data : TimeData) : Prop where
  known : data.setKnown = ((firstCalls calls).map TimeCall.ip).toFinset
  nSize : data.vTimeOffsets.nSize = 200
  window : data.vTimeOffsets.vValues = (offsets calls).drop ((offsets calls).length-200)
  sorted : data.vTimeOffsets.Sorted
  limited : |data.nTimeOffset| < 70*60
  follows : 5 ≤ data.vTimeOffsets.size → data.vTimeOffsets.size % 2 = 1 → data.Follows

theorem firstCalls_concat (calls : List TimeCall) (call : TimeCall) :
    firstCalls (calls ++ [call]) = if call.ip ∈ (firstCalls calls).map TimeCall.ip then firstCalls calls
      else firstCalls calls ++ [call] := by
  rw [firstCalls, List.foldl_append]
  rfl

theorem After.size (h : After calls data) :
    data.vTimeOffsets.size = min 200 ((firstCalls calls).length+1) := by
  rw [CMedianFilter.size, h.window, List.length_drop, offsets, List.length_cons, List.length_map]
  omega

theorem After.mem_known (h : After calls data) :
    call.ip ∈ data.setKnown ↔ call.ip ∈ (firstCalls calls).map TimeCall.ip := by
  rw [h.known, List.mem_toFinset]

theorem nOffsetSample_fits (h : Fits call) :
    -2^63 < call.nOffsetSample ∧ call.nOffsetSample < 2^63 := by
  rw [TimeCall.nOffsetSample, wrap64_eq h.1.le h.2]
  exact h

theorem firstCalls_subset {c : TimeCall} (hc : c ∈ firstCalls calls) : c ∈ calls := by
  induction calls using List.reverseRecOn with
  | nil => exact hc
  | append_singleton calls call ih =>
    rw [firstCalls_concat] at hc
    split_ifs at hc
    · exact List.mem_append_left _ (ih hc)
    · rcases List.mem_append.mp hc with hc | hc
      · exact List.mem_append_left _ (ih hc)
      · exact List.mem_append_right _ hc

theorem offsets_fit (hcalls : ∀ c ∈ calls, Fits c) : ∀ v ∈ offsets calls, -2^63 < v ∧ v < 2^63 := by
  intro v hv
  rcases List.mem_cons.mp hv with rfl | hv
  · decide
  · obtain ⟨c,hc,rfl⟩ := List.mem_map.mp hv
    exact nOffsetSample_fits (hcalls c (firstCalls_subset hc))

theorem After.congr {calls' : List TimeCall} (h : After calls data)
    (hsame : firstCalls calls' = firstCalls calls) : After calls' data where
  known := by rw [hsame, h.known]
  nSize := h.nSize
  window := by rw [offsets, hsame, h.window, offsets]
  sorted := h.sorted
  limited := h.limited
  follows := h.follows

/-- The window slides over the offsets. -/
theorem After.input (h : After calls data) (hnew : call.ip ∉ data.setKnown) :
    (data.vTimeOffsets.input call.nOffsetSample).vValues =
      (offsets (calls ++ [call])).drop ((offsets (calls ++ [call])).length-200) := by
  have hoffsets : offsets (calls ++ [call]) = offsets calls ++ [call.nOffsetSample] := by
    rw [offsets, firstCalls_concat, if_neg (mt h.mem_known.mpr hnew), List.map_append]
    rfl
  have hlen : (offsets (calls ++ [call])).length = (offsets calls).length+1 := by
    rw [hoffsets, List.length_append, List.length_singleton]
  have hdrop : (offsets (calls ++ [call])).drop ((offsets (calls ++ [call])).length-200) =
      (offsets calls).drop ((offsets calls).length+1-200) ++ [call.nOffsetSample] := by
    rw [hlen, hoffsets, List.drop_append_of_le_length (by omega)]
  rw [hdrop, CMedianFilter.input, h.nSize, h.window, List.length_drop]
  -- a full window drops its oldest offset
  by_cases hfull : 200 ≤ (offsets calls).length
  · simp only [if_pos (show (offsets calls).length-((offsets calls).length-200) = 200 by omega),
      List.tail_drop]
    rw [show (offsets calls).length-200+1 = (offsets calls).length+1-200 by omega]
  · simp only [if_neg (show ¬(offsets calls).length-((offsets calls).length-200) = 200 by omega)]
    rw [show (offsets calls).length-200 = (offsets calls).length+1-200 by omega]

theorem follow_follows (hfits : ∀ v ∈ data.vTimeOffsets.vValues, -2^63 < v ∧ v < 2^63) {m : ℤ}
    (hm : data.vTimeOffsets.median = some m) (hmem : m ∈ data.vTimeOffsets.vValues) :
    (data.follow m).Follows ∧ |(data.follow m).nTimeOffset| < 70*60 := by
  have habs : abs64 m = |m| := abs64_eq (hfits m hmem).1 (hfits m hmem).2
  rw [follow, habs]
  split_ifs with hlimit hquiet
  · exact ⟨⟨m, hm, (if_pos hlimit).symm⟩, hlimit⟩
  · exact ⟨⟨m, hm, (if_neg hlimit).symm⟩, show |(0 : ℤ)| < 70*60 by decide⟩
  · exact ⟨⟨m, hm, (if_neg hlimit).symm⟩, show |(0 : ℤ)| < 70*60 by decide⟩

theorem follow_kept (data : TimeData) (m : ℤ) :
    (data.follow m).setKnown = data.setKnown ∧ (data.follow m).vTimeOffsets = data.vTimeOffsets := by
  rw [follow]
  split_ifs <;> exact ⟨rfl, rfl⟩

/-- A repeated address has no effect. -/
theorem add_known (h : call.ip ∈ data.setKnown) : data.add call = some data := if_pos h

theorem init_after : After [] init where
  known := rfl
  nSize := rfl
  window := rfl
  sorted := ⟨List.cons_ne_nil _ _, rfl⟩
  limited := by decide
  follows h _ := absurd h (by decide)

theorem After.add (h : After calls data) (hcalls : ∀ c ∈ calls ++ [call], Fits c) :
    ∃ data', data.add call = some data' ∧ After (calls ++ [call]) data' := by
  by_cases hknown : call.ip ∈ data.setKnown
  · refine ⟨data, add_known hknown, h.congr ?_⟩
    rw [firstCalls_concat, if_pos (h.mem_known.mp hknown)]
  · let data1 : TimeData := { data with
      setKnown := insert call.ip data.setKnown
      vTimeOffsets := data.vTimeOffsets.input call.nOffsetSample }
    have hadd : data.add call = if data1.vTimeOffsets.size ≥ 5 ∧ data1.vTimeOffsets.size % 2 = 1 then
        data1.vTimeOffsets.median.map data1.follow else some data1 := if_neg hknown
    have hwindow := h.input hknown
    have hsorted : data1.vTimeOffsets.Sorted := CMedianFilter.Sorted.input _ _
    have hset : insert call.ip data.setKnown =
        ((firstCalls (calls ++ [call])).map TimeCall.ip).toFinset := by
      rw [firstCalls_concat, if_neg (mt h.mem_known.mpr hknown), List.map_append, List.toFinset_append,
        h.known, List.map_singleton, List.toFinset_cons, List.toFinset_nil, Finset.insert_eq,
        Finset.union_comm]
      rfl
    rw [hadd]
    -- only at an odd number of offsets is the clock looked at
    by_cases hodd : data1.vTimeOffsets.size ≥ 5 ∧ data1.vTimeOffsets.size % 2 = 1
    · obtain ⟨m,hmem,hm⟩ := hsorted.median_mem hodd.2
      have hfits : ∀ v ∈ data1.vTimeOffsets.vValues, -2^63 < v ∧ v < 2^63 := by
        intro v hv
        rw [show data1.vTimeOffsets.vValues = _ from hwindow] at hv
        exact offsets_fit hcalls v (List.mem_of_mem_drop hv)
      obtain ⟨hfollows,hlimited⟩ := follow_follows hfits hm hmem
      obtain ⟨hkeptSet,hkeptFilter⟩ := follow_kept data1 m
      refine ⟨data1.follow m, ?_, ?_⟩
      · rw [if_pos hodd, hm]
        rfl
      · exact ⟨hkeptSet.trans hset, by rw [hkeptFilter]; exact h.nSize,
          by rw [hkeptFilter]; exact hwindow, by rw [hkeptFilter]; exact hsorted, hlimited,
          fun _ _ => hfollows⟩
    · refine ⟨data1, if_neg hodd, ⟨hset, h.nSize, hwindow, hsorted, h.limited, ?_⟩⟩
      exact fun hfive hsize => absurd ⟨hfive, hsize⟩ hodd

theorem run_after (hcalls : ∀ c ∈ calls, Fits c) : ∃ data, run calls = some data ∧ After calls data := by
  induction calls using List.reverseRecOn with
  | nil => exact ⟨init, rfl, init_after⟩
  | append_singleton calls call ih =>
    obtain ⟨data,hrun,h⟩ := ih fun c hc => hcalls c (List.mem_append_left _ hc)
    obtain ⟨data',hadd,h'⟩ := h.add hcalls
    refine ⟨data', ?_, h'⟩
    rw [run, List.foldlM_append]
    change (run calls).bind _ = _
    rw [hrun, Option.bind_some, List.foldlM_cons, hadd]
    rfl

theorem mem_firstCalls_ip {ip : CNetAddr} :
    ip ∈ (firstCalls calls).map TimeCall.ip ↔ ip ∈ calls.map TimeCall.ip := by
  induction calls using List.reverseRecOn with
  | nil => exact Iff.rfl
  | append_singleton calls call ih =>
    rw [firstCalls_concat, List.map_append, List.mem_append, List.map_singleton, List.mem_singleton, ← ih]
    split_ifs with hin
    · refine ⟨Or.inl, fun h => h.elim id ?_⟩
      rintro rfl
      exact hin
    · rw [List.map_append, List.mem_append, List.map_singleton, List.mem_singleton]

theorem firstCalls_of_nodup (h : (calls.map TimeCall.ip).Nodup) : firstCalls calls = calls := by
  induction calls using List.reverseRecOn with
  | nil => rfl
  | append_singleton calls call ih =>
    rw [List.map_append, List.nodup_append'] at h
    obtain ⟨hcalls,-,hdisjoint⟩ := h
    rw [firstCalls_concat, ih hcalls, if_neg]
    exact fun hin => hdisjoint hin (List.mem_singleton.mpr rfl)

/-- In a state with a new address there is one offset more, until there are two hundred. -/
theorem After.add_size (h : After calls data) (hcalls : ∀ c ∈ calls ++ [call], Fits c)
    (hnew : call.ip ∉ data.setKnown) (hadd : data.add call = some data') :
    After (calls ++ [call]) data' ∧
      data'.vTimeOffsets.size = min 200 ((firstCalls calls).length+2) := by
  obtain ⟨data'',hadd',h'⟩ := h.add hcalls
  obtain rfl := Option.some.inj (hadd'.symm.trans hadd)
  refine ⟨h', ?_⟩
  rw [h'.size, firstCalls_concat, if_neg (mt h.mem_known.mpr hnew), List.length_append,
    List.length_singleton]

/-- After 198 addresses the next one makes two hundred offsets, and there the number stays. -/
theorem After.frozen (h : After calls data) (hfull : 198 ≤ (firstCalls calls).length)
    (hadd : data.add call = some data') : data'.nTimeOffset = data.nTimeOffset := by
  by_cases hknown : call.ip ∈ data.setKnown
  · rw [← Option.some.inj ((add_known hknown).symm.trans hadd)]
  · have hsize : (data.vTimeOffsets.input call.nOffsetSample).size = 200 := by
      rw [CMedianFilter.size, h.input hknown, List.length_drop, offsets, firstCalls_concat,
        if_neg (mt h.mem_known.mpr hknown), List.length_cons, List.length_map, List.length_append,
        List.length_singleton]
      omega
    rw [TimeData.add, if_neg hknown] at hadd
    simp only [hsize] at hadd
    rw [← Option.some.inj hadd]

/-- Of two new offsets one makes the number odd. -/
theorem After.follows_one (h : After calls data) {call1 call2 : TimeCall} {data1 data2 : TimeData}
    (hcalls : ∀ c ∈ calls ++ [call1] ++ [call2], Fits c) (hnew1 : call1.ip ∉ data.setKnown)
    (hadd1 : data.add call1 = some data1) (hnew2 : call2.ip ∉ data1.setKnown)
    (hadd2 : data1.add call2 = some data2) (hfive : 5 ≤ data1.vTimeOffsets.size)
    (hfew : (firstCalls (calls ++ [call1] ++ [call2])).length ≤ 199) :
    data1.Follows ∨ data2.Follows := by
  obtain ⟨h1,hsize1⟩ := h.add_size (fun c hc => hcalls c (List.mem_append_left _ hc)) hnew1 hadd1
  obtain ⟨h2,hsize2⟩ := h1.add_size hcalls hnew2 hadd2
  rw [firstCalls_concat, if_neg (mt h1.mem_known.mpr hnew2), List.length_append,
    List.length_singleton] at hfew
  have hlen := h1.size
  by_cases hodd : data1.vTimeOffsets.size % 2 = 1
  · exact Or.inl (h1.follows hfive hodd)
  · exact Or.inr (h2.follows (by omega) (by omega))

end Run

end TimeData

open TimeData

/-- The filter holds the last two hundred offsets and gives their median, a repeated address has no
effect, and the clock stays within 70 minutes. With at most 199 addresses the offset of the clock is the
median after every second new address; after 198 it never changes again. -/
theorem adjusted_clock_follows (calls : List TimeCall) (hcalls : ∀ c ∈ calls, Fits c) :
    ∃ data, run calls = some data ∧
      data.vTimeOffsets.vValues = (offsets calls).drop ((offsets calls).length-200) ∧
      (∃ m, data.vTimeOffsets.median = some m ∧ ((data.vTimeOffsets.size % 2 = 1 ∨
        ∀ v ∈ data.vTimeOffsets.vValues, -2^62 ≤ v ∧ v < 2^62) → IsMedian data.vTimeOffsets.vValues m)) ∧
      (∀ call : TimeCall, call.ip ∈ calls.map TimeCall.ip → data.add call = some data) ∧
      |data.nTimeOffset| < 70*60 ∧
      (∀ call1 call2 data1 data2, Fits call1 → Fits call2 →
        call1.ip ∉ data.setKnown → data.add call1 = some data1 →
        call2.ip ∉ data1.setKnown → data1.add call2 = some data2 → 5 ≤ data1.vTimeOffsets.size →
        (firstCalls (calls ++ [call1] ++ [call2])).length ≤ 199 → data1.Follows ∨ data2.Follows) ∧
      (198 ≤ (firstCalls calls).length → ∀ call data', data.add call = some data' →
        data'.nTimeOffset = data.nTimeOffset) := by
  obtain ⟨data,hrun,h⟩ := run_after hcalls
  refine ⟨data, hrun, h.window, h.sorted.median, fun call hcall => ?_, h.limited, ?_,
    fun hfull call data' hadd => h.frozen hfull hadd⟩
  · exact add_known (h.mem_known.mpr (mem_firstCalls_ip.mpr hcall))
  · intro call1 call2 data1 data2 hfits1 hfits2 hnew1 hadd1 hnew2 hadd2 hfive hfew
    apply h.follows_one _ hnew1 hadd1 hnew2 hadd2 hfive hfew
    intro c hc
    rcases List.mem_append.mp hc with hc | hc
    · rcases List.mem_append.mp hc with hc | hc
      · exact hcalls c hc
      · rwa [List.mem_singleton.mp hc]
    · rwa [List.mem_singleton.mp hc]

/-- The peers with the first numbers; half of the clocks are behind, half of them ahead. -/
def peerCalls (n : ℕ) : List TimeCall := (List.range n).map fun i =>
  ⟨Vector.replicate 16 (UInt8.ofNat i),1400000000+if i < 99 then -10 else 10,1400000000⟩

theorem peerCalls_fit (n : ℕ) : ∀ c ∈ peerCalls n, Fits c := by
  intro c hc
  obtain ⟨i,-,rfl⟩ := List.mem_map.mp hc
  rw [Fits]
  dsimp only
  split_ifs <;> decide

theorem adjusted_clock_follows_peers :
    ∃ data, run (peerCalls 6) = some data ∧ data.vTimeOffsets.vValues =
        (offsets (peerCalls 6)).drop ((offsets (peerCalls 6)).length-200) ∧
      (∃ m, data.vTimeOffsets.median = some m ∧ ((data.vTimeOffsets.size % 2 = 1 ∨
        ∀ v ∈ data.vTimeOffsets.vValues, -2^62 ≤ v ∧ v < 2^62) → IsMedian data.vTimeOffsets.vValues m)) ∧
      (∀ call : TimeCall, call.ip ∈ (peerCalls 6).map TimeCall.ip → data.add call = some data) ∧
      |data.nTimeOffset| < 70*60 ∧
      (∀ call1 call2 data1 data2, Fits call1 → Fits call2 →
        call1.ip ∉ data.setKnown → data.add call1 = some data1 →
        call2.ip ∉ data1.setKnown → data1.add call2 = some data2 → 5 ≤ data1.vTimeOffsets.size →
        (firstCalls (peerCalls 6 ++ [call1] ++ [call2])).length ≤ 199 →
          data1.Follows ∨ data2.Follows) ∧
      (198 ≤ (firstCalls (peerCalls 6)).length → ∀ call data', data.add call = some data' →
        data'.nTimeOffset = data.nTimeOffset) :=
  adjusted_clock_follows (peerCalls 6) (peerCalls_fit 6)

theorem firstCalls_peers {n : ℕ} (hn : n ≤ 256) : firstCalls (peerCalls n) = peerCalls n := by
  apply firstCalls_of_nodup
  rw [peerCalls, List.map_map]
  apply List.Nodup.map_on _ List.nodup_range
  intro i hi j hj heq
  have hbyte := congrArg (fun ip : CNetAddr => ip[0].toNat) heq
  simp only [Function.comp_apply, Vector.getElem_replicate, UInt8.toNat_ofNat'] at hbyte
  rw [List.mem_range] at hi hj
  omega

theorem peerCalls_window {n : ℕ} (hn : n ≤ 256) {data : TimeData} (h : After (peerCalls n) data) :
    data.vTimeOffsets.median = (⟨[],((0 :: (peerCalls n).map TimeCall.nOffsetSample).drop
      (n+1-200)).insertionSort (· ≤ ·),200⟩ : CMedianFilter).median := by
  have hlen : (offsets (peerCalls n)).length = n+1 := by
    rw [offsets, firstCalls_peers hn, List.length_cons, List.length_map, peerCalls, List.length_map,
      List.length_range]
  apply CMedianFilter.median_congr
  rw [h.sorted.sorted, h.window, hlen, offsets, firstCalls_peers hn]

/-- After 198 peers the median is 0; with the next two it is 5 and then 10, and the clock stays. -/
theorem clock_stops_following :
    ∃ call1 call2 data data1 data2, run (peerCalls 198) = some data ∧ Fits call1 ∧ Fits call2 ∧
      call1.ip ∉ data.setKnown ∧ data.add call1 = some data1 ∧
      call2.ip ∉ data1.setKnown ∧ data1.add call2 = some data2 ∧ 5 ≤ data.vTimeOffsets.size ∧
      ¬data1.Follows ∧ ¬data2.Follows := by
  have hconcat (n : ℕ) : ∃ call, peerCalls (n+1) = peerCalls n ++ [call] := by
    rw [peerCalls, peerCalls, List.range_succ, List.map_append]
    exact ⟨_, rfl⟩
  have hnew {n : ℕ} (hn : n < 256) {call : TimeCall} {data : TimeData}
      (hcall : peerCalls (n+1) = peerCalls n ++ [call]) (h : After (peerCalls n) data) :
      call.ip ∉ data.setKnown := by
    intro hin
    have hfirst := firstCalls_peers (n := n+1) hn
    have hlen := congrArg List.length hfirst
    rw [hcall, firstCalls_concat, if_pos (h.mem_known.mp hin), firstCalls_peers hn.le,
      List.length_append, List.length_singleton] at hlen
    omega
  have hlen (n : ℕ) (hn : n ≤ 256) : (firstCalls (peerCalls n)).length = n := by
    rw [firstCalls_peers hn, peerCalls, List.length_map, List.length_range]
  -- the state before the two calls that the clock does not follow
  obtain ⟨data,hrun,h⟩ := run_after (peerCalls_fit 198)
  obtain ⟨call1,hcall1⟩ := hconcat 198
  obtain ⟨call2,hcall2⟩ := hconcat 199
  have hfits1 := peerCalls_fit 199
  have hfits2 := peerCalls_fit 200
  rw [hcall1] at hfits1
  rw [hcall2] at hfits2
  obtain ⟨data1,hadd1,h1⟩ := h.add hfits1
  rw [← hcall1] at h1
  obtain ⟨data2,hadd2,h2⟩ := h1.add hfits2
  rw [← hcall2] at h2
  have hsize : data.vTimeOffsets.size = 199 := by
    rw [h.size, hlen 198 (by decide)]
    rfl
  -- the medians move on, 0, 5 and 10
  have hmedian : data.vTimeOffsets.median = some 0 :=
    (peerCalls_window (by decide) h).trans (by decide +kernel)
  have hmedian1 : data1.vTimeOffsets.median = some 5 :=
    (peerCalls_window (by decide) h1).trans (by decide +kernel)
  have hmedian2 : data2.vTimeOffsets.median = some 10 :=
    (peerCalls_window (by decide) h2).trans (by decide +kernel)
  -- and the clock stays at the first of them
  have hzero : data.nTimeOffset = 0 := by
    obtain ⟨m,hm,hoffset⟩ := h.follows (by omega) (by omega)
    obtain rfl := Option.some.inj (hm.symm.trans hmedian)
    exact hoffset
  have hzero1 := h.frozen (by rw [hlen 198 (by decide)]) hadd1
  have hzero2 := h1.frozen (by rw [hlen 199 (by decide)]; decide) hadd2
  refine ⟨call1, call2, data, data1, data2, hrun, hfits1 call1 ?_, hfits2 call2 ?_,
    hnew (by decide) hcall1 h, hadd1, hnew (by decide) hcall2 h1, hadd2, by omega, ?_, ?_⟩
  · exact List.mem_append_right _ List.mem_cons_self
  · exact List.mem_append_right _ List.mem_cons_self
  · rintro ⟨m,hm,hoffset⟩
    obtain rfl := Option.some.inj (hm.symm.trans hmedian1)
    rw [hzero1, hzero] at hoffset
    exact absurd hoffset (by decide)
  · rintro ⟨m,hm,hoffset⟩
    obtain rfl := Option.some.inj (hm.symm.trans hmedian2)
    rw [hzero2, hzero1, hzero] at hoffset
    exact absurd hoffset (by decide)

end Candypool.Net
