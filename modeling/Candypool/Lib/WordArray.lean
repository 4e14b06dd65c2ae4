import Candypool.Lib.Loop
import Mathlib.Data.BitVec

/-! Bit sets packed into arrays of `w`-bit words. Every operation is described by what it does to
one bit; a set may lie inside a larger array, from word `off` on. -/
namespace Candypool.Lib

variable {w : ℕ}

/-- Bit `i` of the bit set that starts at word `off`. -/
def bitAt (a : Array (BitVec w)) (off i : ℕ) : Bool := (a.getD (off+i/w) 0#w).getLsbD (i%w)

section Masks

/-- `1 << (i % w)` -/
def bitMask (w i : ℕ) : BitVec w := 1#w <<< (i%w)

theorem bitMask_getLsbD {i k : ℕ} (hw : 0 < w) :
    (bitMask w i).getLsbD k = decide (k = i%w) := by
  have hi := Nat.mod_lt i hw
  rw [bitMask, BitVec.getLsbD_shiftLeft, BitVec.getLsbD_one]
  by_cases hk : k = i%w
  · simp [hk, hi, hw]
  · by_cases hlt : k < i%w
    · simp [hk, hlt]
    · have : k-i%w ≠ 0 := by omega
      simp [hk, this]

/-- The mask rotated left by `r` bits. -/
def rotateMask (m : BitVec w) (r : ℕ) : BitVec w := (m <<< r) ||| (m >>> (w-r))

/-- Rotating the mask of `i` by `p % w` gives the mask of `i + p`. -/
theorem rotateMask_bitMask (hw : 0 < w) (p i : ℕ) :
    rotateMask (bitMask w i) (p%w) = bitMask w (i+p) := by
  apply BitVec.eq_of_getLsbD_eq
  intro k hk
  have hi := Nat.mod_lt i hw
  have hr := Nat.mod_lt p hw
  have hsum : (i+p)%w = if i%w+p%w < w then i%w+p%w else i%w+p%w-w := by
    rw [Nat.add_mod]
    split_ifs with h
    · exact Nat.mod_eq_of_lt h
    · rw [Nat.mod_eq_sub_mod (by omega)]
      exact Nat.mod_eq_of_lt (by omega)
  rw [rotateMask, BitVec.getLsbD_or, BitVec.getLsbD_shiftLeft, BitVec.getLsbD_ushiftRight,
    bitMask_getLsbD hw, bitMask_getLsbD hw, bitMask_getLsbD hw, hsum]
  simp only [hk, decide_true, Bool.true_and]
  by_cases hkr : k < p%w
  · simp only [hkr, decide_true, Bool.not_true, Bool.false_and, Bool.false_or]
    apply decide_eq_decide.mpr
    split_ifs <;> omega
  · simp only [hkr, decide_false, Bool.not_false, Bool.true_and]
    rw [← Bool.decide_or]
    apply decide_eq_decide.mpr
    split_ifs <;> omega

end Masks

section OneWord
variable (a : Array (BitVec w)) (off i j : ℕ)

/-- `a[j] |= m` -/
def orWord (m : BitVec w) : Array (BitVec w) := a.modify j (· ||| m)

@[simp] theorem orWord_size (m : BitVec w) : (orWord a j m).size = a.size := by simp [orWord]

theorem getD_modify (f : BitVec w → BitVec w) (hi : i < a.size) :
    (a.modify j f).getD i 0#w = if i = j then f (a.getD i 0#w) else a.getD i 0#w := by
  simp only [Array.getD_eq_getD_getElem?, Array.getElem?_modify]
  by_cases h : i = j
  · simp [h.symm, Array.getElem?_eq_getElem hi]
  · simp [h, Ne.symm h]

/-- Setting the mask of `i` in its word sets bit `i` and no other. -/
theorem bitAt_orWord (hw : 0 < w) (hi : i/w < a.size) :
    bitAt (orWord a (i/w) (bitMask w i)) 0 j = (bitAt a 0 j || decide (j = i)) := by
  unfold bitAt orWord
  by_cases hj : j/w < a.size
  · rw [zero_add, getD_modify a (j/w) (i/w) _ hj]
    split_ifs with hword
    · rw [BitVec.getLsbD_or, bitMask_getLsbD hw]
      congr 1
      apply decide_eq_decide.mpr
      constructor
      · intro hbit
        rw [← Nat.div_add_mod j w, hword, hbit, Nat.div_add_mod]
      · rintro rfl
        rfl
    · have hne : j ≠ i := by
        rintro rfl
        exact hword rfl
      simp [hne]
  · have hne : j ≠ i := by
      rintro rfl
      exact hj hi
    have hout : (a.modify (i/w) (· ||| bitMask w i))[j/w]? = none :=
      Array.getElem?_eq_none (by simpa using hj)
    have hout' : a[j/w]? = none := Array.getElem?_eq_none (by omega)
    simp [hne, hout, hout']

end OneWord

section WordRange

/-- `for (j = lo; j < hi; j++) a[off+j] = g(j, a[off+j]);` -/
def mapWords (g : ℕ → BitVec w → BitVec w) (off lo hi : ℕ) (a : Array (BitVec w)) :
    Array (BitVec w) :=
  rangeLoop never (fun a j => a.modify (off+j) (g j)) lo hi a

theorem mapWords_spec (g : ℕ → BitVec w → BitVec w) (off lo hi : ℕ) (a : Array (BitVec w)) :
    (mapWords g off lo hi a).size = a.size ∧
    ∀ j < a.size, (mapWords g off lo hi a).getD j 0#w =
      if off+lo ≤ j ∧ j < off+hi then g (j-off) (a.getD j 0#w) else a.getD j 0#w := by
  rcases Nat.lt_or_ge hi lo with hlt | hle
  · rw [mapWords, rangeLoop, if_neg (by omega)]
    refine ⟨rfl,fun j _ => ?_⟩
    rw [if_neg (by omega)]
  refine rangeLoop_induct (fun n (b : Array (BitVec w)) => b.size = a.size ∧ ∀ j < a.size, b.getD j 0#w =
      if off+lo ≤ j ∧ j < off+n then g (j-off) (a.getD j 0#w) else a.getD j 0#w)
    hle never_eq_false ?_ ?_
  · rintro n b hlo - ⟨hsize,hget⟩
    refine ⟨by rw [Array.size_modify, hsize],fun j hj => ?_⟩
    rw [getD_modify b j (off+n) _ (by omega), hget j hj]
    by_cases heq : j = off+n
    · rw [if_pos heq, if_neg (by omega), if_pos (by omega), heq, Nat.add_sub_cancel_left]
    · rw [if_neg heq]
      congr 1
      simp only [eq_iff_iff]
      omega
  · refine ⟨rfl,fun j _ => ?_⟩
    rw [if_neg (by omega)]

@[simp] theorem mapWords_size (g : ℕ → BitVec w → BitVec w) (off lo hi : ℕ) (a : Array (BitVec w)) :
    (mapWords g off lo hi a).size = a.size := (mapWords_spec g off lo hi a).1

theorem mapWords_getD {g : ℕ → BitVec w → BitVec w} {off lo hi : ℕ} {a : Array (BitVec w)} {j : ℕ}
    (hj : off+j < a.size) : (mapWords g off lo hi a).getD (off+j) 0#w =
      if lo ≤ j ∧ j < hi then g j (a.getD (off+j) 0#w) else a.getD (off+j) 0#w := by
  rw [(mapWords_spec g off lo hi a).2 _ hj, Nat.add_sub_cancel_left]
  congr 1
  simp only [eq_iff_iff]
  omega

/-- Words outside the range keep their bits. -/
theorem bitAt_mapWords_of_disjoint {g : ℕ → BitVec w → BitVec w} {off off' lo hi : ℕ}
    {a : Array (BitVec w)} {i : ℕ} (hi' : off'+i/w < a.size)
    (hdisj : off'+i/w < off+lo ∨ off+hi ≤ off'+i/w) :
    bitAt (mapWords g off lo hi a) off' i = bitAt a off' i := by
  unfold bitAt
  rw [(mapWords_spec g off lo hi a).2 _ hi', if_neg (by omega)]

/-- `memset(a + lo, 0, count * sizeof(word))` -/
def wipeWords (a : Array (BitVec w)) (lo count : ℕ) : Array (BitVec w) :=
  mapWords (fun _ _ => 0#w) 0 lo (lo+count) a

@[simp] theorem wipeWords_size (a : Array (BitVec w)) (lo count : ℕ) :
    (wipeWords a lo count).size = a.size := mapWords_size ..

theorem bitAt_wipeWords {a : Array (BitVec w)} {lo count i : ℕ} (hi : i/w < a.size) :
    bitAt (wipeWords a lo count) 0 i = true ↔
      bitAt a 0 i = true ∧ ¬ (lo ≤ i/w ∧ i/w < lo+count) := by
  unfold bitAt wipeWords
  rw [mapWords_getD (by omega)]
  split_ifs with h <;> simp [h]

/-- `for (j = lo; j < hi; j++) dst[off+j] |= src[j];` -/
def orWords (dst : Array (BitVec w)) (off lo hi : ℕ) (src : Array (BitVec w)) : Array (BitVec w) :=
  mapWords (fun j x => x ||| src.getD j 0#w) off lo hi dst

@[simp] theorem orWords_size (dst : Array (BitVec w)) (off lo hi : ℕ) (src : Array (BitVec w)) :
    (orWords dst off lo hi src).size = dst.size := mapWords_size ..

theorem bitAt_orWords {dst src : Array (BitVec w)} {off lo hi i : ℕ} (hi' : off+i/w < dst.size) :
    bitAt (orWords dst off lo hi src) off i = true ↔
      bitAt dst off i = true ∨ (lo ≤ i/w ∧ i/w < hi) ∧ bitAt src 0 i = true := by
  unfold bitAt orWords
  rw [mapWords_getD hi']
  split_ifs with h <;> simp [h]

end WordRange

end Candypool.Lib
