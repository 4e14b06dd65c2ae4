import Candypool.Lib.Limbs
import Candypool.Lib.Regroup

/-! The integers of fixed width, as arrays of 32-bit words: `base_uint`. -/
namespace Candypool.Core
open Candypool.Lib

/-- `base_uint<32*WIDTH>` -/
structure BaseUint (WIDTH : ℕ) where
  pn : Array (BitVec 32)
  size_pn : pn.size = WIDTH

namespace BaseUint

section Words
variable (WIDTH : ℕ)

/-- The words after `for (i = 0; i < WIDTH; i++) pn[i] = g(i);`. -/
def fillWords (g : ℕ → BitVec 32) : Array (BitVec 32) :=
  rangeLoop never (fun pn i => pn.setIfInBounds i (g i)) 0 WIDTH (Array.replicate WIDTH 0#32)

/-- The words after `operator=(uint64)`. -/
def uint64Words (b : BitVec 64) : Array (BitVec 32) :=
  rangeLoop never (fun pn i => pn.setIfInBounds i 0#32) 2 WIDTH
    (((Array.replicate WIDTH 0#32).setIfInBounds 0 (b.setWidth 32)).setIfInBounds 1
      ((b >>> 32).setWidth 32))

/-- One turn of `operator+=`, with the carry of the turns before. -/
def addTurn (b : Array (BitVec 32)) (s : Array (BitVec 32) × ℕ) (i : ℕ) : Array (BitVec 32) × ℕ :=
  let n := (s.2+(s.1.getD i 0#32).toNat+(b.getD i 0#32).toNat)%2^64
  (s.1.setIfInBounds i (BitVec.ofNat 32 (n &&& 0xffffffff)),n >>> 32)

def addWords (a b : Array (BitVec 32)) : Array (BitVec 32) :=
  (rangeLoop never (addTurn b) 0 WIDTH (a,0)).1

/-- `while (++pn[i] == 0 && i < WIDTH-1) i++;` -/
def incrementWords (i : ℕ) (pn : Array (BitVec 32)) : Array (BitVec 32) :=
  let x := pn.getD i 0#32+1
  if x = 0 ∧ i < WIDTH-1 then incrementWords (i+1) (pn.setIfInBounds i x) else pn.setIfInBounds i x
termination_by WIDTH-i

/-- `while (--pn[i] == -1 && i < WIDTH-1) i++;` -/
def decrementWords (i : ℕ) (pn : Array (BitVec 32)) : Array (BitVec 32) :=
  let x := pn.getD i 0#32-1
  if x = -1 ∧ i < WIDTH-1 then decrementWords (i+1) (pn.setIfInBounds i x) else pn.setIfInBounds i x
termination_by WIDTH-i

/-- One turn of `operator<<=`. -/
def shiftLeftTurn (a : Array (BitVec 32)) (k shift : ℕ) (pn : Array (BitVec 32)) (i : ℕ) :
    Array (BitVec 32) :=
  let pn := if i+k+1 < WIDTH ∧ shift ≠ 0 then orWord pn (i+k+1) (a.getD i 0#32 >>> (32-shift)) else pn
  if i+k < WIDTH then orWord pn (i+k) (a.getD i 0#32 <<< shift) else pn

def shiftLeftWords (a : Array (BitVec 32)) (shift : ℕ) : Array (BitVec 32) :=
  rangeLoop never (shiftLeftTurn WIDTH a (shift/32) (shift%32)) 0 WIDTH (fillWords WIDTH fun _ => 0#32)

/-- One turn of `operator>>=`; the comparisons are those of signed numbers. -/
def shiftRightTurn (a : Array (BitVec 32)) (k shift : ℕ) (pn : Array (BitVec 32)) (i : ℕ) :
    Array (BitVec 32) :=
  let pn := if (i : ℤ)-k-1 ≥ 0 ∧ shift ≠ 0 then
      orWord pn ((i : ℤ)-k-1).toNat (a.getD i 0#32 <<< (32-shift))
    else pn
  if (i : ℤ)-k ≥ 0 then orWord pn ((i : ℤ)-k).toNat (a.getD i 0#32 >>> shift) else pn

def shiftRightWords (a : Array (BitVec 32)) (shift : ℕ) : Array (BitVec 32) :=
  rangeLoop never (shiftRightTurn a (shift/32) (shift%32)) 0 WIDTH (fillWords WIDTH fun _ => 0#32)

end Words

section Compare
variable (a b : Array (BitVec 32))

/-- The words below `i`, from the highest on; `fEqual` is the verdict on equal ones. -/
def lessWords (fEqual : Bool) : ℕ → Bool
  | 0 => fEqual
  | i+1 =>
    if a.getD i 0#32 < b.getD i 0#32 then true
    else if a.getD i 0#32 > b.getD i 0#32 then false
    else lessWords fEqual i

/-- `for (; i < WIDTH; i++) if (a[i] != g(i)) return false; return true;` -/
def equalWords (WIDTH : ℕ) (g : ℕ → BitVec 32) (i : ℕ) : Bool :=
  if i < WIDTH then if a.getD i 0#32 ≠ g i then false else equalWords WIDTH g (i+1) else true
termination_by WIDTH-i

end Compare

section Value
variable {WIDTH : ℕ} {a b : Array (BitVec 32)}

theorem fillWords_spec (g : ℕ → BitVec 32) :
    (fillWords WIDTH g).size = WIDTH ∧ ∀ i < WIDTH, (fillWords WIDTH g).getD i 0#32 = g i := by
  refine rangeLoop_induct (fun n (pn : Array (BitVec 32)) => pn.size = WIDTH ∧
    ∀ i < n, pn.getD i 0#32 = g i) (Nat.zero_le _) never_eq_false ?_ ?_
  · rintro n pn - hn ⟨hsize,hget⟩
    refine ⟨by rw [Array.size_setIfInBounds, hsize],fun i hi => ?_⟩
    rw [getD_setIfInBounds (by omega)]
    split_ifs with heq
    · rw [heq]
    · exact hget i (by omega)
  · exact ⟨Array.size_replicate,fun i hi => absurd hi (Nat.not_lt_zero i)⟩

theorem size_uint64Words (b : BitVec 64) : (uint64Words WIDTH b).size = WIDTH := by
  rw [uint64Words]
  rcases Nat.lt_or_ge WIDTH 2 with hlt | hle
  · rw [rangeLoop, if_neg (by omega), Array.size_setIfInBounds, Array.size_setIfInBounds,
      Array.size_replicate]
  -- no turn changes the number of words
  · refine rangeLoop_induct (fun _ (pn : Array (BitVec 32)) => pn.size = WIDTH) hle never_eq_false ?_ ?_
    · intro i pn _ _ hpn
      rw [Array.size_setIfInBounds, hpn]
    · rw [Array.size_setIfInBounds, Array.size_setIfInBounds, Array.size_replicate]

theorem getD_uint64Words (hw : 2 ≤ WIDTH) (b : BitVec 64) {i : ℕ} (hi : i < WIDTH) :
    (uint64Words WIDTH b).getD i 0#32 =
      if i = 0 then b.setWidth 32 else if i = 1 then (b >>> 32).setWidth 32 else 0#32 := by
  have hloop := rangeLoop_induct (fun n (pn : Array (BitVec 32)) => pn.size = WIDTH ∧ ∀ i < n,
      pn.getD i 0#32 = if i = 0 then b.setWidth 32 else if i = 1 then (b >>> 32).setWidth 32 else 0#32)
    hw never_eq_false (f := fun pn i => pn.setIfInBounds i 0#32)
    (s := ((Array.replicate WIDTH 0#32).setIfInBounds 0 (b.setWidth 32)).setIfInBounds 1
      ((b >>> 32).setWidth 32)) ?_ ?_
  · exact hloop.2 i hi
  · rintro n pn hlo hn ⟨hsize,hget⟩
    refine ⟨by rw [Array.size_setIfInBounds, hsize],fun i hi => ?_⟩
    rw [getD_setIfInBounds (by omega)]
    by_cases heq : i = n
    · rw [if_pos heq, if_neg (by omega), if_neg (by omega)]
    · rw [if_neg heq]
      exact hget i (by omega)
  · refine ⟨by simp,fun i hi => ?_⟩
    rw [getD_setIfInBounds (by simp; omega), getD_setIfInBounds (by simp; omega)]
    by_cases h1 : i = 1
    · rw [if_pos h1, if_neg (by omega), if_pos h1]
    · rw [if_neg h1, if_pos (by omega), if_pos (by omega)]

/-- `operator=(uint64)` keeps the number. -/
theorem limbs_uint64Words (hw : 2 ≤ WIDTH) (b : BitVec 64) :
    limbs (uint64Words WIDTH b) WIDTH = b.toNat := by
  have hb := b.isLt
  rw [limbs_zeros hw, limbs, limbs, limbs, getD_uint64Words hw b (by omega),
    getD_uint64Words hw b (by omega), if_pos rfl, if_neg (by decide), if_pos rfl,
    BitVec.toNat_setWidth, BitVec.toNat_setWidth, BitVec.toNat_ushiftRight, Nat.shiftRight_eq_div_pow]
  · omega
  · intro i hi hlt
    rw [getD_uint64Words hw b hlt, if_neg (by omega), if_neg (by omega)]

/-- The words below `n` are added, up to the carry. -/
structure Added (WIDTH : ℕ) (a b : Array (BitVec 32)) (n : ℕ) (s : Array (BitVec 32) × ℕ) : Prop where
  size : s.1.size = WIDTH
  carry_le : s.2 ≤ 1
  value : limbs s.1 n+2^(32*n)*s.2 = limbs a n+limbs b n
  rest : ∀ i, n ≤ i → s.1.getD i 0#32 = a.getD i 0#32

theorem Added.next {n : ℕ} {s : Array (BitVec 32) × ℕ} (h : Added WIDTH a b n s) (hn : n < WIDTH) :
    Added WIDTH a b (n+1) (addTurn b s n) := by
  have hx := (a.getD n 0#32).isLt
  have hy := (b.getD n 0#32).isLt
  have hcarry := h.carry_le
  have hsize := h.size
  rw [addTurn, h.rest n le_rfl]
  -- two words and a carry of at most one never fill 64 bits
  generalize hsum : s.2+(a.getD n 0#32).toNat+(b.getD n 0#32).toNat = sum
  have hword : sum%2^64 = sum := Nat.mod_eq_of_lt (by omega)
  rw [hword, land_mask 32 rfl, Nat.shiftRight_eq_div_pow]
  refine ⟨by rw [Array.size_setIfInBounds, hsize],?_,?_,?_⟩
  · change sum/2^32 ≤ 1
    omega
  · have hdigit : (BitVec.ofNat 32 (sum%2^32)).toNat = sum%2^32 := by
      rw [BitVec.toNat_ofNat, Nat.mod_mod]
    calc limbs (s.1.setIfInBounds n (BitVec.ofNat 32 (sum%2^32))) (n+1)+2^(32*(n+1))*(sum/2^32)
        = limbs s.1 n+2^(32*n)*(2^32*(sum/2^32)+sum%2^32) := by
          rw [limbs, limbs_set_of_le le_rfl, getD_setIfInBounds (by omega), if_pos rfl, hdigit,
            Nat.mul_succ, pow_add]
          ring
      _ = (limbs s.1 n+2^(32*n)*s.2)+2^(32*n)*((a.getD n 0#32).toNat+(b.getD n 0#32).toNat) := by
          rw [Nat.div_add_mod, ← hsum]
          ring
      _ = limbs a (n+1)+limbs b (n+1) := by
          rw [h.value, limbs, limbs]
          ring
  · intro i hi
    rw [getD_setIfInBounds (by omega), if_neg (by omega)]
    exact h.rest i (by omega)

theorem addWords_spec (ha : a.size = WIDTH) : (addWords WIDTH a b).size = WIDTH ∧
    limbs (addWords WIDTH a b) WIDTH = (limbs a WIDTH+limbs b WIDTH)%2^(32*WIDTH) := by
  have hloop : Added WIDTH a b WIDTH (rangeLoop never (addTurn b) 0 WIDTH (a,0)) :=
    rangeLoop_induct (Added WIDTH a b) (Nat.zero_le _) never_eq_false
      (fun n s _ hn h => h.next hn) ⟨ha,Nat.zero_le _,rfl,fun _ _ => rfl⟩
  refine ⟨hloop.size,?_⟩
  -- the carry out of the last word is a multiple of the modulus
  rw [← hloop.value, Nat.add_mul_mod_self_left]
  exact (Nat.mod_eq_of_lt (limbs_lt _ _)).symm

theorem incrementWords_eq (i : ℕ) (a : Array (BitVec 32)) :
    incrementWords WIDTH i a = if a.getD i 0#32+1 = 0 ∧ i < WIDTH-1 then
      incrementWords WIDTH (i+1) (a.setIfInBounds i (a.getD i 0#32+1))
    else a.setIfInBounds i (a.getD i 0#32+1) := by
  rw [incrementWords]

theorem decrementWords_eq (i : ℕ) (a : Array (BitVec 32)) :
    decrementWords WIDTH i a = if a.getD i 0#32-1 = -1 ∧ i < WIDTH-1 then
      decrementWords WIDTH (i+1) (a.setIfInBounds i (a.getD i 0#32-1))
    else a.setIfInBounds i (a.getD i 0#32-1) := by
  rw [decrementWords]

theorem size_incrementWords (i : ℕ) (a : Array (BitVec 32)) :
    (incrementWords WIDTH i a).size = a.size := by
  induction hleft : WIDTH-i generalizing i a with
  | zero => rw [incrementWords_eq, if_neg (by omega), Array.size_setIfInBounds]
  | succ left ih =>
    rw [incrementWords_eq]
    split_ifs
    · rw [ih _ _ (by omega), Array.size_setIfInBounds]
    · rw [Array.size_setIfInBounds]

theorem size_decrementWords (i : ℕ) (a : Array (BitVec 32)) :
    (decrementWords WIDTH i a).size = a.size := by
  induction hleft : WIDTH-i generalizing i a with
  | zero => rw [decrementWords_eq, if_neg (by omega), Array.size_setIfInBounds]
  | succ left ih =>
    rw [decrementWords_eq]
    split_ifs
    · rw [ih _ _ (by omega), Array.size_setIfInBounds]
    · rw [Array.size_setIfInBounds]

/-- Counting on from word `i` adds the weight of that word. -/
theorem incrementWords_spec {i : ℕ} (ha : a.size = WIDTH) (hi : i < WIDTH) :
    limbs (incrementWords WIDTH i a) WIDTH = (limbs a WIDTH+2^(32*i))%2^(32*WIDTH) := by
  -- The induction is on the words from `i` on.
  induction hleft : WIDTH-i generalizing i a with
  | zero => omega
  | succ left ih =>
    rw [incrementWords_eq]
    have hset := limbs_set (x := a.getD i 0#32+1) hi (ha ▸ hi)
    have hlt := limbs_lt (a.setIfInBounds i (a.getD i 0#32+1)) WIDTH
    have hsize : (a.setIfInBounds i (a.getD i 0#32+1)).size = WIDTH := by
      rw [Array.size_setIfInBounds, ha]
    have hnext : 2^(32*(i+1)) = 2^(32*i)*4294967296 := by
      rw [Nat.mul_succ, pow_add]
      rfl
    generalize a.getD i 0#32 = x at hset hlt hsize ⊢
    have hnew : (x+1).toNat = (x.toNat+1)%4294967296 := BitVec.toNat_add x 1
    have hx : x.toNat < 4294967296 := x.isLt
    -- a word that wraps passes the one on to the next word
    by_cases hwrap : x+1 = 0
    · rw [hwrap] at hset hlt hsize hnew ⊢
      have hold : x.toNat = 4294967295 := by
        change 0 = _ at hnew
        omega
      rw [hold] at hset
      change _ = _+_*0 at hset
      by_cases hlast : i < WIDTH-1
      · have hvalue := ih (i := i+1) hsize (by omega) (by omega)
        have hsum : limbs a WIDTH+2^(32*i) = limbs (a.setIfInBounds i 0) WIDTH+2^(32*(i+1)) := by omega
        rw [if_pos ⟨rfl,hlast⟩, hsum]
        exact hvalue
      · -- the highest word wraps
        rw [if_neg fun h => hlast h.2]
        have htop : 2^(32*WIDTH) = 2^(32*i)*4294967296 := by
          rw [← hnext, show i+1 = WIDTH by omega]
        rw [show limbs a WIDTH+2^(32*i) = limbs (a.setIfInBounds i 0) WIDTH+2^(32*WIDTH) by omega,
          Nat.add_mod_right]
        exact (Nat.mod_eq_of_lt hlt).symm
    · rw [if_neg fun h => hwrap h.1]
      have hold : (x+1).toNat = x.toNat+1 := by
        have hne : (x+1).toNat ≠ 0 := fun h => hwrap (BitVec.eq_of_toNat_eq h)
        omega
      rw [hold, mul_add] at hset
      rw [show limbs a WIDTH+2^(32*i) = limbs (a.setIfInBounds i (x+1)) WIDTH by omega]
      exact (Nat.mod_eq_of_lt hlt).symm

/-- Counting back from word `i` takes the weight of that word off. -/
theorem decrementWords_spec {i : ℕ} (ha : a.size = WIDTH) (hi : i < WIDTH) :
    limbs (decrementWords WIDTH i a) WIDTH =
      (limbs a WIDTH+(2^(32*WIDTH)-2^(32*i)))%2^(32*WIDTH) := by
  induction hleft : WIDTH-i generalizing i a with
  | zero => omega
  | succ left ih =>
    rw [decrementWords_eq]
    have hset := limbs_set (x := a.getD i 0#32-1) hi (ha ▸ hi)
    have hlt := limbs_lt (a.setIfInBounds i (a.getD i 0#32-1)) WIDTH
    have hsize : (a.setIfInBounds i (a.getD i 0#32-1)).size = WIDTH := by
      rw [Array.size_setIfInBounds, ha]
    have hnext : 2^(32*(i+1)) = 2^(32*i)*4294967296 := by
      rw [Nat.mul_succ, pow_add]
      rfl
    have hweight : 2^(32*(i+1)) ≤ 2^(32*WIDTH) := Nat.pow_le_pow_right (by decide) (by omega)
    generalize a.getD i 0#32 = x at hset hlt hsize ⊢
    have hx : x.toNat < 4294967296 := x.isLt
    have hnew : (x-1).toNat = (4294967296-1+x.toNat)%4294967296 := BitVec.toNat_sub x 1
    -- a word that was zero borrows from the next word
    by_cases hwrap : x-1 = -1
    · rw [hwrap] at hset hlt hsize hnew ⊢
      change 4294967295 = _ at hnew
      have hold : x.toNat = 0 := by omega
      rw [hold] at hset
      change _ = _+_*4294967295 at hset
      by_cases hlast : i < WIDTH-1
      · have hvalue := ih (i := i+1) hsize (by omega) (by omega)
        have hsum : limbs a WIDTH+(2^(32*WIDTH)-2^(32*i)) =
            limbs (a.setIfInBounds i (-1)) WIDTH+(2^(32*WIDTH)-2^(32*(i+1))) := by omega
        rw [if_pos ⟨rfl,hlast⟩, hsum]
        exact hvalue
      · -- the highest word wraps
        rw [if_neg fun h => hlast h.2]
        have htop : 2^(32*WIDTH) = 2^(32*i)*4294967296 := by
          rw [← hnext, show i+1 = WIDTH by omega]
        rw [show limbs a WIDTH+(2^(32*WIDTH)-2^(32*i)) = limbs (a.setIfInBounds i (-1)) WIDTH by omega]
        exact (Nat.mod_eq_of_lt hlt).symm
    · rw [if_neg fun h => hwrap h.1]
      have hpos : x.toNat ≠ 0 := by
        intro hzero
        have hx0 : x = 0 := BitVec.eq_of_toNat_eq hzero
        exact hwrap (by rw [hx0]; rfl)
      have hold : x.toNat = (x-1).toNat+1 := by omega
      rw [hold, mul_add] at hset
      rw [show limbs a WIDTH+(2^(32*WIDTH)-2^(32*i)) =
          limbs (a.setIfInBounds i (x-1)) WIDTH+2^(32*WIDTH) by omega, Nat.add_mod_right]
      exact (Nat.mod_eq_of_lt hlt).symm

/-- The complement of every word. -/
theorem limbs_complement {c : Array (BitVec 32)} {n : ℕ}
    (hc : ∀ i < n, c.getD i 0#32 = ~~~a.getD i 0#32) : limbs c n+limbs a n+1 = 2^(32*n) := by
  induction n with
  | zero => rfl
  | succ n ih =>
    have hword := hc n (Nat.lt_succ_self n)
    have hlow := ih fun i hi => hc i (by omega)
    have hx := (a.getD n 0#32).isLt
    calc limbs c (n+1)+limbs a (n+1)+1
        = (limbs c n+limbs a n+1)+
          2^(32*n)*((2^32-1-(a.getD n 0#32).toNat)+(a.getD n 0#32).toNat) := by
          rw [limbs, limbs, hword, BitVec.toNat_not]
          ring
      _ = 2^(32*n)+2^(32*n)*(2^32-1) := by
          rw [hlow, show 2^32-1-(a.getD n 0#32).toNat+(a.getD n 0#32).toNat = 2^32-1 by omega]
      _ = 2^(32*(n+1)) := by
          rw [Nat.mul_succ, pow_add]
          omega

theorem lessWords_spec (a b : Array (BitVec 32)) (fEqual : Bool) (n : ℕ) :
    lessWords a b fEqual n = if limbs a n = limbs b n then fEqual else decide (limbs a n < limbs b n) := by
  induction n with
  | zero => exact (if_pos rfl).symm
  | succ n ih =>
    have ha := limbs_lt a n
    have hb := limbs_lt b n
    have hstep (x y : ℕ) (hxy : x < y) : 2^(32*n)*x+2^(32*n) ≤ 2^(32*n)*y := by
      rw [← Nat.mul_succ]
      exact Nat.mul_le_mul_left _ hxy
    rw [lessWords, ih, limbs, limbs]
    -- the highest words decide unless they are equal; then the induction does
    rcases lt_trichotomy (a.getD n 0#32).toNat (b.getD n 0#32).toNat with hlt | heq | hgt
    · have hword := hstep _ _ hlt
      rw [if_pos (BitVec.lt_def.mpr hlt), if_neg (by omega), decide_eq_true (by omega)]
    · rw [if_neg (fun h => absurd (BitVec.lt_def.mp h) (by omega)),
        if_neg (fun h => absurd (BitVec.lt_def.mp h) (by omega)), heq]
      simp only [Nat.add_right_cancel_iff, Nat.add_lt_add_iff_right]
    · have hword := hstep _ _ hgt
      rw [if_neg (fun h => absurd (BitVec.lt_def.mp h) (by omega)), if_pos (BitVec.lt_def.mpr hgt),
        if_neg (by omega), decide_eq_false (by omega)]

theorem equalWords_spec (a : Array (BitVec 32)) (g : ℕ → BitVec 32) (i : ℕ) :
    equalWords a WIDTH g i = true ↔ ∀ j, i ≤ j → j < WIDTH → a.getD j 0#32 = g j := by
  induction hleft : WIDTH-i generalizing i with
  | zero =>
    rw [equalWords, if_neg (by omega)]
    exact ⟨fun _ j hij hj => absurd hj (by omega),fun _ => rfl⟩
  | succ left ih =>
    rw [equalWords, if_pos (by omega)]
    split_ifs with hne
    · constructor
      · exact fun h => absurd h (by decide)
      · exact fun h => absurd (h i le_rfl (by omega)) hne
    · rw [ih (i+1) (by omega)]
      constructor
      · intro h j hij hj
        rcases Nat.lt_or_eq_of_le hij with hlt | rfl
        · exact h j hlt hj
        · exact not_not.mp hne
      · exact fun h j hij hj => h j (by omega) hj

end Value

section ShiftBits
variable {WIDTH : ℕ} {a pn : Array (BitVec 32)} {k shift : ℕ}

theorem size_shiftLeftTurn (i : ℕ) : (shiftLeftTurn WIDTH a k shift pn i).size = pn.size := by
  rw [shiftLeftTurn]
  split_ifs <;> simp only [orWord_size]

theorem size_shiftRightTurn (i : ℕ) : (shiftRightTurn a k shift pn i).size = pn.size := by
  rw [shiftRightTurn]
  split_ifs <;> simp only [orWord_size]

/-- The bits of word `i` come to lie in two words, or in one when whole words are shifted. -/
theorem bitAt_shiftLeftTurn {i j : ℕ} (hpn : pn.size = WIDTH) (hshift : shift < 32)
    (hj : j/32 < WIDTH) : bitAt (shiftLeftTurn WIDTH a k shift pn i) 0 j =
      (bitAt pn 0 j || (decide (32*k+shift ≤ j ∧ (j-(32*k+shift))/32 = i) &&
        bitAt a 0 (j-(32*k+shift)))) := by
  have hsize : j/32 < pn.size := hpn ▸ hj
  have hsize' : j/32 < (if i+k+1 < WIDTH ∧ shift ≠ 0 then
      orWord pn (i+k+1) (a.getD i 0#32 >>> (32-shift)) else pn).size := by
    split_ifs <;> simpa only [orWord_size] using hsize
  rw [shiftLeftTurn, bitAt_ite_orWord _ _ hsize', bitAt_ite_orWord _ _ hsize,
    BitVec.getLsbD_ushiftRight, BitVec.getLsbD_shiftLeft, Bool.or_assoc]
  congr 1
  by_cases hin : 32*k+shift ≤ j ∧ (j-(32*k+shift))/32 = i
  · rw [decide_eq_true hin, Bool.true_and, bitAt, zero_add, hin.2]
    -- below `shift` stand bits of the word before, the others come from the word itself
    by_cases hlow : j%32 < shift
    · rw [decide_eq_true (by omega), decide_eq_false (by omega), Bool.false_and, Bool.or_false,
        Bool.true_and]
      congr 1
      omega
    · rw [decide_eq_false (by omega), decide_eq_true (by omega), decide_eq_true (by omega),
        decide_eq_false hlow]
      simp only [Bool.false_and, Bool.false_or, Bool.true_and, Bool.not_false]
      congr 1
      omega
  · rw [decide_eq_false hin, Bool.false_and]
    by_cases hlow : j%32 < shift
    · rw [decide_eq_false (by omega), decide_eq_true hlow]
      simp
    · have hword : ¬ (i+k < WIDTH ∧ j/32 = i+k) := by omega
      rw [BitVec.getLsbD_of_ge _ _ (by omega), decide_eq_false hword]
      simp

theorem bitAt_shiftRightTurn {i j : ℕ} (hpn : pn.size = WIDTH) (hshift : shift < 32)
    (hj : j/32 < WIDTH) : bitAt (shiftRightTurn a k shift pn i) 0 j =
      (bitAt pn 0 j || (decide ((j+(32*k+shift))/32 = i) && bitAt a 0 (j+(32*k+shift)))) := by
  have hsize : j/32 < pn.size := hpn ▸ hj
  have hsize' : j/32 < (if (i : ℤ)-k-1 ≥ 0 ∧ shift ≠ 0 then
      orWord pn ((i : ℤ)-k-1).toNat (a.getD i 0#32 <<< (32-shift)) else pn).size := by
    split_ifs <;> simpa only [orWord_size] using hsize
  rw [shiftRightTurn, bitAt_ite_orWord _ _ hsize', bitAt_ite_orWord _ _ hsize,
    BitVec.getLsbD_ushiftRight, BitVec.getLsbD_shiftLeft, Bool.or_assoc]
  congr 1
  by_cases hin : (j+(32*k+shift))/32 = i
  · rw [decide_eq_true hin, Bool.true_and, bitAt, zero_add, hin]
    -- the bits that do not leave their word, and those that come from the next one
    by_cases hlow : j%32+shift < 32
    · have hword : ¬ (((i : ℤ)-k-1 ≥ 0 ∧ shift ≠ 0) ∧ j/32 = ((i : ℤ)-k-1).toNat) := by omega
      have hword' : (i : ℤ)-k ≥ 0 ∧ j/32 = ((i : ℤ)-k).toNat := by omega
      rw [decide_eq_false hword, decide_eq_true hword', Bool.false_and, Bool.false_or, Bool.true_and]
      congr 1
      omega
    · have hword : ((i : ℤ)-k-1 ≥ 0 ∧ shift ≠ 0) ∧ j/32 = ((i : ℤ)-k-1).toNat := by omega
      have hword' : ¬ ((i : ℤ)-k ≥ 0 ∧ j/32 = ((i : ℤ)-k).toNat) := by omega
      rw [decide_eq_true hword, decide_eq_false hword', decide_eq_true (by omega),
        decide_eq_false (by omega)]
      simp only [Bool.false_and, Bool.or_false, Bool.true_and, Bool.not_false]
      congr 1
      omega
  · rw [decide_eq_false hin, Bool.false_and]
    by_cases hlow : j%32+shift < 32
    · have hword' : ¬ ((i : ℤ)-k ≥ 0 ∧ j/32 = ((i : ℤ)-k).toNat) := by omega
      rw [decide_eq_false hword', decide_eq_true (show j%32 < 32-shift by omega)]
      simp
    · have hword : ¬ (((i : ℤ)-k-1 ≥ 0 ∧ shift ≠ 0) ∧ j/32 = ((i : ℤ)-k-1).toNat) := by omega
      rw [decide_eq_false hword, BitVec.getLsbD_of_ge _ _ (show 32 ≤ shift+j%32 by omega)]
      simp

theorem fillWords_zero (WIDTH : ℕ) : (fillWords WIDTH fun _ => 0#32).size = WIDTH ∧
    ∀ j < 32*WIDTH, bitAt (fillWords WIDTH fun _ => 0#32) 0 j = false := by
  have hspec : _ ∧ ∀ i < WIDTH, _ := fillWords_spec fun _ => 0#32
  obtain ⟨hsize,hget⟩ := hspec
  refine ⟨hsize,fun j hj => ?_⟩
  rw [bitAt, zero_add, hget _ (Nat.div_lt_of_lt_mul hj)]
  exact BitVec.getLsbD_zero

theorem bitAt_shiftLeftWords (a : Array (BitVec 32)) (shift : ℕ) :
    (shiftLeftWords WIDTH a shift).size = WIDTH ∧ ∀ j < 32*WIDTH,
      bitAt (shiftLeftWords WIDTH a shift) 0 j =
        (decide (shift ≤ j ∧ j-shift < 32*WIDTH) && bitAt a 0 (j-shift)) := by
  have hmod := Nat.mod_lt shift (show 0 < 32 by decide)
  have hdiv : 32*(shift/32)+shift%32 = shift := Nat.div_add_mod shift 32
  obtain ⟨hsize0,hbits0⟩ := fillWords_zero WIDTH
  refine rangeLoop_induct (fun n (pn : Array (BitVec 32)) => pn.size = WIDTH ∧ ∀ j < 32*WIDTH,
      bitAt pn 0 j = (decide (shift ≤ j ∧ j-shift < 32*n) && bitAt a 0 (j-shift)))
    (Nat.zero_le WIDTH) never_eq_false ?_ ?_
  · rintro n pn - - ⟨hsize,hbits⟩
    refine ⟨(size_shiftLeftTurn n).trans hsize,fun j hj => ?_⟩
    rw [bitAt_shiftLeftTurn hsize hmod (Nat.div_lt_of_lt_mul hj), hbits j hj, hdiv,
      ← Bool.and_or_distrib_right]
    -- the words below `n`, and word `n`
    congr 1
    rw [← Bool.decide_or]
    apply decide_eq_decide.mpr
    omega
  · refine ⟨hsize0,fun j hj => ?_⟩
    rw [hbits0 j hj, decide_eq_false (by omega), Bool.false_and]

theorem bitAt_shiftRightWords (a : Array (BitVec 32)) (shift : ℕ) :
    (shiftRightWords WIDTH a shift).size = WIDTH ∧ ∀ j < 32*WIDTH,
      bitAt (shiftRightWords WIDTH a shift) 0 j =
        (decide (j+shift < 32*WIDTH) && bitAt a 0 (j+shift)) := by
  have hmod := Nat.mod_lt shift (show 0 < 32 by decide)
  have hdiv : 32*(shift/32)+shift%32 = shift := Nat.div_add_mod shift 32
  obtain ⟨hsize0,hbits0⟩ := fillWords_zero WIDTH
  refine rangeLoop_induct (fun n (pn : Array (BitVec 32)) => pn.size = WIDTH ∧ ∀ j < 32*WIDTH,
      bitAt pn 0 j = (decide (j+shift < 32*n) && bitAt a 0 (j+shift)))
    (Nat.zero_le WIDTH) never_eq_false ?_ ?_
  · rintro n pn - - ⟨hsize,hbits⟩
    refine ⟨(size_shiftRightTurn n).trans hsize,fun j hj => ?_⟩
    rw [bitAt_shiftRightTurn hsize hmod (Nat.div_lt_of_lt_mul hj), hbits j hj, hdiv,
      ← Bool.and_or_distrib_right]
    congr 1
    rw [← Bool.decide_or]
    apply decide_eq_decide.mpr
    omega
  · refine ⟨hsize0,fun j hj => ?_⟩
    rw [hbits0 j hj, decide_eq_false (by omega), Bool.false_and]

theorem limbs_shiftLeftWords (a : Array (BitVec 32)) (shift : ℕ) :
    limbs (shiftLeftWords WIDTH a shift) WIDTH = limbs a WIDTH*2^shift%2^(32*WIDTH) := by
  apply Nat.eq_of_testBit_eq
  intro j
  rw [testBit_limbs (by decide), Nat.testBit_mod_two_pow, Nat.testBit_mul_two_pow]
  by_cases hj : j < 32*WIDTH
  · rw [(bitAt_shiftLeftWords a shift).2 j hj, testBit_limbs (by decide), ← Bool.and_assoc,
      ← Bool.and_assoc, ← Bool.and_assoc]
    congr 1
    simp only [Bool.decide_and, Bool.and_assoc]
  · rw [decide_eq_false hj, Bool.false_and, Bool.false_and]

theorem limbs_shiftRightWords (a : Array (BitVec 32)) (shift : ℕ) :
    limbs (shiftRightWords WIDTH a shift) WIDTH = limbs a WIDTH/2^shift := by
  apply Nat.eq_of_testBit_eq
  intro j
  rw [testBit_limbs (by decide), Nat.testBit_div_two_pow, testBit_limbs (by decide)]
  by_cases hj : j < 32*WIDTH
  · rw [(bitAt_shiftRightWords a shift).2 j hj, decide_eq_true hj, Bool.true_and]
  · rw [decide_eq_false hj, decide_eq_false (show ¬ j+shift < 32*WIDTH by omega), Bool.false_and,
      Bool.false_and]

end ShiftBits

section Operators
variable {WIDTH : ℕ}

/-- The number that a value stands for. -/
def value (a : BaseUint WIDTH) : ℕ := limbs a.pn WIDTH

/-- `operator=(uint64)` -/
def ofUint64 (b : BitVec 64) : BaseUint WIDTH := ⟨uint64Words WIDTH b,size_uint64Words b⟩

/-- `operator++` before its operand. -/
def increment (a : BaseUint WIDTH) : BaseUint WIDTH :=
  ⟨incrementWords WIDTH 0 a.pn,(size_incrementWords 0 a.pn).trans a.size_pn⟩

/-- `operator++` after its operand: what it returns, and the operand afterwards. -/
def postIncrement (a : BaseUint WIDTH) : BaseUint WIDTH × BaseUint WIDTH := (a,a.increment)

/-- `operator--` before its operand. -/
def decrement (a : BaseUint WIDTH) : BaseUint WIDTH :=
  ⟨decrementWords WIDTH 0 a.pn,(size_decrementWords 0 a.pn).trans a.size_pn⟩

/-- `operator--` after its operand. -/
def postDecrement (a : BaseUint WIDTH) : BaseUint WIDTH × BaseUint WIDTH := (a,a.decrement)

/-- `operator-` with one operand: `ret.pn[i] = ~pn[i]`, then `ret++`. -/
def neg (a : BaseUint WIDTH) : BaseUint WIDTH :=
  let ret : BaseUint WIDTH := ⟨fillWords WIDTH fun i => ~~~a.pn.getD i 0#32,(fillWords_spec _).1⟩
  ret.postIncrement.2

/-- `operator+=` -/
def addAssign (a b : BaseUint WIDTH) : BaseUint WIDTH :=
  ⟨addWords WIDTH a.pn b.pn,(addWords_spec a.size_pn).1⟩

/-- `operator-=` -/
def subAssign (a b : BaseUint WIDTH) : BaseUint WIDTH := a.addAssign b.neg

/-- `operator+=(uint64)` -/
def addAssignUint64 (a : BaseUint WIDTH) (b64 : BitVec 64) : BaseUint WIDTH :=
  a.addAssign (ofUint64 b64)

/-- `operator-=(uint64)` -/
def subAssignUint64 (a : BaseUint WIDTH) (b64 : BitVec 64) : BaseUint WIDTH :=
  a.addAssign (neg (ofUint64 b64))

/-- `operator<<=` -/
def shiftLeftAssign (a : BaseUint WIDTH) (shift : ℕ) : BaseUint WIDTH :=
  ⟨shiftLeftWords WIDTH a.pn shift,(bitAt_shiftLeftWords a.pn shift).1⟩

/-- `operator>>=` -/
def shiftRightAssign (a : BaseUint WIDTH) (shift : ℕ) : BaseUint WIDTH :=
  ⟨shiftRightWords WIDTH a.pn shift,(bitAt_shiftRightWords a.pn shift).1⟩

/-- `operator<` -/
def lt (a b : BaseUint WIDTH) : Bool := lessWords a.pn b.pn false WIDTH

/-- `operator<=` -/
def le (a b : BaseUint WIDTH) : Bool := lessWords a.pn b.pn true WIDTH

/-- `operator>`, which asks for `a.pn[i] > b.pn[i]` first. -/
def gt (a b : BaseUint WIDTH) : Bool := lessWords b.pn a.pn false WIDTH

/-- `operator>=` -/
def ge (a b : BaseUint WIDTH) : Bool := lessWords b.pn a.pn true WIDTH

/-- `operator==` -/
def eq (a b : BaseUint WIDTH) : Bool := equalWords a.pn WIDTH (fun i => b.pn.getD i 0#32) 0

/-- `operator!=` -/
def ne (a b : BaseUint WIDTH) : Bool := !a.eq b

/-- `operator==(uint64)` -/
def eqUint64 (a : BaseUint WIDTH) (b : BitVec 64) : Bool :=
  if a.pn.getD 0 0#32 ≠ b.setWidth 32 then false
  else if a.pn.getD 1 0#32 ≠ (b >>> 32).setWidth 32 then false
  else equalWords a.pn WIDTH (fun _ => 0#32) 2

/-- `operator!=(uint64)` -/
def neUint64 (a : BaseUint WIDTH) (b : BitVec 64) : Bool := !a.eqUint64 b

end Operators

section Modulo
variable {WIDTH : ℕ} (a b : BaseUint WIDTH)

theorem value_lt : a.value < 2^(32*WIDTH) := limbs_lt a.pn WIDTH

theorem value_injective {a b : BaseUint WIDTH} (h : a.value = b.value) : a = b := by
  have hwords : a.pn = b.pn := by
    apply Array.ext (a.size_pn.trans b.size_pn.symm)
    intro i hi hi'
    have hword := limbs_injective h (a.size_pn ▸ hi)
    rwa [← Array.getElem_eq_getD, ← Array.getElem_eq_getD] at hword
  cases a
  cases b
  cases hwords
  rfl

theorem value_addAssign : (a.addAssign b).value = (a.value+b.value)%2^(32*WIDTH) :=
  (addWords_spec a.size_pn).2

theorem value_increment (hw : 0 < WIDTH) : a.increment.value = (a.value+1)%2^(32*WIDTH) :=
  incrementWords_spec a.size_pn hw

theorem value_decrement (hw : 0 < WIDTH) :
    a.decrement.value = (a.value+(2^(32*WIDTH)-1))%2^(32*WIDTH) :=
  decrementWords_spec a.size_pn hw

theorem value_neg (hw : 0 < WIDTH) : a.neg.value = (2^(32*WIDTH)-a.value)%2^(32*WIDTH) := by
  -- the complement and the number add up to all ones
  have hnot : limbs (fillWords WIDTH fun i => ~~~a.pn.getD i 0#32) WIDTH+a.value+1 = 2^(32*WIDTH) :=
    limbs_complement (fillWords_spec fun i => ~~~a.pn.getD i 0#32).2
  have hincrement := value_increment
    ⟨fillWords WIDTH fun i => ~~~a.pn.getD i 0#32,(fillWords_spec _).1⟩ hw
  rw [neg, postIncrement, hincrement, value]
  rw [show limbs (fillWords WIDTH fun i => ~~~a.pn.getD i 0#32) WIDTH+1 = 2^(32*WIDTH)-a.value by omega]

theorem value_ofUint64 (hw : 2 ≤ WIDTH) (b : BitVec 64) : (ofUint64 b : BaseUint WIDTH).value = b.toNat :=
  limbs_uint64Words hw b

/-- Adding the number with the sign changed is taking away. -/
theorem value_addAssign_neg (hw : 0 < WIDTH) :
    ((a.addAssign b.neg).value : ℤ) = (a.value-b.value)%2^(32*WIDTH) := by
  have hb := b.value_lt
  have hsum : ((a.value+(2^(32*WIDTH)-b.value) : ℕ) : ℤ) = (a.value-b.value)+2^(32*WIDTH) := by
    rw [Nat.cast_add, Nat.cast_sub hb.le]
    push_cast
    ring
  rw [value_addAssign, value_neg _ hw, Nat.add_mod_mod, Int.natCast_mod, hsum]
  push_cast
  rw [Int.add_emod_right]

theorem intValue_addAssign : ((a.addAssign b).value : ℤ) = (a.value+b.value)%2^(32*WIDTH) := by
  rw [value_addAssign]
  push_cast
  rfl

theorem intValue_neg (hw : 0 < WIDTH) : (a.neg.value : ℤ) = -a.value%2^(32*WIDTH) := by
  have ha := a.value_lt
  rw [value_neg _ hw, Int.natCast_mod, Nat.cast_sub ha.le]
  push_cast
  rw [sub_eq_add_neg, Int.add_emod_left]

theorem intValue_decrement (hw : 0 < WIDTH) : (a.decrement.value : ℤ) = (a.value-1)%2^(32*WIDTH) := by
  have hpos := Nat.two_pow_pos (32*WIDTH)
  rw [value_decrement _ hw, Int.natCast_mod, Nat.cast_add, Nat.cast_sub hpos]
  push_cast
  rw [show (a.value : ℤ)+(2^(32*WIDTH)-1) = a.value-1+2^(32*WIDTH) by ring, Int.add_emod_right]

theorem lt_eq : a.lt b = decide (a.value < b.value) := by
  rw [lt, lessWords_spec]
  split_ifs with heq
  · exact (decide_eq_false (by rw [value, value]; omega)).symm
  · rfl

theorem le_eq : a.le b = decide (a.value ≤ b.value) := by
  rw [le, lessWords_spec]
  split_ifs with heq
  · exact (decide_eq_true (by rw [value, value]; omega)).symm
  · apply decide_eq_decide.mpr
    rw [value, value]
    omega

theorem eq_eq : a.eq b = decide (a.value = b.value) := by
  rw [Bool.eq_iff_iff, decide_eq_true_iff, eq, equalWords_spec]
  constructor
  · exact fun h => limbs_congr fun i hi => h i (Nat.zero_le i) hi
  · exact fun h i _ hi => limbs_injective h hi

theorem eqUint64_eq (hw : 2 ≤ WIDTH) (b : BitVec 64) : a.eqUint64 b = decide (a.value = b.toNat) := by
  -- it compares with the words that the conversion from `uint64` makes
  have hwords : a.eqUint64 b = true ↔
      ∀ i, i < WIDTH → a.pn.getD i 0#32 = (uint64Words WIDTH b).getD i 0#32 := by
    rw [eqUint64]
    constructor
    · intro h i hi
      split_ifs at h with h0 h1
      rw [getD_uint64Words hw b hi]
      split_ifs with hi0 hi1
      · rw [hi0]
        exact not_not.mp h0
      · rw [hi1]
        exact not_not.mp h1
      · exact (equalWords_spec _ _ _).mp h i (by omega) hi
    · intro h
      have hget : ∀ i, i < WIDTH → a.pn.getD i 0#32 =
          if i = 0 then b.setWidth 32 else if i = 1 then (b >>> 32).setWidth 32 else 0#32 :=
        fun i hi => (h i hi).trans (getD_uint64Words hw b hi)
      have h0 : a.pn.getD 0 0#32 = b.setWidth 32 := hget 0 (by omega)
      have h1 : a.pn.getD 1 0#32 = (b >>> 32).setWidth 32 := hget 1 (by omega)
      rw [if_neg (not_not.mpr h0), if_neg (not_not.mpr h1)]
      apply (equalWords_spec _ _ _).mpr
      intro i hlo hi
      rw [hget i hi, if_neg (by omega), if_neg (by omega)]
  rw [Bool.eq_iff_iff, decide_eq_true_iff, hwords, ← limbs_uint64Words hw b]
  constructor
  · exact fun h => limbs_congr h
  · exact fun h i hi => limbs_injective h hi

end Modulo

end BaseUint

end Candypool.Core
