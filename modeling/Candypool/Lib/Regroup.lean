import Candypool.Lib.Numeral
import Mathlib.Tactic.Ring

/-! Digits of one width regrouped into digits of another, the highest first, with the bits left over.
The number that the digits make up and the count of their bits determine both sides. -/
namespace Candypool.Lib

section Bits
variable {x y m : ℕ}

theorem land_mask (n : ℕ) (h : m+1 = 2^n) : x &&& m = x%2^n := by
  rw [← Nat.and_two_pow_sub_one_eq_mod, ← h, Nat.add_sub_cancel]

/-- Bits put together that do not meet. -/
theorem mul_two_pow_lor {n : ℕ} (h : y < 2^n) : x*2^n ||| y = x*2^n+y := by
  rw [← Nat.shiftLeft_eq]
  exact (Nat.shiftLeft_add_eq_or_of_lt h x).symm

/-- The upper bits of a number, put together from those above a digit and the upper ones of the digit. -/
theorem mul_lor_shiftRight {n k b : ℕ} (hy : y < 2^b) (hb : n+k = b) :
    x*2^k ||| y >>> n = (x*2^b+y)/2^n := by
  subst hb
  -- what is or-ed in stays below the bits already there
  have hhigh : y/2^n < 2^k := Nat.div_lt_of_lt_mul (by rwa [← pow_add])
  rw [Nat.shiftRight_eq_div_pow, mul_two_pow_lor hhigh, pow_add, mul_left_comm,
    Nat.mul_add_div (Nat.two_pow_pos n)]

/-- The bits of a number in the middle of its last digit. -/
theorem shiftRight_land_mask {n k b : ℕ} (h : m+1 = 2^n) (hb : n+k ≤ b) :
    y >>> k &&& m = (x*2^b+y)%2^(n+k)/2^k := by
  obtain ⟨j,rfl⟩ := Nat.exists_eq_add_of_le hb
  have hdvd : x*2^(n+k+j) = 2^(n+k)*(x*2^j) := by
    rw [pow_add]
    ring
  rw [land_mask n h, Nat.shiftRight_eq_div_pow, hdvd, Nat.mul_add_mod, add_comm n k, pow_add,
    Nat.mod_mul_right_div_self]

theorem land_mask_add {n b : ℕ} (h : m+1 = 2^n) (hb : n ≤ b) : y &&& m = (x*2^b+y)%2^n := by
  obtain ⟨j,rfl⟩ := Nat.exists_eq_add_of_le hb
  rw [land_mask n h, pow_add, mul_left_comm, Nat.mul_add_mod]

theorem land_mask_shiftLeft {n k b : ℕ} (h : m+1 = 2^n) (hb : n ≤ b) :
    (y &&& m) <<< k = (x*2^b+y)%2^n*2^k := by
  rw [Nat.shiftLeft_eq, ← land_mask_add h hb]

end Bits

/-- The bits of the digits `ds`, each of `a` bits, are those of the groups `es`, each of `b` bits, and of
the number `acc` in the `r` bits that are left. -/
structure Regroup (a b : ℕ) (ds es : List ℕ) (r acc : ℕ) : Prop where
  digits : ∀ d ∈ ds, d < 2^a
  groups : ∀ e ∈ es, e < 2^b
  length : a*ds.length = b*es.length+r
  value : numeralValue (2^a) ds = numeralValue (2^b) es*2^r+acc
  rest_lt : acc < 2^r

section Turns
variable {a b : ℕ} {ds es : List ℕ} {r acc : ℕ}

theorem Regroup.nil : Regroup a b [] [] 0 0 :=
  ⟨fun _ hd => absurd hd List.not_mem_nil,fun _ he => absurd he List.not_mem_nil,rfl,rfl,Nat.one_pos⟩

/-- A further digit joins the bits that are left. -/
theorem Regroup.push (h : Regroup a b ds es r acc) {d : ℕ} (hd : d < 2^a) :
    Regroup a b (ds ++ [d]) es (r+a) (acc*2^a+d) := by
  refine ⟨?_,h.groups,?_,?_,?_⟩
  · intro c hc
    rcases List.mem_append.mp hc with hc | hc
    · exact h.digits c hc
    · rwa [List.mem_singleton.mp hc]
  · rw [List.length_append, List.length_singleton, mul_add, h.length]
    omega
  · rw [numeralValue_concat, h.value, pow_add]
    ring
  -- the bits left are below `2^r`, and the digit below `2^a`
  · have hle := Nat.mul_le_mul_right (2^a) (Nat.succ_le_of_lt h.rest_lt)
    rw [Nat.succ_mul] at hle
    rw [pow_add]
    omega

/-- The upper ones of the bits that are left go out as a group. -/
theorem Regroup.emit (h : Regroup a b ds es (b+r) acc) :
    Regroup a b ds (es ++ [acc/2^r]) r (acc%2^r) := by
  refine ⟨h.digits,?_,?_,?_,Nat.mod_lt _ (Nat.two_pow_pos r)⟩
  · intro e he
    rcases List.mem_append.mp he with he | he
    · exact h.groups e he
    · have hlt := h.rest_lt
      rw [pow_add] at hlt
      rw [List.mem_singleton.mp he]
      exact Nat.div_lt_of_lt_mul (by rwa [mul_comm])
  · rw [h.length, List.length_append, List.length_singleton]
    ring
  -- the bits left fall apart into the group and what is left now
  · have hdiv := Nat.div_add_mod acc (2^r)
    calc numeralValue (2^a) ds = numeralValue (2^b) es*2^(b+r)+acc := h.value
      _ = numeralValue (2^b) es*2^(b+r)+(2^r*(acc/2^r)+acc%2^r) := by rw [hdiv]
      _ = (numeralValue (2^b) es*2^b+acc/2^r)*2^r+acc%2^r := by ring
      _ = _ := by rw [numeralValue_concat]

/-- A last group made full with zero bits; seen from the groups, these are left over. -/
theorem Regroup.fill (h : Regroup a b ds es r acc) (hr : r ≤ b) :
    Regroup b a (es ++ [acc*2^(b-r)]) ds (b-r) 0 := by
  have hsplit : 2^b = 2^r*2^(b-r) := by
    rw [← pow_add]
    congr 1
    omega
  refine ⟨?_,h.digits,?_,?_,Nat.two_pow_pos _⟩
  · intro e he
    rcases List.mem_append.mp he with he | he
    · exact h.groups e he
    · rw [List.mem_singleton.mp he, hsplit]
      exact Nat.mul_lt_mul_of_pos_right h.rest_lt (Nat.two_pow_pos _)
  · rw [h.length, List.length_append, List.length_singleton, mul_add]
    omega
  · rw [numeralValue_concat, h.value, hsplit]
    ring

/-- Where no bit is left the two sides change places. -/
theorem Regroup.symm (h : Regroup a b ds es 0 acc) : Regroup b a es ds 0 0 := by
  have hacc : acc = 0 := Nat.lt_one_iff.mp h.rest_lt
  have hvalue := h.value
  refine ⟨h.groups,h.digits,h.length.symm,?_,Nat.one_pos⟩
  omega

end Turns

section Unique
variable {a b : ℕ} {ds es : List ℕ} {r acc : ℕ}

/-- The digits determine their groups and the bits left, when these are less than a group. -/
theorem Regroup.groups_unique {es' : List ℕ} {r' acc' : ℕ} (hb : 0 < b) (h : Regroup a b ds es r acc)
    (h' : Regroup a b ds es' r' acc') (hr : r < b) (hr' : r' < b) : es = es' ∧ r = r' ∧ acc = acc' := by
  -- both sides count the bits of the same digits, so that a remainder by `b` is left
  have hbits : b*es.length+r = b*es'.length+r' := h.length.symm.trans h'.length
  have hlen : es.length = es'.length := by
    calc es.length = (b*es.length+r)/b := by
          rw [Nat.mul_add_div hb, Nat.div_eq_of_lt hr, add_zero]
      _ = (b*es'.length+r')/b := by rw [hbits]
      _ = es'.length := by rw [Nat.mul_add_div hb, Nat.div_eq_of_lt hr', add_zero]
  have hrest : r = r' := by
    rw [hlen] at hbits
    omega
  subst hrest
  have hvalue : numeralValue (2^b) es*2^r+acc = numeralValue (2^b) es'*2^r+acc' :=
    h.value.symm.trans h'.value
  -- modulo `2^r` the value is the rest, and the quotient the groups
  have hacc : acc = acc' := by
    have hmod := congrArg (·%2^r) hvalue
    simpa only [Nat.mul_add_mod_self_right, Nat.mod_eq_of_lt h.rest_lt, Nat.mod_eq_of_lt h'.rest_lt] using hmod
  have hgroups : numeralValue (2^b) es = numeralValue (2^b) es' := by
    apply Nat.eq_of_mul_eq_mul_right (Nat.two_pow_pos r)
    omega
  exact ⟨numeralValue_injective (Nat.one_lt_two_pow hb.ne') h.groups h'.groups hlen hgroups,rfl,hacc⟩

/-- The groups determine the digits, when the bits left are zero and less than a digit. -/
theorem Regroup.digits_unique {ds' : List ℕ} {r' : ℕ} (ha : 0 < a) (h : Regroup a b ds es r 0)
    (h' : Regroup a b ds' es r' 0) (hr : r < a) (hr' : r' < a) : ds = ds' ∧ r = r' := by
  have hlen : ds.length = ds'.length := by
    have hup := h.length
    have hup' := h'.length
    -- a digit more would be at least `a` bits more, and less than `a` are left over
    rcases lt_trichotomy ds.length ds'.length with hlt | heq | hgt
    · have := Nat.mul_le_mul_left a (Nat.succ_le_of_lt hlt)
      rw [Nat.mul_succ] at this
      omega
    · exact heq
    · have := Nat.mul_le_mul_left a (Nat.succ_le_of_lt hgt)
      rw [Nat.mul_succ] at this
      omega
  have hrest : r = r' := by
    have hup := h.length
    have hup' := h'.length
    rw [hlen] at hup
    omega
  subst hrest
  have hvalue : numeralValue (2^a) ds = numeralValue (2^a) ds' := h.value.trans h'.value.symm
  exact ⟨numeralValue_injective (Nat.one_lt_two_pow ha.ne') h.digits h'.digits hlen hvalue,rfl⟩

end Unique

end Candypool.Lib
