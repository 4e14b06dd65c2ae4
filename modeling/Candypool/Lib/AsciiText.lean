import Mathlib.Data.List.TakeWhile
import Mathlib.Data.Nat.Digits.Lemmas
import Mathlib.Tactic.Ring

/-! Text as bytes: white space, and numbers in decimal digits. -/
namespace Candypool.Lib

section Classes

/-- White space of the C locale. -/
def isspace (c : UInt8) : Bool := c = 32 ∨ (9 ≤ c ∧ c ≤ 13)

def isdigit (c : UInt8) : Bool := 48 ≤ c ∧ c ≤ 57

/-- The lower case letter of a letter. -/
def tolower (c : UInt8) : UInt8 := if 65 ≤ c ∧ c ≤ 90 then c+32 else c

/-- What a reader of a C string sees. -/
def cStr (str : List UInt8) : List UInt8 := str.takeWhile (· ≠ 0)

def digitValue (c : UInt8) : ℕ := c.toNat-48

def digitByte (d : ℕ) : UInt8 := UInt8.ofNat (48+d)

/-- A property of bytes, checked byte by byte. -/
theorem forall_byte {P : UInt8 → Prop} (h : ∀ n < 256, P (UInt8.ofNat n)) (c : UInt8) : P c := by
  have hc := h c.toNat c.toNat_lt
  rwa [UInt8.ofNat_toNat] at hc

theorem cStr_eq {str : List UInt8} (h : ∀ c ∈ str, c ≠ 0) : cStr str = str :=
  List.takeWhile_eq_self_iff.mpr fun c hc => decide_eq_true (h c hc)

theorem isdigit_digitByte {d : ℕ} (hd : d < 10) : isdigit (digitByte d) = true := by
  interval_cases d <;> decide

theorem digitValue_digitByte {d : ℕ} (hd : d < 10) : digitValue (digitByte d) = d := by
  interval_cases d <;> decide

theorem digitValue_lt {c : UInt8} (hc : isdigit c = true) : digitValue c < 10 := by
  have hle : c.toNat ≤ 57 := UInt8.le_iff_toNat_le.mp (of_decide_eq_true hc).2
  rw [digitValue]
  omega

theorem not_isspace_of_isdigit {c : UInt8} (hc : isdigit c = true) : isspace c = false := by
  have hlow : 48 ≤ c.toNat := UInt8.le_iff_toNat_le.mp (of_decide_eq_true hc).1
  apply decide_eq_false
  rintro (rfl | ⟨-,hle⟩)
  · exact absurd hlow (by decide)
  · have hle' : c.toNat ≤ 13 := UInt8.le_iff_toNat_le.mp hle
    omega

end Classes

section Numbers

/-- The number that decimal digits stand for. -/
def evalDigits (s : List UInt8) : ℕ := s.foldl (fun v c => 10*v+digitValue c) 0

theorem foldl_digits (s : List UInt8) (v : ℕ) :
    s.foldl (fun v c => 10*v+digitValue c) v = v*10^s.length+evalDigits s := by
  induction s generalizing v with
  | nil => simp [evalDigits]
  | cons c s ih =>
    rw [evalDigits, List.foldl_cons, List.foldl_cons, ih, ih (10*0+digitValue c), List.length_cons]
    ring

theorem evalDigits_append (s t : List UInt8) :
    evalDigits (s ++ t) = evalDigits s*10^t.length+evalDigits t := by
  rw [evalDigits, List.foldl_append]
  exact foldl_digits t _

theorem evalDigits_cons (c : UInt8) (s : List UInt8) :
    evalDigits (c :: s) = digitValue c*10^s.length+evalDigits s := by
  have happend := evalDigits_append [c] s
  rwa [show evalDigits [c] = digitValue c by simp [evalDigits]] at happend

theorem evalDigits_zeros (k : ℕ) : evalDigits (List.replicate k 48) = 0 := by
  induction k with
  | zero => rfl
  | succ k ih =>
    rw [List.replicate_succ, evalDigits_cons, ih, show digitValue 48 = 0 from rfl]
    ring

theorem evalDigits_lt {s : List UInt8} (hs : ∀ c ∈ s, isdigit c = true) :
    evalDigits s < 10^s.length := by
  induction s with
  | nil => decide
  | cons c s ih =>
    have hc := digitValue_lt (hs c List.mem_cons_self)
    have hrest := ih fun d hd => hs d (List.mem_cons_of_mem c hd)
    rw [evalDigits_cons, List.length_cons]
    calc
      digitValue c*10^s.length+evalDigits s < digitValue c*10^s.length+10^s.length := by omega
      _ = (digitValue c+1)*10^s.length := by ring
      _ ≤ 10*10^s.length := Nat.mul_le_mul_right _ hc
      _ = 10^(s.length+1) := by ring

/-- A number in decimal digits, without leading zeros. -/
def decimal (n : ℕ) : List UInt8 :=
  if n = 0 then [48] else (Nat.digits 10 n).reverse.map digitByte

/-- At least `width` digits. -/
def decimalPadded (width n : ℕ) : List UInt8 :=
  List.replicate (width-(decimal n).length) 48 ++ decimal n

theorem isdigit_decimal {n : ℕ} {c : UInt8} (hc : c ∈ decimal n) : isdigit c = true := by
  rw [decimal] at hc
  split_ifs at hc with hn
  · rw [List.mem_singleton.mp hc]
    rfl
  · obtain ⟨d,hd,rfl⟩ := List.mem_map.mp hc
    exact isdigit_digitByte (Nat.digits_lt_base (by decide) (List.mem_reverse.mp hd))

theorem isdigit_decimalPadded (width n : ℕ) {c : UInt8} (hc : c ∈ decimalPadded width n) :
    isdigit c = true := by
  rcases List.mem_append.mp hc with hc | hc
  · rw [List.eq_of_mem_replicate hc]
    rfl
  · exact isdigit_decimal hc

theorem evalDigits_decimal (n : ℕ) : evalDigits (decimal n) = n := by
  rw [decimal]
  split_ifs with hn
  · rw [hn]
    rfl
  · have hvalue (l : List ℕ) (hl : ∀ d ∈ l, d < 10) :
        evalDigits (l.reverse.map digitByte) = Nat.ofDigits 10 l := by
      induction l with
      | nil => rfl
      | cons d l ih =>
        have hd := digitValue_digitByte (hl d List.mem_cons_self)
        have hlast : evalDigits [digitByte d] = d := by simp [evalDigits, hd]
        rw [List.reverse_cons, List.map_append, List.map_singleton, evalDigits_append, hlast,
          ih fun e he => hl e (List.mem_cons_of_mem d he), List.length_singleton, pow_one,
          Nat.ofDigits_cons]
        ring
    rw [hvalue _ fun d hd => Nat.digits_lt_base (by decide) hd, Nat.ofDigits_digits]

theorem evalDigits_decimalPadded (width n : ℕ) : evalDigits (decimalPadded width n) = n := by
  rw [decimalPadded, evalDigits_append, evalDigits_zeros, evalDigits_decimal]
  ring

theorem length_decimal_le {n k : ℕ} (hk : 0 < k) (hn : n < 10^k) : (decimal n).length ≤ k := by
  rw [decimal]
  split_ifs with hzero
  · exact hk
  · rw [List.length_map, List.length_reverse]
    exact (Nat.digits_length_le_iff (by decide) n).mpr hn

theorem decimal_ne_nil (n : ℕ) : decimal n ≠ [] := by
  rw [decimal]
  split_ifs with hzero
  · exact List.cons_ne_nil _ _
  · intro h
    rw [List.map_eq_nil_iff, List.reverse_eq_nil_iff, Nat.digits_eq_nil_iff_eq_zero] at h
    exact hzero h

theorem length_decimalPadded {width n : ℕ} (hwidth : 0 < width) (hn : n < 10^width) :
    (decimalPadded width n).length = width := by
  have hle := length_decimal_le hwidth hn
  rw [decimalPadded, List.length_append, List.length_replicate]
  omega

theorem le_length_decimalPadded (width n : ℕ) : width ≤ (decimalPadded width n).length := by
  rw [decimalPadded, List.length_append, List.length_replicate]
  omega

end Numbers

end Candypool.Lib
