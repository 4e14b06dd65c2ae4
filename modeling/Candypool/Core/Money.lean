import Candypool.Core.Transaction
import Candypool.Lib.AsciiText
import Candypool.Lib.Int64
import Mathlib.Data.Rat.Defs
import Mathlib.Tactic.FieldSimp
import Mathlib.Tactic.Linarith

/-! Amounts as text. A read before the start of a string, or a signed overflow, ends a call without a
result. -/
namespace Candypool.Core
open Candypool.Lib

section Format

def printInt (n : ℤ) : List UInt8 :=
  if n < 0 then 45 :: decimal n.natAbs else decimal n.natAbs

/-- `%08d`, with the sign inside the width. -/
def printInt08 (n : ℤ) : List UInt8 :=
  if n < 0 then 45 :: decimalPadded 7 n.natAbs else decimalPadded 8 n.natAbs

/-- How many zeros at the end of `str` are dropped, from `i` on downwards. -/
def trimLoop (str : List UInt8) : ℕ → ℕ → Option ℕ
  | i+2, nTrim => do
    let last ← str[i+2]?
    if last = 48 then
      let before ← str[i]?
      if isdigit before then trimLoop str (i+1) (nTrim+1) else return nTrim
    else return nTrim
  | i, nTrim => do
    let last ← str[i]?
    -- `str[i-2]` would be before the start
    if last = 48 then none else return nTrim

/-- The quotient and the remainder, as printed before anything is trimmed. -/
def wholeText (n : ℤ) : List UInt8 := printInt ((if n > 0 then n else wrap64 (-n)).tdiv coin)

def unitsText (n : ℤ) : List UInt8 := printInt08 ((if n > 0 then n else wrap64 (-n)).tmod coin)

def formatMoney (n : ℤ) (fPlus : Bool) : Option (List UInt8) := do
  let str := wholeText n ++ 46 :: unitsText n
  let nTrim ← trimLoop str (str.length-1) 0
  let str := str.take (str.length-nTrim)
  return if n < 0 then 45 :: str else if fPlus ∧ n > 0 then 43 :: str else str

/-- The last of the decimals after the first two. -/
theorem units_getElem? (whole : List UInt8) (a b c : UInt8) (units dropped : List UInt8) :
    (whole ++ 46 :: a :: b :: (units ++ [c] ++ dropped))[whole.length+(units.length+1)+2]? = some c := by
  rw [List.getElem?_append_right (by omega),
    show whole.length+(units.length+1)+2-whole.length = units.length+3 by omega,
    List.getElem?_cons_succ, List.getElem?_cons_succ, List.getElem?_cons_succ, List.append_assoc,
    List.getElem?_append_right le_rfl, Nat.sub_self]
  rfl

/-- Only zeros are dropped, and at most as many as there are digits after the first two decimals. -/
theorem trimLoop_eq (whole : List UInt8) (a b : UInt8) (units dropped : List UInt8) (nTrim : ℕ) :
    ∃ kept k, units = kept ++ List.replicate k 48 ∧
      trimLoop (whole ++ 46 :: a :: b :: (units ++ dropped)) (whole.length+units.length+2) nTrim =
        some (nTrim+k) := by
  induction units using List.reverseRecOn generalizing dropped nTrim with
  | nil =>
    refine ⟨[], 0, rfl, ?_⟩
    -- two characters before the second decimal is the point
    have hlast : (whole ++ 46 :: a :: b :: ([] ++ dropped))[whole.length+2]? = some b := by
      rw [List.getElem?_append_right (Nat.le_add_right _ _), Nat.add_sub_cancel_left]
      rfl
    have hbefore : (whole ++ 46 :: a :: b :: ([] ++ dropped))[whole.length]? = some 46 := by
      rw [List.getElem?_append_right le_rfl, Nat.sub_self]
      rfl
    rw [List.length_nil, Nat.add_zero, trimLoop, hlast, hbefore]
    simp only [Option.bind_eq_bind, Option.bind_some]
    rw [if_neg (show ¬isdigit 46 = true by decide), ite_self]
    rfl
  | append_singleton units c ih =>
    have hlen : (units ++ [c]).length = units.length+1 := List.length_append
    have hlast := units_getElem? whole a b c units dropped
    by_cases hc : c = 48
    · have hbound : whole.length+(units.length+1) <
          (whole ++ 46 :: a :: b :: (units ++ [c] ++ dropped)).length := by
        simp only [List.length_append, List.length_cons, List.length_nil]
        omega
      obtain ⟨kept,k,hkept,htrim⟩ := ih (c :: dropped) (nTrim+1)
      rw [hlen, trimLoop, hlast, List.getElem?_eq_getElem hbound]
      simp only [Option.bind_eq_bind, Option.bind_some, if_pos hc]
      split_ifs with hdigit
      · refine ⟨kept, k+1, ?_, ?_⟩
        · rw [hkept, hc, List.replicate_succ', List.append_assoc]
        · rw [List.append_assoc, List.singleton_append,
            show whole.length+(units.length+1)+1 = whole.length+units.length+2 by omega, htrim]
          congr 1
          omega
      · exact ⟨units ++ [c], 0, (List.append_nil _).symm, rfl⟩
    · refine ⟨units ++ [c], 0, (List.append_nil _).symm, ?_⟩
      rw [hlen, trimLoop, hlast]
      simp only [Option.bind_eq_bind, Option.bind_some]
      rw [if_neg hc]
      rfl

theorem length_printInt08 (n : ℤ) : 8 ≤ (printInt08 n).length := by
  rw [printInt08]
  split_ifs
  · rw [List.length_cons]
    exact Nat.succ_le_succ (le_length_decimalPadded _ _)
  · exact le_length_decimalPadded _ _

/-- What stands before the digits. -/
def signText (n : ℤ) (fPlus : Bool) : List UInt8 :=
  if n < 0 then [45] else if fPlus ∧ n > 0 then [43] else []

/-- The text is the whole one, less some zeros at its end; two decimals stay. -/
theorem formatMoney_eq (n : ℤ) (fPlus : Bool) :
    ∃ kept k, unitsText n = kept ++ List.replicate k 48 ∧ 2 ≤ kept.length ∧
      formatMoney n fPlus = some (signText n fPlus ++ (wholeText n ++ 46 :: kept)) := by
  have hlen : 8 ≤ (unitsText n).length := length_printInt08 _
  obtain ⟨a,b,units,hunits⟩ : ∃ a b units, unitsText n = a :: b :: units := by
    match hu : unitsText n with
    | [] | [_] => simp [hu] at hlen
    | a :: b :: units => exact ⟨a, b, units, rfl⟩
  -- two digits after the point always stay, so the loop ends before it reaches them
  obtain ⟨kept,k,hkept,htrim⟩ := trimLoop_eq (wholeText n) a b units [] 0
  refine ⟨a :: b :: kept, k, by rw [hunits, hkept]; rfl, by simp, ?_⟩
  have hlast : (wholeText n ++ 46 :: unitsText n).length-1 = (wholeText n).length+units.length+2 := by
    rw [hunits, List.length_append, List.length_cons, List.length_cons, List.length_cons]
    omega
  -- the zeros it counted are the ones cut off
  have htake : (wholeText n ++ 46 :: unitsText n).take ((wholeText n ++ 46 :: unitsText n).length-(0+k)) =
      wholeText n ++ 46 :: a :: b :: kept := by
    have hsplit : wholeText n ++ 46 :: unitsText n =
        (wholeText n ++ 46 :: a :: b :: kept) ++ List.replicate k 48 := by
      rw [hunits, hkept, List.append_assoc]
      rfl
    rw [hsplit, List.length_append, List.length_replicate, Nat.zero_add, Nat.add_sub_cancel,
      List.take_left]
  rw [List.append_nil, ← hunits] at htrim
  rw [formatMoney, hlast, htrim]
  simp only [Option.bind_eq_bind, Option.bind_some, htake]
  rw [signText]
  split_ifs <;> rfl

end Format

section Parse

/-- `strtoll` in base ten. -/
def atoi64 (psz : List UInt8) : ℤ :=
  match psz.dropWhile isspace with
  | 45 :: p => max (-2^63) (-evalDigits (p.takeWhile isdigit))
  | 43 :: p => min (2^63-1) (evalDigits (p.takeWhile isdigit))
  | p => min (2^63-1) (evalDigits (p.takeWhile isdigit))

/-- The digits after the point. -/
def readUnits : List UInt8 → ℤ → ℤ → Option (ℤ × List UInt8)
  | [], nUnits, _ => some (nUnits,[])
  | c :: p, nUnits, nMult =>
    if isdigit c ∧ nMult > 0 then do
      let product ← int64? (nMult*digitValue c)
      let nUnits ← int64? (nUnits+product)
      readUnits p nUnits (nMult.tdiv 10)
    else some (nUnits,c :: p)

/-- What the loop over the number gives: `strWhole`, `nUnits` and the rest of the text, or nothing where
a character is refused. -/
def readNumber : List UInt8 → List UInt8 → Option (Option (List UInt8 × ℤ × List UInt8))
  | [], strWhole => some (some (strWhole,0,[]))
  | c :: p, strWhole =>
    if c = 46 then do
      let (nUnits,p) ← readUnits p 0 (cent*10)
      return some (strWhole,nUnits,p)
    else if isspace c then some (some (strWhole,0,c :: p))
    else if !isdigit c then some none
    else readNumber p (strWhole ++ [c])

/-- `ParseMoney(const char*, int64&)`: whether the text is accepted, and `nRet` afterwards. -/
def parseMoney (pszIn : List UInt8) (nRet : ℤ) : Option (Bool × ℤ) := do
  match ← readNumber (pszIn.dropWhile isspace) [] with
  | none => return (false,nRet)
  | some (strWhole,nUnits,p) =>
    if p.any (!isspace ·) then return (false,nRet)
    else if strWhole.length > 10 then return (false,nRet)
    else if nUnits < 0 ∨ nUnits > coin then return (false,nRet)
    else
      let nWhole := atoi64 strWhole
      let nWhole ← int64? (nWhole*coin)
      let nValue ← int64? (nWhole+nUnits)
      return (true,nValue)

/-- `ParseMoney(const string&, int64&)`, which takes the `c_str()`. -/
def parseMoneyString (str : List UInt8) (nRet : ℤ) : Option (Bool × ℤ) :=
  parseMoney (cStr str) nRet

/-- `10^m`, divided by ten as often as `nMult` was. -/
def multiplier (m : ℕ) : ℤ := (10^m : ℤ).tdiv 10

theorem multiplier_succ (m : ℕ) : multiplier (m+1) = 10^m := by
  rw [multiplier, pow_succ, Int.mul_tdiv_cancel _ (by decide)]

/-- The loop takes digits until `nMult` is zero, at most eight of them, each at its place. -/
theorem readUnits_eq (p : List UInt8) {m : ℕ} (hm : m ≤ 8) (nUnits : ℤ) (hlow : 0 ≤ nUnits)
    (hhigh : nUnits+10^m ≤ coin) :
    ∃ units rest, p = units ++ rest ∧ (∀ c ∈ units, isdigit c = true) ∧ units.length ≤ m ∧
      (units.length < m → ∀ c ∈ rest.head?, isdigit c = false) ∧
      readUnits p nUnits (multiplier m) =
        some (nUnits+evalDigits units*10^(m-units.length),rest) := by
  induction p generalizing m nUnits with
  | nil =>
    refine ⟨[], [], rfl, by simp, Nat.zero_le m, by simp, ?_⟩
    simp [readUnits, evalDigits]
  | cons c p ih =>
    by_cases hdigit : isdigit c = true
    · cases m with
      | zero =>
        refine ⟨[], c :: p, rfl, by simp, le_rfl, by simp, ?_⟩
        rw [readUnits, if_neg (fun h => absurd h.2 (by decide))]
        simp [evalDigits]
      | succ m =>
        -- a digit adds less than ten of its unit, so the sum stays below a coin and cannot overflow
        have hvalue : (digitValue c : ℤ) < 10 := by exact_mod_cast digitValue_lt hdigit
        have hpow : (0 : ℤ) < 10^m := by positivity
        have hcoin : coin = 100000000 := rfl
        have hproduct : multiplier (m+1)*digitValue c ≤ 9*10^m := by
          rw [multiplier_succ, mul_comm]
          exact mul_le_mul_of_nonneg_right (by omega) hpow.le
        have hnonneg : 0 ≤ multiplier (m+1)*(digitValue c : ℤ) := by
          rw [multiplier_succ]
          positivity
        rw [pow_succ] at hhigh
        obtain ⟨units,rest,rfl,hdigits,hlen,hrest,hread⟩ := ih (m := m)
          (by omega) (nUnits+multiplier (m+1)*digitValue c) (by omega) (by omega)
        refine ⟨c :: units, rest, rfl, ?_, Nat.succ_le_succ hlen, ?_, ?_⟩
        · exact List.forall_mem_cons.mpr ⟨hdigit, hdigits⟩
        · exact fun h => hrest (Nat.lt_of_succ_lt_succ h)
        · have hnext : (multiplier (m+1)).tdiv 10 = multiplier m := by
            rw [multiplier_succ, multiplier]
          rw [readUnits, if_pos ⟨hdigit, by rw [multiplier_succ]; exact hpow⟩,
            int64?_eq (by omega) (by omega), Option.bind_eq_bind, Option.bind_some,
            int64?_eq (by omega) (by omega), Option.bind_some, hnext, hread,
            evalDigits_cons, List.length_cons, Nat.add_sub_add_right, multiplier_succ]
          congr 2
          push_cast
          have hsplit : (10 : ℤ)^m = 10^units.length*10^(m-units.length) := by
            rw [← pow_add, Nat.add_sub_cancel' hlen]
          rw [hsplit]
          ring
    -- the digits end with the first other character
    · refine ⟨[], c :: p, rfl, by simp, Nat.zero_le m, ?_, ?_⟩
      · intro _ d hd
        obtain rfl := Option.some.inj hd
        exact Bool.eq_false_of_not_eq_true hdigit
      · rw [readUnits, if_neg fun h => hdigit h.1]
        simp [evalDigits]

/-- The number of an amount as text: digits, perhaps a point, and digits. -/
structure NumberText (s whole units : List UInt8) : Prop where
  layout : s = whole ++ 46 :: units ∨ s = whole ∧ units = []
  whole_digits : ∀ c ∈ whole, isdigit c = true
  units_digits : ∀ c ∈ units, isdigit c = true
  length_units : units.length ≤ 8

theorem readNumber_digits (whole : List UInt8) (hwhole : ∀ c ∈ whole, isdigit c = true)
    (p strWhole : List UInt8) :
    readNumber (whole ++ p) strWhole = readNumber p (strWhole ++ whole) := by
  induction whole generalizing strWhole with
  | nil => rw [List.append_nil, List.nil_append]
  | cons c whole ih =>
    have hc := hwhole c List.mem_cons_self
    have hpoint : c ≠ 46 := by
      rintro rfl
      cases hc
    rw [List.cons_append, readNumber, if_neg hpoint,
      if_neg (by rw [not_isspace_of_isdigit hc]; exact Bool.false_ne_true),
      if_neg (by rw [hc]; exact Bool.false_ne_true),
      ih fun d hd => hwhole d (List.mem_cons_of_mem c hd), List.append_assoc, List.singleton_append]

theorem readNumber_point (units strWhole : List UInt8) :
    ∃ read rest, units = read ++ rest ∧ (∀ c ∈ read, isdigit c = true) ∧ read.length ≤ 8 ∧
      (read.length < 8 → ∀ c ∈ rest.head?, isdigit c = false) ∧
      readNumber (46 :: units) strWhole =
        some (some (strWhole,(evalDigits read : ℤ)*10^(8-read.length),rest)) := by
  obtain ⟨read,rest,hsplit,hdigits,hlen,hrest,hread⟩ := readUnits_eq units (m := 8) le_rfl
    0 le_rfl (by decide)
  refine ⟨read, rest, hsplit, hdigits, hlen, hrest, ?_⟩
  rw [readNumber, if_pos rfl, show cent*10 = multiplier 8 from rfl, hread, zero_add]
  rfl

/-- Either a character is refused, or the text starts with a number. -/
theorem readNumber_cases (p strWhole : List UInt8) :
    readNumber p strWhole = some none ∨ ∃ number whole units rest, p = number ++ rest ∧
      NumberText number whole units ∧ readNumber p strWhole =
        some (some (strWhole ++ whole,(evalDigits units : ℤ)*10^(8-units.length),rest)) := by
  induction p generalizing strWhole with
  | nil =>
    refine Or.inr ⟨[], [], [], [], rfl, ⟨Or.inr ⟨rfl, rfl⟩, by simp, by simp, by simp⟩, ?_⟩
    rw [readNumber, List.append_nil]
    rfl
  | cons c p ih =>
    by_cases hpoint : c = 46
    · obtain ⟨read,rest,rfl,hdigits,hlen,-,hread⟩ := readNumber_point p strWhole
      rw [hpoint]
      refine Or.inr ⟨46 :: read, [], read, rest, rfl, ⟨Or.inl rfl, by simp, hdigits, hlen⟩, ?_⟩
      rw [hread, List.append_nil]
    · rw [readNumber, if_neg hpoint]
      -- a space ends the number, another character refuses it, a digit belongs to the whole part
      split_ifs with hspace hdigit
      · refine Or.inr ⟨[], [], [], c :: p, rfl, ⟨Or.inr ⟨rfl, rfl⟩, by simp, by simp, by simp⟩, ?_⟩
        rw [List.append_nil]
        rfl
      · exact Or.inl rfl
      · have hc : isdigit c = true := by
          rw [Bool.not_eq_true', Bool.not_eq_false] at hdigit
          exact hdigit
        rcases ih (strWhole ++ [c]) with hnone | ⟨number,whole,units,rest,rfl,htext,hread⟩
        · exact Or.inl hnone
        · refine Or.inr ⟨c :: number, c :: whole, units, rest, rfl, ⟨?_, ?_, htext.units_digits,
            htext.length_units⟩, ?_⟩
          · exact htext.layout.imp (congrArg (c :: ·)) (And.imp_left (congrArg (c :: ·)))
          · exact List.forall_mem_cons.mpr ⟨hc, htext.whole_digits⟩
          · rw [hread, List.append_assoc, List.singleton_append]

theorem atoi64_digits {s : List UInt8} (hs : ∀ c ∈ s, isdigit c = true) (hlen : s.length ≤ 10) :
    atoi64 s = evalDigits s := by
  have hvalue : (evalDigits s : ℤ) < 10^10 := by
    exact_mod_cast (evalDigits_lt hs).trans_le (Nat.pow_le_pow_right (by decide) hlen)
  -- ten digits are far from the clamp of `strtoll`, and there is no sign to skip
  have hall : s.takeWhile isdigit = s := List.takeWhile_eq_self_iff.mpr hs
  have hmin : min (2^63-1) (evalDigits s : ℤ) = evalDigits s := by omega
  cases s with
  | nil => rfl
  | cons c s =>
    have hc := hs c List.mem_cons_self
    have hminus : c ≠ 45 := by
      rintro rfl
      cases hc
    have hplus : c ≠ 43 := by
      rintro rfl
      cases hc
    have hdrop : (c :: s).dropWhile isspace = c :: s := by
      rw [List.dropWhile_cons, not_isspace_of_isdigit hc]
      rfl
    rw [atoi64, hdrop]
    split
    · rename_i heq
      exact absurd (List.cons.inj heq).1 hminus
    · rename_i heq
      exact absurd (List.cons.inj heq).1 hplus
    · rw [hall, hmin]

/-- White space, a number of at most ten digits before the point, and white space. -/
structure MoneyText (s whole units : List UInt8) : Prop where
  layout : ∃ before number after, s = before ++ (number ++ after) ∧ NumberText number whole units ∧
    (∀ c ∈ before, isspace c = true) ∧ ∀ c ∈ after, isspace c = true
  length_whole : whole.length ≤ 10

theorem MoneyText.chars {s whole units : List UInt8} (h : MoneyText s whole units) {c : UInt8}
    (hc : c ∈ s) : isspace c = true ∨ isdigit c = true ∨ c = 46 := by
  obtain ⟨before,number,after,rfl,htext,hbefore,hafter⟩ := h.layout
  rcases List.mem_append.mp hc with hc | hc
  · exact Or.inl (hbefore c hc)
  rcases List.mem_append.mp hc with hc | hc
  · rcases htext.layout with rfl | ⟨rfl,-⟩
    · rcases List.mem_append.mp hc with hc | hc
      · exact Or.inr (Or.inl (htext.whole_digits c hc))
      · rcases List.mem_cons.mp hc with hc | hc
        · exact Or.inr (Or.inr hc)
        · exact Or.inr (Or.inl (htext.units_digits c hc))
    · exact Or.inr (Or.inl (htext.whole_digits c hc))
  · exact Or.inl (hafter c hc)

/-- The number that the text stands for. -/
def moneyValue (whole units : List UInt8) : ℚ := evalDigits whole+evalDigits units/10^units.length

theorem moneyValue_mul_coin {whole units : List UInt8} (h : units.length ≤ 8) :
    moneyValue whole units*(coin : ℚ) =
      ((evalDigits whole*coin+evalDigits units*10^(8-units.length) : ℤ) : ℚ) := by
  have hcoin : (coin : ℚ) = 10^units.length*10^(8-units.length) := by
    rw [← pow_add, Nat.add_sub_cancel' h]
    norm_num [coin]
  have hpow : (10 : ℚ)^units.length ≠ 0 := by positivity
  push_cast
  rw [moneyValue, add_mul]
  congr 1
  rw [hcoin]
  field_simp

theorem parse_fits {whole units : List UInt8} (hwhole : ∀ c ∈ whole, isdigit c = true)
    (hlen : whole.length ≤ 10) (hunits : ∀ c ∈ units, isdigit c = true) (hlenUnits : units.length ≤ 8) :
    (evalDigits whole : ℤ) < 10^10 ∧ 0 ≤ (evalDigits units : ℤ)*10^(8-units.length) ∧
      (evalDigits units : ℤ)*10^(8-units.length) < coin := by
  refine ⟨?_, by positivity, ?_⟩
  · exact_mod_cast (evalDigits_lt hwhole).trans_le (Nat.pow_le_pow_right (by decide) hlen)
  · have hlt : (evalDigits units : ℤ) < 10^units.length := by exact_mod_cast evalDigits_lt hunits
    calc
      (evalDigits units : ℤ)*10^(8-units.length) < 10^units.length*10^(8-units.length) :=
        mul_lt_mul_of_pos_right hlt (by positivity)
      _ = coin := by
        rw [← pow_add, Nat.add_sub_cancel' hlenUnits]
        rfl

/-- What the checks after the loop come to. -/
theorem parseMoney_number (nRet : ℤ) {pszIn whole units rest : List UInt8}
    (hread : readNumber (pszIn.dropWhile isspace) [] =
      some (some (whole,(evalDigits units : ℤ)*10^(8-units.length),rest)))
    (hwhole : ∀ c ∈ whole, isdigit c = true) (hunits : ∀ c ∈ units, isdigit c = true)
    (hlen : units.length ≤ 8) :
    parseMoney pszIn nRet = if rest.all isspace = true ∧ whole.length ≤ 10 then
        some (true,evalDigits whole*coin+evalDigits units*10^(8-units.length))
      else some (false,nRet) := by
  rw [parseMoney, hread, Option.bind_eq_bind, Option.bind_some]
  by_cases hrest : rest.all isspace = true
  · have hany : ¬rest.any (!isspace ·) = true := by
      rw [← List.not_all_eq_any_not, hrest]
      exact Bool.false_ne_true
    by_cases hlong : whole.length ≤ 10
    · obtain ⟨hlt,hlow,hhigh⟩ := parse_fits hwhole hlong hunits hlen
      -- the whole part is below 10^10, so neither product nor sum leaves the 64 bits
      have hcoin : coin = 100000000 := rfl
      have hproduct : 0 ≤ (evalDigits whole : ℤ)*coin ∧ (evalDigits whole : ℤ)*coin ≤ 10^18-coin := by
        rw [hcoin]
        omega
      rw [if_pos ⟨hrest, hlong⟩]
      simp only [if_neg hany, if_neg (not_lt.mpr hlong)]
      rw [if_neg (by omega), atoi64_digits hwhole hlong, int64?_eq (by omega) (by omega),
        Option.bind_eq_bind, Option.bind_some, int64?_eq (by omega) (by omega)]
      rfl
    · rw [if_neg fun h => hlong h.2]
      simp only [if_neg hany, if_pos (not_le.mp hlong)]
      rfl
  · have hany : rest.any (!isspace ·) = true := by
      rw [← List.not_all_eq_any_not, Bool.eq_false_of_not_eq_true hrest]
      rfl
    rw [if_neg fun h => hrest h.1]
    simp only [if_pos hany]
    rfl

/-- No step overflows, a refused text leaves `nRet` alone, and an accepted one is an amount. -/
theorem parseMoney_cases (pszIn : List UInt8) (nRet : ℤ) :
    parseMoney pszIn nRet = some (false,nRet) ∨ ∃ whole units, MoneyText pszIn whole units ∧
      ∃ nValue : ℤ, parseMoney pszIn nRet = some (true,nValue) ∧
        (nValue : ℚ) = moneyValue whole units*coin := by
  rcases readNumber_cases (pszIn.dropWhile isspace) [] with hnone |
    ⟨number,whole,units,rest,hsplit,htext,hread⟩
  · refine Or.inl ?_
    rw [parseMoney, hnone]
    rfl
  · have hparse := parseMoney_number nRet hread htext.whole_digits htext.units_digits
      htext.length_units
    split_ifs at hparse with h
    · refine Or.inr ⟨whole, units, ⟨⟨pszIn.takeWhile isspace, number, rest, ?_, htext, ?_,
          List.all_eq_true.mp h.1⟩, h.2⟩,
        _, hparse, (moneyValue_mul_coin htext.length_units).symm⟩
      · rw [← hsplit, List.takeWhile_append_dropWhile]
      · exact fun c hc => List.mem_takeWhile_imp hc
    · exact Or.inl hparse

end Parse

section RoundTrip

theorem amount_abs {n : ℤ} (h : 0 ≤ n) : (if n > 0 then n else wrap64 (-n)) = n := by
  split_ifs with hpos
  · rfl
  · rw [le_antisymm (not_lt.mp hpos) h]
    rfl

theorem wholeText_eq {n : ℤ} (h : 0 ≤ n) : wholeText n = decimal (n/coin).natAbs := by
  have hquotient : 0 ≤ n/coin := Int.ediv_nonneg h (by decide)
  rw [wholeText, amount_abs h, Int.tdiv_eq_ediv_of_nonneg h, printInt, if_neg (not_lt.mpr hquotient)]

theorem unitsText_eq {n : ℤ} (h : 0 ≤ n) : unitsText n = decimalPadded 8 (n % coin).natAbs := by
  have hremainder : 0 ≤ n % coin := Int.emod_nonneg n (by decide)
  rw [unitsText, amount_abs h, Int.tmod_eq_emod_of_nonneg h, printInt08, if_neg (not_lt.mpr hremainder)]

/-- Digits, a point and up to eight digits are read to the end. -/
theorem readNumber_digits_point {whole units : List UInt8} (hwhole : ∀ c ∈ whole, isdigit c = true)
    (hne : whole ≠ []) (hunits : ∀ c ∈ units, isdigit c = true) (hlen : units.length ≤ 8) :
    readNumber ((whole ++ 46 :: units).dropWhile isspace) [] =
      some (some (whole,(evalDigits units : ℤ)*10^(8-units.length),[])) := by
  obtain ⟨read,rest,hsplit,-,-,hrest,hread⟩ := readNumber_point units whole
  -- all the characters after the point are digits, so nothing is left unread
  have hnil : rest = [] := by
    cases rest with
    | nil => rfl
    | cons c rest =>
      have hshort : read.length < 8 := by
        have hlen' := congrArg List.length hsplit
        rw [List.length_append, List.length_cons] at hlen'
        omega
      have hc := hunits c (by rw [hsplit]; exact List.mem_append_right _ List.mem_cons_self)
      rw [hrest hshort c rfl] at hc
      cases hc
  rw [hnil, List.append_nil] at hsplit
  have hdrop : (whole ++ 46 :: units).dropWhile isspace = whole ++ 46 :: units := by
    obtain ⟨c,tail,rfl⟩ := List.exists_cons_of_ne_nil hne
    rw [List.cons_append, List.dropWhile_cons, not_isspace_of_isdigit (hwhole c List.mem_cons_self)]
    rfl
  rw [hdrop, readNumber_digits _ hwhole, List.nil_append, hread, hnil, hsplit]

theorem cStr_digits_point {whole units : List UInt8} (hwhole : ∀ c ∈ whole, isdigit c = true)
    (hunits : ∀ c ∈ units, isdigit c = true) : cStr (whole ++ 46 :: units) = whole ++ 46 :: units := by
  apply cStr_eq
  rintro c hc rfl
  rcases List.mem_append.mp hc with hc | hc
  · exact absurd (hwhole 0 hc) (by decide)
  · rcases List.mem_cons.mp hc with hc | hc
    · exact absurd hc (by decide)
    · exact absurd (hunits 0 hc) (by decide)

/-- The dropped zeros stand for the factor that is missing. -/
theorem unitsText_value {n : ℤ} (h : 0 ≤ n) {kept : List UInt8} {k : ℕ}
    (hkept : unitsText n = kept ++ List.replicate k 48) :
    (evalDigits kept : ℤ)*10^k = n % coin := by
  have heval := evalDigits_decimalPadded 8 (n % coin).natAbs
  rw [← unitsText_eq h, hkept, evalDigits_append, evalDigits_zeros, List.length_replicate] at heval
  calc
    (evalDigits kept : ℤ)*10^k = ((evalDigits kept*10^k+0 : ℕ) : ℤ) := by push_cast; ring
    _ = (n % coin).natAbs := by rw [heval]
    _ = n % coin := Int.natAbs_of_nonneg (Int.emod_nonneg n (by decide))

theorem parse_format {n : ℤ} (h : 0 ≤ n) (hlt : n < 10^18) (nRet : ℤ) :
    ∃ s, formatMoney n false = some s ∧ parseMoney s nRet = some (true,n) ∧
      parseMoneyString s nRet = some (true,n) := by
  obtain ⟨kept,k,hkept,-,hformat⟩ := formatMoney_eq n false
  have hsign : signText n false = [] := by
    rw [signText, if_neg (not_lt.mpr h), if_neg (fun h => Bool.false_ne_true h.1)]
  rw [hsign, List.nil_append] at hformat
  have hquotient : 0 ≤ n/coin ∧ n/coin < 10^10 := by
    rw [show coin = 100000000 from rfl]
    omega
  have hremainder : 0 ≤ n % coin ∧ n % coin < 10^8 := by
    rw [show coin = 100000000 from rfl]
    omega
  -- the digits kept and the zeros cut off are eight together
  have hlen : kept.length+k = 8 := by
    have hpadded : (decimalPadded 8 (n % coin).natAbs).length = 8 :=
      length_decimalPadded (by decide) (by omega)
    rwa [← unitsText_eq h, hkept, List.length_append, List.length_replicate] at hpadded
  have hunits : ∀ c ∈ kept, isdigit c = true := by
    intro c hc
    apply isdigit_decimalPadded 8 (n % coin).natAbs
    rw [← unitsText_eq h, hkept]
    exact List.mem_append_left _ hc
  have hwhole : ∀ c ∈ wholeText n, isdigit c = true := by
    rw [wholeText_eq h]
    exact fun c hc => isdigit_decimal hc
  have hne : wholeText n ≠ [] := by
    rw [wholeText_eq h]
    exact decimal_ne_nil _
  have hlenWhole : (wholeText n).length ≤ 10 := by
    rw [wholeText_eq h]
    exact length_decimal_le (by decide) (by omega)
  -- the digits kept are worth the remainder
  have hvalue : (evalDigits kept : ℤ)*10^(8-kept.length) = n % coin := by
    rw [show 8-kept.length = k by omega, unitsText_value h hkept]
  have hread := readNumber_digits_point hwhole hne hunits (by omega)
  have hparse : parseMoney (wholeText n ++ 46 :: kept) nRet = some (true,n) := by
    rw [parseMoney_number _ hread hwhole hunits (by omega), if_pos ⟨rfl, hlenWhole⟩, hvalue,
      wholeText_eq h, evalDigits_decimal, Int.natAbs_of_nonneg hquotient.1, Int.ediv_mul_add_emod]
  exact ⟨_, hformat, hparse, by rw [parseMoneyString, cStr_digits_point hwhole hunits, hparse]⟩

end RoundTrip

/-- Amounts survive text, only zeros after the second decimal are left out, and what is read is the
amount that stands there, up to the first zero byte. -/
theorem money_text :
    (∀ n, 0 ≤ n → n < 10^18 → ∀ nRet, ∃ s, formatMoney n false = some s ∧
      parseMoney s nRet = some (true,n) ∧ parseMoneyString s nRet = some (true,n)) ∧
    (∀ n fPlus, ∃ kept k, unitsText n = kept ++ List.replicate k 48 ∧ 2 ≤ kept.length ∧
      formatMoney n fPlus = some (signText n fPlus ++ (wholeText n ++ 46 :: kept))) ∧
    (∀ pszIn nRet, parseMoney pszIn nRet = some (false,nRet) ∨
      ∃ whole units, MoneyText pszIn whole units ∧ ∃ nValue : ℤ,
        parseMoney pszIn nRet = some (true,nValue) ∧ (nValue : ℚ) = moneyValue whole units*coin) ∧
    ∀ str nRet, parseMoneyString str nRet = some (false,nRet) ∨
      ∃ whole units, MoneyText (cStr str) whole units ∧ ∃ nValue : ℤ,
        parseMoneyString str nRet = some (true,nValue) ∧
          (nValue : ℚ) = moneyValue whole units*coin :=
  ⟨fun _ h hlt nRet => parse_format h hlt nRet, formatMoney_eq, parseMoney_cases,
    fun _ nRet => parseMoney_cases _ nRet⟩

/-- "1", a zero byte and an "x" are one coin. -/
theorem parseMoney_stops_at_nul :
    parseMoneyString [49,0,120] 0 = some (true,coin) ∧
    ¬∃ whole units, MoneyText [49,0,120] whole units := by
  refine ⟨by decide, ?_⟩
  rintro ⟨whole,units,htext⟩
  have hx := htext.chars (List.mem_cons_of_mem 49 (List.mem_cons_of_mem 0 List.mem_cons_self))
  exact absurd hx (by decide)

end Candypool.Core
