import Mathlib.Algebra.Group.Nat.Defs
import Mathlib.Algebra.Group.Int.Defs
import Mathlib.Tactic.IntervalCases
import Aiotc.Share.Json

-- cJSON.c: how numbers are read and printed.

namespace JsonText

-- "%.0f", "%e" and "%f"
inductive Format
  | f0
  | e
  | f

-- What cJSON.c does with doubles. `toInt` is the cast to int.
class Double (D : Type) extends Add D, Sub D, Mul D, BEq D, LE D, LT D, OfScientific D where
  ofInt : Int → D
  toInt : D → Int
  pow : D → D → D
  fabs : D → D
  floor : D → D
  epsilon : D
  sprintf : Format → D → CStr
  le_dec : DecidableLE D
  lt_dec : DecidableLT D

export Double (ofInt toInt)

instance decidableLE {D : Type} [Double D] : DecidableLE D :=
  Double.le_dec

instance decidableLT {D : Type} [Double D] : DecidableLT D :=
  Double.lt_dec

def INT_MAX : Int := 2147483647

def INT_MIN : Int := -2147483648

section

variable {D : Type} [Double D]

-- A string that is written to a block of `size` bytes. `none` is a write behind its end.
def block (size : ℕ) (s : CStr) : Option CStr :=
  if s.length < size then some s else none

def digit (c : Char) : Int :=
  c.toNat - '0'.toNat

-- The loops over digits
def spanDigits (num : CStr) : CStr × CStr :=
  (num.takeWhile Char.isDigit, num.dropWhile Char.isDigit)

-- `parse_number` goes over its text once, in four parts.

def scanSign (num : CStr) : Bool × CStr :=
  if num.head? = some '-' then (true, num.tail) else (false, num)

def scanDigits (num : CStr) : CStr × CStr :=
  let num := if num.head? = some '0' then num.tail else num
  if num.head?.any fun c => '1' ≤ c ∧ c ≤ '9' then spanDigits num else ([], num)

def scanFraction (num : CStr) : CStr × CStr :=
  if num.head? = some '.' ∧ num.tail.head?.any Char.isDigit then
    spanDigits num.tail
  else
    ([], num)

def scanExponent (num : CStr) : (Bool × CStr) × CStr :=
  if num.head? = some 'e' ∨ num.head? = some 'E' then
    let num := num.tail
    let (neg, num) := if num.head? = some '+' then (false, num.tail) else scanSign num
    let (ds, num) := spanDigits num
    ((neg, ds), num)
  else
    ((false, []), num)

def readDigits (n : D) (ds : CStr) : D :=
  ds.foldl (fun n c => n * 10.0 + ofInt (digit c)) n

-- An int wraps around.
def readSubscale (ds : CStr) : Int :=
  ds.foldl (fun subscale c => (subscale * 10 + digit c).bmod (2 ^ 32)) 0

def numberValue (neg : Bool) (ds frac : CStr) (exp : Bool × CStr) : D :=
  let sign : D := if neg then ofInt (-1) else ofInt 1
  let n : D := readDigits (readDigits (ofInt 0) ds) frac
  let scale : D := frac.foldl (fun scale _ => scale - ofInt 1) (ofInt 0)
  let subscale := readSubscale exp.2 * if exp.1 then -1 else 1
  sign * n * Double.pow 10.0 (scale + ofInt subscale)

-- The members `valueint` and `valuedouble` of the item, and the text behind it
def parseNumber (num : CStr) : (Int × D) × CStr :=
  let (neg, num) := scanSign num
  let (ds, num) := scanDigits num
  let (frac, num) := scanFraction num
  let (exp, num) := scanExponent num
  let n := numberValue neg ds frac exp
  ((toInt n, n), num)

def printNumber (valueint : Int) (d : D) : Option CStr :=
  if d == ofInt 0 then
    block 2 "0"
  else if Double.fabs (ofInt valueint - d) ≤ Double.epsilon ∧ d ≤ ofInt INT_MAX ∧
      ofInt INT_MIN ≤ d then
    block 21 (CStr.decimal valueint)
  else if Double.fabs (Double.floor d - d) ≤ Double.epsilon ∧ Double.fabs d < 1.0e60 then
    block 64 (Double.sprintf .f0 d)
  else if Double.fabs d < 1.0e-6 ∨ 1.0e9 < Double.fabs d then
    block 64 (Double.sprintf .e d)
  else
    block 64 (Double.sprintf .f d)

-- The integers that a double holds exactly
def Short (x : Int) : Prop :=
  -2 ^ 53 ≤ x ∧ x ≤ 2 ^ 53
  deriving Decidable

-- With these doubles calculate exactly. A product is the zero that is not negative only if no
-- factor is negative.
class Exact (D : Type) [Double D] : Prop where
  ten : (10.0 : D) = ofInt 10
  add {x y : Int} : Short x → Short y → Short (x + y) → (ofInt x + ofInt y : D) = ofInt (x + y)
  mul {x y : Int} : Short x → Short y → Short (x * y) → (x * y = 0 → 0 ≤ x ∧ 0 ≤ y) →
    (ofInt x * ofInt y : D) = ofInt (x * y)
  sub_self {x : Int} : Short x → Double.fabs (ofInt x - ofInt x : D) ≤ Double.epsilon
  pow_zero {d : D} : Double.pow d (ofInt 0) = ofInt 1
  beq_zero {x : Int} : Short x → ((ofInt x : D) == ofInt 0) = decide (x = 0)
  le {x y : Int} : Short x → Short y → ((ofInt x : D) ≤ ofInt y ↔ x ≤ y)
  cast {x : Int} : INT_MIN ≤ x → x ≤ INT_MAX → toInt (ofInt x : D) = x

-- What may stand behind a number
def Follows (rest : CStr) : Prop :=
  ∀ c ∈ rest.head?, c.isDigit = false ∧ c ≠ '.' ∧ c ≠ 'e' ∧ c ≠ 'E'

-- A text without quotes
def Bare (t : CStr) : Prop :=
  ∀ c ∈ t, c ≠ '\x00' ∧ c ≠ '"'

-- What "%.0f", "%e" and "%f" write, and what a cast to int is
class Printed (D : Type) [Double D] : Prop where
  f0 {d : D} : Double.fabs d < 1.0e60 → (Double.sprintf .f0 d).length < 64
  e {d : D} : (Double.sprintf .e d).length < 64
  f {d : D} : ¬1.0e9 < Double.fabs d → (Double.sprintf .f d).length < 64
  plain {fmt : Format} {d : D} : Bare (Double.sprintf fmt d)
  cast {d : D} : INT_MIN ≤ toInt d ∧ toInt d ≤ INT_MAX

variable {v : Int} {n : ℕ} {rest ds : CStr}

theorem le_toNat_of_isDigit {c : Char} (h : c.isDigit) : '0'.toNat ≤ c.toNat := by
  simp only [Char.isDigit, ge_iff_le, Bool.and_eq_true, decide_eq_true_eq] at h
  exact h.left

theorem exists_toDigits (hn : 0 < n) :
    ∃ c ds, Nat.toDigits 10 n = c :: ds ∧ '1' ≤ c ∧ c ≤ '9' := by
  induction n using Nat.base_induction 10 (by decide)
  case single m hm =>
    refine ⟨m.digitChar, [], Nat.toDigits_of_lt_base hm, ?_⟩
    interval_cases m <;> decide
  case digit m k hk hm hi =>
    have ⟨c, ds, hc, h₁⟩ := hi hm
    refine ⟨c, ds ++ Nat.toDigits 10 k, ?_, h₁⟩
    rw [← Nat.toDigits_append_toDigits (by decide) hm hk, hc, List.cons_append]

theorem le_ofDigitChars (ds : CStr) (n : ℕ) : n ≤ Nat.ofDigitChars 10 ds n := by
  induction ds generalizing n
  case nil => simp
  case cons c ds hi =>
    rw [Nat.ofDigitChars_cons]
    exact Nat.le_trans (by omega) (hi _)

theorem spanDigits_append (hd : ∀ c ∈ ds, c.isDigit) (h : Follows rest) :
    spanDigits (ds ++ rest) = (ds, rest) := by
  rw [spanDigits, List.takeWhile_append_of_pos hd, List.dropWhile_append_of_pos hd]
  cases rest
  case nil => simp
  case cons c rest => simp [(h c rfl).left]

theorem scanDigits_toDigits (h : Follows rest) :
    scanDigits (Nat.toDigits 10 n ++ rest) = (if n = 0 then [] else Nat.toDigits 10 n, rest) := by
  by_cases hn : n = 0
  case pos =>
    subst hn
    cases rest
    case nil => rfl
    case cons c rest =>
      have hc := (h c rfl).left
      have hr : ¬('1' ≤ c ∧ c ≤ '9') := by
        simp [Char.isDigit, Char.le_def] at hc ⊢
        grind
      simp [scanDigits, hr]
  case neg =>
    have ⟨c, ds, hc, h₁, h₂⟩ := exists_toDigits (Nat.pos_of_ne_zero hn)
    have h₀ : c ≠ '0' := by
      rintro rfl
      exact absurd h₁ (by decide)
    have hd : ∀ c ∈ Nat.toDigits 10 n, c.isDigit := fun c hc =>
      Nat.isDigit_of_mem_toDigits (by decide) (by decide) hc
    have hs := spanDigits_append hd h
    simp [scanDigits, hc, h₀, h₁, h₂, hn] at hs ⊢
    exact hs

@[simp]
theorem readDigits_nil (d : D) : readDigits d [] = d := rfl

theorem readDigits_cons (d : D) (c : Char) :
    readDigits d (c :: ds) = readDigits (d * 10.0 + ofInt (digit c)) ds := rfl

section

variable [Exact D]

theorem readDigits_ofInt (hd : ∀ c ∈ ds, c.isDigit)
    (h : Nat.ofDigitChars 10 ds n ≤ 2 ^ 53) :
    readDigits (ofInt n : D) ds = ofInt (Nat.ofDigitChars 10 ds n) := by
  induction ds generalizing n
  case nil => rfl
  case cons c ds hi =>
    have hc := hd c List.mem_cons_self
    rw [Nat.ofDigitChars_cons] at h ⊢
    have hle := le_ofDigitChars ds (10 * n + (c.toNat - '0'.toNat))
    have hcn := le_toNat_of_isDigit hc
    have hx : ((10 * n + (c.toNat - '0'.toNat) : ℕ) : Int) = n * 10 + digit c := by
      rw [digit]
      omega
    have hs : Short (n * 10) ∧ Short (digit c) ∧ Short (n * 10 + digit c) := by
      simp only [Short, digit] at *
      omega
    rw [← hi (fun c hc => hd c (List.mem_cons_of_mem _ hc)) h, hx, readDigits_cons, Exact.ten,
      Exact.mul ⟨by omega, by omega⟩ (by decide) hs.left fun _ => ⟨by omega, by decide⟩,
      Exact.add hs.left hs.right.left hs.right.right]

theorem numberValue_toDigits (neg : Bool) (hn : n ≤ 2 ^ 53) (h₀ : neg = true → n ≠ 0) :
    (numberValue neg (if n = 0 then [] else Nat.toDigits 10 n) [] (false, []) : D) =
      ofInt (if neg then -n else n) := by
  have hr : readDigits (ofInt 0 : D) (if n = 0 then [] else Nat.toDigits 10 n) = ofInt n := by
    by_cases h : n = 0
    case pos => simp [h]
    case neg =>
      have hd : ∀ c ∈ Nat.toDigits 10 n, c.isDigit := fun c hc =>
        Nat.isDigit_of_mem_toDigits (by decide) (by decide) hc
      have := readDigits_ofInt (D := D) (n := 0) hd (by simpa using hn)
      rw [Nat.ofDigitChars_ten_toDigits] at this
      rw [if_neg h, ← this]
      rfl
  have hz : (ofInt 0 + ofInt 0 : D) = ofInt 0 := Exact.add (by decide) (by decide) (by decide)
  have hs : Short n := ⟨by omega, by omega⟩
  have hsign : ((if neg then ofInt (-1) else ofInt 1) * ofInt n : D) =
      ofInt (if neg then -n else n) := by
    cases neg
    case false =>
      have hx : Short (1 * (n : Int)) := by rwa [Int.one_mul]
      have := Exact.mul (D := D) (by decide) hs hx fun _ => ⟨by decide, by omega⟩
      rwa [Int.one_mul] at this
    case true =>
      have hx : Short (-1 * (n : Int)) := ⟨by omega, by omega⟩
      have hne := h₀ rfl
      have := Exact.mul (D := D) (by decide) hs hx fun h => by omega
      rwa [Int.neg_one_mul] at this
  have hone (x : Int) (hx : Short x) : (ofInt x * ofInt 1 : D) = ofInt x := by
    have := Exact.mul (D := D) hx (y := 1) (by decide) (by rwa [Int.mul_one]) fun h => by omega
    rwa [Int.mul_one] at this
  simp only [numberValue, hr, readDigits_nil, hsign, readSubscale, List.foldl_nil, Int.zero_mul, hz,
    Exact.pow_zero]
  refine hone _ ?_
  cases neg <;> simpa [Short] using hn

theorem scanSign_decimal :
    scanSign (CStr.decimal v ++ rest) = (decide (v < 0), Nat.toDigits 10 v.natAbs ++ rest) := by
  by_cases hv : v < 0
  case pos => simp [CStr.decimal, scanSign, hv]
  case neg =>
    have hh : (Nat.toDigits 10 v.natAbs).head? ≠ some '-' := by
      intro hc
      have hd : '-'.isDigit := Nat.isDigit_of_mem_toDigits (b := 10) (n := v.natAbs) (by decide)
        (by decide) (List.mem_of_mem_head? hc)
      exact absurd hd (by decide)
    simp [CStr.decimal, scanSign, hv, hh]

-- An integer is read back as it is printed.
theorem parseNumber_decimal (h₁ : INT_MIN ≤ v) (h₂ : v ≤ INT_MAX) (h : Follows rest) :
    parseNumber (CStr.decimal v ++ rest) = ((v, (ofInt v : D)), rest) := by
  have hf : scanFraction rest = ([], rest) := by
    refine if_neg fun hc => ?_
    exact (h '.' hc.left).right.left rfl
  have he : scanExponent rest = ((false, []), rest) := by
    refine if_neg fun hc => ?_
    rcases hc with hc | hc
    · exact (h 'e' hc).right.right.left rfl
    · exact (h 'E' hc).right.right.right rfl
  simp only [INT_MIN, INT_MAX] at h₁ h₂
  have hv : (if decide (v < 0) then -(v.natAbs : Int) else v.natAbs) = v := by
    simp only [decide_eq_true_eq]
    omega
  have hn := numberValue_toDigits (D := D) (decide (v < 0)) (n := v.natAbs) (by omega) fun h => by
    simp only [decide_eq_true_eq] at h
    omega
  rw [hv] at hn
  simp only [parseNumber, scanSign_decimal, scanDigits_toDigits h, hf, he, hn,
    Exact.cast (D := D) h₁ h₂]

end

theorem bare_toDigits (n : ℕ) : Bare (Nat.toDigits 10 n) := by
  intro c hc
  have hd : c.isDigit := Nat.isDigit_of_mem_toDigits (by decide) (by decide) hc
  constructor <;>
    · rintro rfl
      exact absurd hd (by decide)

theorem bare_decimal (v : Int) : Bare (CStr.decimal v) := by
  intro c hc
  rcases List.mem_append.mp hc with h | h
  · split at h
    case isTrue  =>
      rw [List.mem_singleton.mp h]
      decide
    case isFalse => exact absurd h List.not_mem_nil
  · exact bare_toDigits _ c h

theorem length_decimal_lt (h₁ : INT_MIN ≤ v) (h₂ : v ≤ INT_MAX) : (CStr.decimal v).length < 21 := by
  have := (Nat.length_toDigits_le_iff (n := v.natAbs) (b := 10) (k := 10) (by decide)
    (by decide)).mpr (by simp only [INT_MIN, INT_MAX] at *; omega)
  simp only [CStr.decimal, List.length_append]
  split <;> simp <;> omega

theorem printNumber_ofInt [Exact D] (h₁ : INT_MIN ≤ v) (h₂ : v ≤ INT_MAX) :
    printNumber v (ofInt v : D) = some (CStr.decimal v) := by
  have hs : Short v := by
    simp only [INT_MIN, INT_MAX, Short] at *
    omega
  by_cases hv : v = 0
  case pos =>
    subst hv
    simp [printNumber, Exact.beq_zero hs]
    decide
  case neg =>
    rw [printNumber, Exact.beq_zero hs, decide_eq_false hv, if_neg Bool.false_ne_true, if_pos]
    · exact if_pos (length_decimal_lt h₁ h₂)
    · exact ⟨Exact.sub_self hs, (Exact.le hs (by decide)).mpr h₂, (Exact.le (by decide) hs).mpr h₁⟩

theorem length_printNumber {d : D} {t : CStr} (h : printNumber v d = some t) : t.length < 64 := by
  have hb {n : ℕ} {s : CStr} (hn : n ≤ 64) (hs : block n s = some t) : t.length < 64 := by
    obtain ⟨hl, hs⟩ := Option.ite_none_right_eq_some.mp hs
    cases hs
    exact Nat.lt_of_lt_of_le hl hn
  rw [printNumber] at h
  split at h
  case isTrue => exact hb (by decide) h
  split at h
  case isTrue => exact hb (by decide) h
  split at h
  case isTrue => exact hb (by decide) h
  split at h <;> exact hb (by decide) h

-- The blocks are large enough for all numbers.
theorem printNumber_some [Printed D] (h₁ : INT_MIN ≤ v) (h₂ : v ≤ INT_MAX) (d : D) :
    ∃ t, printNumber v d = some t ∧ Bare t := by
  rw [printNumber]
  split
  case isTrue => exact ⟨_, if_pos (by decide), bare_decimal 0⟩
  case isFalse =>
    split
    case isTrue => exact ⟨_, if_pos (length_decimal_lt h₁ h₂), bare_decimal v⟩
    case isFalse =>
      split
      case isTrue h => exact ⟨_, if_pos (Printed.f0 h.right), Printed.plain⟩
      case isFalse =>
        split
        case isTrue    => exact ⟨_, if_pos Printed.e, Printed.plain⟩
        case isFalse h => exact ⟨_, if_pos (Printed.f fun hd => h (.inr hd)), Printed.plain⟩

end

end JsonText
