import Mathlib.Algebra.Order.Ring.Rat
import Mathlib.Tactic.Linarith
import Mathlib.Tactic.NormNum
import Aiotc.Json.Number

-- Rationals in place of doubles: they calculate exactly, and are printed as doubles are.

namespace JsonText

namespace Rational

-- Halves go to the even neighbour.
def nearest (x : ℚ) : Int :=
  let r := x - x.floor
  if r < 1 / 2 ∨ r = 1 / 2 ∧ x.floor % 2 = 0 then x.floor else x.floor + 1

def digits (k n : ℕ) : CStr :=
  List.replicate (k - (Nat.toDigits 10 n).length) '0' ++ Nat.toDigits 10 n

-- "%.kf"
def fixed (k : ℕ) (x : ℚ) : CStr :=
  let n := (nearest (|x| * 10 ^ k)).toNat
  (if x < 0 then ['-'] else []) ++ Nat.toDigits 10 (n / 10 ^ k) ++
    if k = 0 then [] else '.' :: digits k (n % 10 ^ k)

def truncate (x : ℚ) : Int :=
  if 0 ≤ x then x.floor else x.ceil

-- The power of ten in front of which there is one digit. It goes as far as it does for doubles.
def exponent (x : ℚ) : Int :=
  let up := ((List.range 309).filter fun k => 10 ^ (k + 1) ≤ |x|).length
  let down := ((List.range 324).filter fun k => 0 < |x| ∧ |x| * 10 ^ k < 1).length
  up - down

-- "%e"
def scientific (x : ℚ) : CStr :=
  let k := if 10 ^ 7 ≤ nearest (|x| * 10 ^ (6 - exponent x)) then exponent x + 1 else exponent x
  (fixed 6 (x / 10 ^ k) ++ 'e' :: (if k < 0 then '-' else '+') :: digits 2 k.natAbs).take 63

end Rational

open Rational

instance : Double ℚ where
  ofScientific := OfScientific.ofScientific
  ofInt x      := x
  toInt x      :=
    if INT_MIN ≤ truncate x ∧ truncate x ≤ INT_MAX then truncate x else INT_MIN
  pow x n      := x ^ n.num
  fabs x       := |x|
  floor x      := x.floor
  epsilon      := 1 / 2 ^ 52
  sprintf
    | .f0, x => fixed 0 x
    | .e, x  => scientific x
    | .f, x  => fixed 6 x
  le_dec       := inferInstance
  lt_dec       := inferInstance

instance : Exact ℚ where
  ten := by
    change (10.0 : ℚ) = ((10 : Int) : ℚ)
    norm_num
  add _ _ _ := (Int.cast_add _ _).symm
  mul _ _ _ _ := (Int.cast_mul _ _).symm
  sub_self {x} _ := by
    change |(x : ℚ) - x| ≤ 1 / 2 ^ 52
    norm_num
  pow_zero {d} := by
    change d ^ ((0 : Int) : ℚ).num = ((1 : Int) : ℚ)
    simp
  beq_zero {x} _ := by
    change ((x : ℚ) == ((0 : Int) : ℚ)) = _
    simp [beq_eq_decide]
  le _ _ := Int.cast_le
  cast {x} h₁ h₂ := by
    have ht : truncate x = x := by simp [truncate]
    change (if INT_MIN ≤ truncate x ∧ truncate x ≤ INT_MAX then truncate x else INT_MIN) = x
    rw [ht, if_pos ⟨h₁, h₂⟩]

namespace Rational

variable {x : ℚ} {k m n : ℕ}

theorem nearest_le {b : Int} (h : x ≤ b) : nearest x ≤ b := by
  have hf : x.floor ≤ b := by
    rw [← Rat.floor_intCast b]
    exact Rat.floor_monotone h
  rw [nearest]
  split
  case isTrue  => exact hf
  case isFalse hn =>
    refine Int.add_one_le_of_lt (lt_of_le_of_ne hf fun he => hn (.inl ?_))
    rw [he]
    linarith

theorem length_digits (hk : 0 < k) (h : n < 10 ^ k) : (digits k n).length = k := by
  have := (Nat.length_toDigits_le_iff (b := 10) (by decide) hk).mpr h
  rw [digits, List.length_append, List.length_replicate]
  omega

theorem bare_digits (k n : ℕ) : Bare (digits k n) := by
  intro c hc
  rcases List.mem_append.mp hc with h | h
  · rw [(List.mem_replicate.mp h).right]
    decide
  · exact bare_toDigits n c h

theorem bare_fixed : Bare (fixed k x) := by
  intro c hc
  simp only [fixed, List.mem_append] at hc
  rcases hc with (h | h) | h
  · split at h <;> simp_all
  · exact bare_toDigits _ c h
  · split at h
    case isTrue  => exact absurd h List.not_mem_nil
    case isFalse =>
      rcases List.mem_cons.mp h with rfl | h
      · decide
      · exact bare_digits _ _ c h

theorem bare_scientific : Bare (scientific x) := by
  intro c hc
  have hc := List.mem_of_mem_take hc
  simp only [List.mem_append, List.mem_cons] at hc
  have hsign (p : Prop) [Decidable p] : Bare [if p then '-' else '+'] := by
    split <;> simp [Bare]
  rcases hc with h | rfl | h | h
  · exact bare_fixed c h
  · decide
  · exact hsign _ c (List.mem_singleton.mpr h)
  · exact bare_digits _ _ c h

theorem length_fixed (h : |x| ≤ n) (hm : 0 < m) (hn : n < 10 ^ m) :
    (fixed k x).length ≤ m + k + 2 := by
  have hb : |x| * 10 ^ k ≤ ((n * 10 ^ k : ℕ) : Int) := by
    push_cast
    gcongr
  have hp : 0 < 10 ^ k := Nat.pow_pos (by decide)
  have hle : (nearest (|x| * 10 ^ k)).toNat ≤ n * 10 ^ k := Int.toNat_le.mpr (nearest_le hb)
  have hd := Nat.div_le_div_right (c := 10 ^ k) hle
  rw [Nat.mul_div_cancel _ hp] at hd
  have hl := (Nat.length_toDigits_le_iff (b := 10) (by decide) hm).mpr (Nat.lt_of_le_of_lt hd hn)
  have hs : (if x < 0 then ['-'] else []).length ≤ 1 := by
    split <;> decide
  have hf : (if k = 0 then [] else
      '.' :: digits k ((nearest (|x| * 10 ^ k)).toNat % 10 ^ k)).length ≤ k + 1 := by
    split
    case isTrue     => exact Nat.zero_le _
    case isFalse hk =>
      rw [List.length_cons, length_digits (Nat.pos_of_ne_zero hk) (Nat.mod_lt _ hp)]
  simp only [fixed, List.length_append]
  omega

end Rational

instance : Printed ℚ where
  f0 {x} h := by
    have h : |x| < 1.0e60 := h
    have hx : |x| ≤ (10 ^ 60 : ℕ) := by
      refine h.le.trans ?_
      norm_num
    exact Nat.lt_of_le_of_lt (length_fixed (m := 61) hx (by decide) (by norm_num)) (by decide)
  e        := Nat.lt_of_le_of_lt (List.length_take_le 63 _) (by decide)
  f {x} h  := by
    have h : ¬1.0e9 < |x| := h
    have hx : |x| ≤ (10 ^ 9 : ℕ) := by
      refine (not_lt.mp h).trans ?_
      norm_num
    exact Nat.lt_of_le_of_lt (length_fixed (m := 10) hx (by decide) (by norm_num)) (by decide)
  plain {fmt x} := by
    cases fmt
    case f0 => exact bare_fixed
    case e  => exact bare_scientific
    case f  => exact bare_fixed
  cast {x} := by
    change INT_MIN ≤ (if _ then _ else _) ∧ (if _ then _ else _) ≤ INT_MAX
    split
    case isTrue h  => exact h
    case isFalse h => exact ⟨by decide, by decide⟩

end JsonText
