import Aiotc.Slab.Basic
import Mathlib.Algebra.Order.Group.Nat
import Mathlib.Data.List.TakeWhile
import Mathlib.Data.Nat.Bitwise

-- The maps of the pages by their bits.

namespace Slab

variable {i j n o : ℕ} {w mask : BitVec 64}

@[simp]
theorem getLsbD_bit : (1#64 <<< i).getLsbD j = (decide (i < 64) && decide (j = i)) := by
  rw [BitVec.getLsbD_shiftLeft, BitVec.getLsbD_one]
  by_cases h : j = i
  case pos => simp [h]
  case neg =>
    have : i ≤ j → j - i ≠ 0 := by omega
    by_cases hl : j < i
    case pos => simp [hl, h]
    case neg => simp [h, this (Nat.le_of_not_lt hl)]

theorem getLsbD_setBit (hi : i < 64) :
    (setBit i w).getLsbD j = (w.getLsbD j || decide (j = i)) := by
  rw [setBit, BitVec.getLsbD_or, getLsbD_bit]
  simp [hi]

theorem getLsbD_clearBit (hi : i < 64) :
    (clearBit i w).getLsbD j = (w.getLsbD j && decide (j ≠ i)) := by
  by_cases hj : j < 64
  case pos =>
    rw [clearBit, BitVec.getLsbD_and, BitVec.getLsbD_not, getLsbD_bit]
    simp [hi, hj]
  case neg => simp [BitVec.getLsbD_of_ge _ _ (Nat.le_of_not_lt hj)]

theorem eq_busyMap_iff : w = busyMap ↔ ∀ i < 64, w.getLsbD i = true := by
  constructor
  case mp =>
    rintro rfl i hi
    rw [busyMap, BitVec.getLsbD_allOnes, decide_eq_true hi]
  case mpr =>
    intro h
    apply BitVec.eq_of_getLsbD_eq
    intro i hi
    rw [busyMap, BitVec.getLsbD_allOnes, decide_eq_true hi, h i hi]

theorem ne_zero_iff : w ≠ 0 ↔ ∃ i < 64, w.getLsbD i = true := by
  rw [← not_iff_not]
  push Not
  constructor
  case mp =>
    rintro rfl i hi
    simp
  case mpr =>
    intro h
    apply BitVec.eq_of_getLsbD_eq
    intro i hi
    simpa using h i hi

theorem getLsbD_low (hn : n < 64) (hi : i < 64) : (1#64 <<< n - 1).getLsbD i = decide (i < n) := by
  have h : 1#64 <<< n - 1 = .ofNat 64 (2 ^ n - 1) := by
    have hp : 2 ^ n < 2 ^ 64 := Nat.pow_lt_pow_right (by decide) hn
    have h₁ := Nat.two_pow_pos n
    apply BitVec.eq_of_toNat_eq
    have h₂ : (1 : BitVec 64).toNat = 1 := rfl
    simp only [BitVec.toNat_sub, BitVec.toNat_shiftLeft, BitVec.toNat_ofNat, Nat.shiftLeft_eq, h₂]
    generalize 2 ^ n = m at *
    omega
  rw [h, BitVec.getLsbD_ofNat, Nat.testBit_two_pow_sub_one]
  simp [hi]

-- The loops over a mask that has no gaps find the first clear bit that it has.
theorem lowestClear_some (h : lowestClear w mask o = some i) :
    o + i < 64 ∧ mask.getLsbD (o + i) = true ∧ w.getLsbD (o + i) = false := by
  have hm := List.mem_of_find?_eq_some h
  have hw := List.find?_some h
  have hr := List.mem_range.mp ((List.takeWhile_sublist _).subset hm)
  refine ⟨by omega, ?_, by simpa using hw⟩
  exact List.mem_takeWhile_imp (p := fun i => mask.getLsbD (o + i)) hm

theorem lowestClear_none (h : lowestClear w mask o = none) (hi : o + i < 64)
    (hm : ∀ j ≤ i, mask.getLsbD (o + j) = true) : w.getLsbD (o + i) = true := by
  have hw := List.find?_eq_none.mp h i
  simp only [Bool.not_eq_true, Bool.not_eq_false'] at hw
  apply hw
  rw [show 64 - o = i + 1 + (64 - o - (i + 1)) by omega, List.range_add,
    List.takeWhile_append_of_pos]
  · simp
  · intro j hj
    exact hm j (Nat.le_of_lt_succ (List.mem_range.mp hj))

end Slab
