import Mathlib.Data.List.Count

-- Readers of one sequence, each at a position of its own: how many of them have passed an index.

namespace Cursors

variable {pos : List Nat} {i p k l : Nat}

def passed (k : Nat) (pos : List Nat) : Nat :=
  pos.countP (k < ·)

theorem passed_le_length : passed k pos ≤ pos.length :=
  List.countP_le_length

theorem passed_eq_length : passed k pos = pos.length ↔ ∀ p ∈ pos, k < p := by
  simp [passed, List.countP_eq_length]

theorem passed_eq_zero : passed k pos = 0 ↔ ∀ p ∈ pos, p ≤ k := by
  simp [passed, List.countP_eq_zero]

-- The further an index, the fewer readers have passed it.
theorem passed_anti (h : k ≤ l) : passed l pos ≤ passed k pos := by
  apply List.countP_mono_left
  intro p _ hp
  simp only [decide_eq_true_eq] at hp ⊢
  omega

-- A reader that moves on by one passes the index that it was at.
theorem passed_set (h : pos[i]? = some p) :
    passed k (pos.set i (p + 1)) = passed k pos + if k = p then 1 else 0 := by
  induction pos generalizing i
  case nil => cases h
  case cons q pos hi =>
    cases i
    case zero =>
      cases h
      simp only [List.set_cons_zero, passed, List.countP_cons, decide_eq_true_eq]
      split <;> split <;> split <;> omega
    case succ i =>
      have := hi h
      simp only [passed, List.set_cons_succ, List.countP_cons] at this ⊢
      omega

end Cursors
