import Mathlib.Algebra.Order.BigOperators.Group.List
import Mathlib.Algebra.Order.Group.Int
import Mathlib.Algebra.Ring.Int.Defs

-- Half open extents of addresses, and how they are laid end to end.

structure Extent where
  lo : Int
  hi : Int
  deriving DecidableEq

namespace Extent

def size (a : Extent) : Int :=
  a.hi - a.lo

def Apart (a b : Extent) : Prop :=
  a.hi ≤ b.lo ∨ b.hi ≤ a.lo

-- Extents of the given sizes, the first of which starts at `lo`.
def layout (lo : Int) : List Int → List Extent
  | []      => []
  | n :: ns => ⟨lo, lo + n⟩ :: layout (lo + n) ns

section

variable {lo hi : Int} {ns ms : List Int} {a : Extent}

@[simp]
theorem size_mk : (Extent.mk lo hi).size = hi - lo :=
  rfl

theorem layout_append : layout lo (ns ++ ms) = layout lo ns ++ layout (lo + ns.sum) ms := by
  induction ns generalizing lo
  case nil          => simp [layout]
  case cons n ns hi => simp [layout, hi, Int.add_assoc]

theorem map_size_layout : (layout lo ns).map size = ns := by
  induction ns generalizing lo
  case nil          => rfl
  case cons n ns hi => simp [layout, hi]

theorem mem_layout (h : ∀ n ∈ ns, 0 ≤ n) (ha : a ∈ layout lo ns) :
    lo ≤ a.lo ∧ a.lo ≤ a.hi ∧ a.hi ≤ lo + ns.sum := by
  induction ns generalizing lo
  case nil => cases ha
  case cons n ns hi =>
    have ⟨hn, hs⟩ := List.forall_mem_cons.mp h
    have hp := List.sum_nonneg hs
    simp only [List.sum_cons]
    rcases List.mem_cons.mp ha with rfl | ha
    · simp only
      omega
    · have := hi hs ha
      omega

theorem pairwise_layout (h : ∀ n ∈ ns, 0 ≤ n) : (layout lo ns).Pairwise Apart := by
  induction ns generalizing lo
  case nil => exact .nil
  case cons n ns hi =>
    have ⟨_, hs⟩ := List.forall_mem_cons.mp h
    exact .cons (fun b hb => .inl (mem_layout hs hb).left) (hi hs)

-- A bound of all extents is a bound of their sum.
theorem sum_le_of_layout (hl : lo ≤ hi) (h : ∀ a ∈ layout lo ns, a.hi ≤ hi) :
    lo + ns.sum ≤ hi := by
  induction ns generalizing lo
  case nil => simpa using hl
  case cons n ns ih =>
    have ⟨hn, hs⟩ := List.forall_mem_cons.mp h
    rw [List.sum_cons, ← Int.add_assoc]
    exact ih hn hs

end

end Extent
