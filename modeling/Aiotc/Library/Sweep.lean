import Mathlib.Order.Interval.Set.LinearOrder

-- A store whose old entries are removed by sweeps. A sweep does not look at what is there: it
-- removes a window of numbers. What is left behind the front was missed.

namespace Sweep

structure State (α : Type*) where
  live : Set α
  front : α

variable {α : Type*} [LinearOrder α] {s s' : State α} {n : α}

-- A window reaches back to where the last one has ended, and stays behind the front.
inductive Step (s : State α) : State α → Prop
  | skip : Step s s
  | add (n : α) : s.front ≤ n → Step s { s with live := insert n s.live }
  | sweep (front : α) (window : Set α) :
    Set.Ico s.front front ⊆ window → window ⊆ Set.Iio front → Step s ⟨s.live \ window, front⟩

def Cleared (s : State α) : Prop :=
  ∀ n ∈ s.live, s.front ≤ n

theorem Step.cleared (e : Step s s') (h : Cleared s) : Cleared s' := by
  cases e
  case skip => exact h
  case add n hn =>
    rintro m (rfl | hm)
    case inl => exact hn
    case inr => exact h m hm
  case sweep front window hw _ =>
    intro m hm
    by_contra hlt
    exact hm.right (hw ⟨h m hm.left, lt_of_not_ge hlt⟩)

theorem Step.kept (e : Step s s') (h : s'.front ≤ n) (hn : n ∈ s.live) : n ∈ s'.live := by
  cases e
  case skip => exact hn
  case add => exact Set.mem_insert_of_mem _ hn
  case sweep front window _ hw => exact ⟨hn, fun hm => absurd (hw hm) (not_lt_of_ge h)⟩

end Sweep
