import Mathlib.Data.List.MinMax

-- The first of the least elements of a list, among those that are eligible, and loops that look for
-- it.

namespace Select

variable {α β : Type*} [LinearOrder β] {p : α → Bool} {f : α → β} {l : List α} {x y : α}

def least (p : α → Bool) (f : α → β) (l : List α) : Option α :=
  (l.filter p).argmin f

theorem least_eq_none_iff : least p f l = none ↔ ∀ x ∈ l, p x = false := by
  simp [least]

theorem least_concat_of_none (h : p x) (hl : least p f l = none) :
    least p f (l ++ [x]) = some x := by
  rw [least] at hl
  rw [least, List.filter_append, List.filter_cons_of_pos h, List.filter_nil, List.argmin_concat, hl]

theorem least_concat_of_some (h : p x) (hl : least p f l = some y) :
    least p f (l ++ [x]) = if f x < f y then some x else some y := by
  rw [least] at hl
  rw [least, List.filter_append, List.filter_cons_of_pos h, List.filter_nil, List.argmin_concat, hl]

theorem least_concat_of_not (h : p x = false) : least p f (l ++ [x]) = least p f l := by
  simp [least, h]

-- The eligible elements before it are greater, and those behind it are not less.
structure First (p : α → Bool) (f : α → β) (us : List α) (x : α) (vs : List α) : Prop where
  eligible : p x
  before   : ∀ y ∈ us, p y → f x < f y
  behind   : ∀ y ∈ vs, p y → f x ≤ f y

section

variable {us vs : List α}

theorem First.concat (h : First p f us x vs) (hy : p y → f x ≤ f y) :
    First p f us x (vs ++ [y]) where
  eligible := h.eligible
  before   := h.before
  behind   := by
    intro z hz hp
    rcases List.mem_append.mp hz with hz | hz
    case inl => exact h.behind z hz hp
    case inr =>
      cases List.mem_singleton.mp hz
      exact hy hp

theorem First.replace (h : First p f us x vs) (hy : p y) (hlt : f y < f x) :
    First p f (us ++ x :: vs) y [] where
  eligible := hy
  before   := by
    intro z hz hp
    rcases List.mem_append.mp hz with hz | hz
    case inl => exact hlt.trans (h.before z hz hp)
    case inr =>
      rcases List.mem_cons.mp hz with rfl | hz
      case inl => exact hlt
      case inr => exact hlt.trans_le (h.behind z hz hp)
  behind   := nofun

end

theorem exists_first (h : least p f l = some x) :
    ∃ us vs, l = us ++ x :: vs ∧ First p f us x vs := by
  induction l using List.reverseRecOn generalizing x
  case nil => cases h
  case append_singleton l y hi =>
    cases hy : p y
    case false =>
      rw [least_concat_of_not hy] at h
      obtain ⟨us, vs, rfl, hf⟩ := hi h
      exact ⟨us, vs ++ [y], by simp, hf.concat fun hp => absurd hp (by simp [hy])⟩
    case true =>
      cases hl : least p f l
      case none =>
        rw [least_concat_of_none hy hl] at h
        cases h
        have hn := least_eq_none_iff.mp hl
        exact ⟨l, [], rfl, hy, fun z hz hp => absurd hp (by simp [hn z hz]), nofun⟩
      case some w =>
        rw [least_concat_of_some hy hl] at h
        obtain ⟨us, vs, rfl, hf⟩ := hi hl
        split at h <;> cases h
        case isTrue hlt  => exact ⟨us ++ w :: vs, [], rfl, hf.replace hy hlt⟩
        case isFalse hge => exact ⟨us, vs ++ [y], by simp, hf.concat fun _ => not_lt.mp hge⟩

-- The candidate of the loop is eligible, so that the test by which it is replaced may leave out
-- what follows from being less.
theorem foldl_eq_least {step : Option α → α → Option α}
    (hn : ∀ x, step none x = if p x then some x else none)
    (hs : ∀ y x, p y → step (some y) x = if p x ∧ f x < f y then some x else some y) :
    l.foldl step none = least p f l := by
  induction l using List.reverseRecOn
  case nil => rfl
  case append_singleton l x hi =>
    rw [List.foldl_append, hi, List.foldl_cons, List.foldl_nil]
    cases hl : least p f l
    case none =>
      rw [hn]
      cases hx : p x
      case true  => rw [if_pos rfl, least_concat_of_none hx hl]
      case false => rw [if_neg (by decide), least_concat_of_not hx, hl]
    case some y =>
      have ⟨_, _, _, hf⟩ := exists_first hl
      rw [hs y x hf.eligible]
      cases hx : p x
      case true  => simp [least_concat_of_some hx hl]
      case false => simp [least_concat_of_not hx, hl]

end Select
