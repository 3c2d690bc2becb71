import Mathlib.Algebra.BigOperators.Group.List.Basic
import Mathlib.Algebra.GroupWithZero.Nat
import Mathlib.Data.List.Basic

-- Tiles of given lengths that are laid end to end, each listed with where it starts.

namespace Tiling

variable {τ : Type*} {len : τ → ℕ}

def Tiles (len : τ → ℕ) : ℕ → List (ℕ × τ) → ℕ → Prop
  | o, [], e     => o = e
  | o, x :: l, e => x.1 = o ∧ 0 < len x.2 ∧ Tiles len (o + len x.2) l e

def Covers (len : τ → ℕ) (x : ℕ × τ) (j : ℕ) : Prop :=
  x.1 ≤ j ∧ j < x.1 + len x.2

variable {o e c d j : ℕ} {x y : ℕ × τ} {l m n : List (ℕ × τ)}

namespace Tiles

@[simp]
theorem nil_iff : Tiles len o [] e ↔ o = e :=
  .rfl

@[simp]
theorem cons_iff : Tiles len o (x :: l) e ↔ x.1 = o ∧ 0 < len x.2 ∧ Tiles len (o + len x.2) l e :=
  .rfl

theorem append_iff : Tiles len o (l ++ m) e ↔ ∃ c, Tiles len o l c ∧ Tiles len c m e := by
  induction l generalizing o
  case nil          => simp
  case cons x l hi => simp [hi, and_assoc]

theorem append (h₁ : Tiles len o l c) (h₂ : Tiles len c m e) : Tiles len o (l ++ m) e :=
  append_iff.mpr ⟨c, h₁, h₂⟩

theorem le (h : Tiles len o l e) : o ≤ e := by
  induction l generalizing o
  case nil => exact Nat.le_of_eq h
  case cons x l hi =>
    have := hi h.right.right
    omega

theorem bounds (h : Tiles len o l e) (hx : x ∈ l) : o ≤ x.1 ∧ 0 < len x.2 ∧ x.1 + len x.2 ≤ e := by
  induction l generalizing o
  case nil => cases hx
  case cons y l hi =>
    obtain ⟨rfl, hp, h⟩ := h
    rcases List.mem_cons.mp hx with rfl | hx
    · exact ⟨Nat.le_refl _, hp, h.le⟩
    · have := hi h hx
      omega

-- Different tiles have nothing in common.
theorem eq_of_covers (h : Tiles len o l e) (hx : x ∈ l) (hy : y ∈ l) (hj : Covers len x j)
    (hj' : Covers len y j) : x = y := by
  induction l generalizing o
  case nil => cases hx
  case cons z l hi =>
    obtain ⟨rfl, hp, h⟩ := h
    simp only [Covers, List.mem_cons] at hj hj' hx hy
    rcases hx with rfl | hx <;> rcases hy with rfl | hy
    · rfl
    · have := h.bounds hy
      omega
    · have := h.bounds hx
      omega
    · exact hi h hx hy

theorem eq_of_start (h : Tiles len o l e) (hx : x ∈ l) (hy : y ∈ l) (hs : x.1 = y.1) : x = y := by
  have := h.bounds hx
  have := h.bounds hy
  refine h.eq_of_covers hx hy (j := x.1) ?_ ?_ <;>
  · simp only [Covers]
    omega

theorem exists_covers (h : Tiles len o l e) (ho : o ≤ j) (he : j < e) :
    ∃ x ∈ l, Covers len x j := by
  induction l generalizing o
  case nil =>
    cases h
    omega
  case cons x l hi =>
    obtain ⟨rfl, hp, h⟩ := h
    by_cases hj : j < x.1 + len x.2
    case pos => exact ⟨x, List.mem_cons_self, ho, hj⟩
    case neg =>
      have ⟨y, hy, hc⟩ := hi h (by omega)
      exact ⟨y, List.mem_cons_of_mem _ hy, hc⟩

-- The tiles around one tile.
theorem split (h : Tiles len o (l ++ x :: m) e) :
    Tiles len o l x.1 ∧ 0 < len x.2 ∧ Tiles len (x.1 + len x.2) m e := by
  obtain ⟨c, h₁, rfl, hp, h₂⟩ := append_iff.mp h
  exact ⟨h₁, hp, h₂⟩

-- Some tiles give way to others that cover the same.
theorem replace (h : Tiles len o (l ++ x :: m) e) (hn : Tiles len x.1 n (x.1 + len x.2)) :
    Tiles len o (l ++ n ++ m) e := by
  have ⟨h₁, _, h₂⟩ := h.split
  exact (h₁.append hn).append h₂

theorem pairwise (h : Tiles len o l e) : l.Pairwise fun x y => x.1 + len x.2 ≤ y.1 := by
  induction l generalizing o
  case nil => exact .nil
  case cons x l hi =>
    obtain ⟨rfl, _, h⟩ := h
    exact .cons (fun y hy => (h.bounds hy).left) (hi h)

end Tiles

end Tiling
