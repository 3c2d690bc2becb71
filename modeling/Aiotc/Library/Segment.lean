import Mathlib.Logic.Function.Basic
import Mathlib.Data.List.Nodup

-- Singly linked lists in a heap of cells. A pointer is an optional address, `none` is NULL.

structure Cell (A D : Type*) where
  data : D
  next : Option A

namespace Heap

variable {A D : Type*}

-- Starting at `p` and following `next` the heap spells out the cells `xs` and arrives at `q`.
def Segment (h : A → Option (Cell A D)) : Option A → List (A × D) → Option A → Prop
  | p, [], q           => p = q
  | p, (a, d) :: xs, q => p = some a ∧ ∃ r, h a = some ⟨d, r⟩ ∧ Segment h r xs q

abbrev addrs (xs : List (A × D)) : List A :=
  xs.map Prod.fst

namespace Segment

variable {h h' : A → Option (Cell A D)} {p q r : Option A} {xs ys : List (A × D)} {a : A} {d : D}

@[simp]
theorem nil_iff : Segment h p [] q ↔ p = q :=
  .rfl

@[simp]
theorem cons_iff :
    Segment h p ((a, d) :: xs) q ↔ p = some a ∧ ∃ r, h a = some ⟨d, r⟩ ∧ Segment h r xs q :=
  .rfl

theorem append_iff : Segment h p (xs ++ ys) q ↔ ∃ r, Segment h p xs r ∧ Segment h r ys q := by
  induction xs generalizing p
  case nil => simp
  case cons x xs hi =>
    have ⟨a, d⟩ := x
    simp only [List.cons_append, cons_iff, hi]
    constructor
    case mp  => exact fun ⟨hp, r, ha, s, h₁, h₂⟩ => ⟨s, ⟨hp, r, ha, h₁⟩, h₂⟩
    case mpr => exact fun ⟨s, ⟨hp, r, ha, h₁⟩, h₂⟩ => ⟨hp, r, ha, s, h₁, h₂⟩

theorem append (h₁ : Segment h p xs r) (h₂ : Segment h r ys q) : Segment h p (xs ++ ys) q :=
  append_iff.mpr ⟨r, h₁, h₂⟩

theorem snoc_iff :
    Segment h p (xs ++ [(a, d)]) q ↔ Segment h p xs (some a) ∧ h a = some ⟨d, q⟩ := by
  simp only [append_iff, cons_iff, nil_iff]
  constructor
  case mp =>
    rintro ⟨_, hs, rfl, _, ha, rfl⟩
    exact ⟨hs, ha⟩
  case mpr => exact fun ⟨hs, ha⟩ => ⟨_, hs, rfl, _, ha, rfl⟩

theorem mem_allocated (s : Segment h p xs q) (hm : a ∈ addrs xs) : ∃ c, h a = some c := by
  induction xs generalizing p
  case nil => simp at hm
  case cons x xs hi =>
    obtain ⟨rfl, r, ha, s⟩ := s
    rcases List.mem_cons.mp hm with rfl | hm
    · exact ⟨_, ha⟩
    · exact hi s hm

-- Cells that are not on the segment can be changed freely.
theorem frame (s : Segment h p xs q) (he : ∀ a ∈ addrs xs, h' a = h a) : Segment h' p xs q := by
  induction xs generalizing p
  case nil => exact s
  case cons x xs hi =>
    have ⟨hp, r, ha, s⟩ := s
    refine ⟨hp, r, ?_, hi s fun b hb => he b ?_⟩
    · rw [he x.1 (by simp), ha]
    · exact List.mem_cons_of_mem _ hb

section

variable [DecidableEq A]

theorem update (s : Segment h p xs q) (hn : a ∉ addrs xs) (c : Option (Cell A D)) :
    Segment (Function.update h a c) p xs q := by
  refine s.frame fun b hb => Function.update_of_ne ?_ ..
  rintro rfl
  exact hn hb

theorem setNext (s : Segment h p (xs ++ [(a, d)]) q) (hn : a ∉ addrs xs) (r : Option A) :
    Segment (Function.update h a (some ⟨d, r⟩)) p (xs ++ [(a, d)]) r :=
  snoc_iff.mpr ⟨(snoc_iff.mp s).left.update hn _, by simp⟩

theorem setData (s : Segment h p (xs ++ (a, d) :: ys) q) (hn : a ∉ addrs xs) (hn' : a ∉ addrs ys)
    (hr : h a = some ⟨d, r⟩) (d' : D) :
    Segment (Function.update h a (some ⟨d', r⟩)) p (xs ++ (a, d') :: ys) q := by
  have ⟨_, h₁, rfl, r', ha, h₂⟩ := append_iff.mp s
  cases Option.some.inj (ha.symm.trans hr)
  exact (h₁.update hn _).append ⟨rfl, r, by simp, h₂.update hn' _⟩

end

-- A pointer leads to NULL along one list of cells only.
theorem unique (s₁ : Segment h p xs none) (s₂ : Segment h p ys none) : xs = ys := by
  induction xs generalizing p ys <;> cases ys
  case nil.nil   => rfl
  case nil.cons  => exact absurd (s₁.symm.trans s₂.left) (by simp)
  case cons.nil  => exact absurd (s₂.symm.trans s₁.left) (by simp)
  case cons.cons x xs hi y ys =>
    have ⟨a, d⟩ := x
    have ⟨b, e⟩ := y
    obtain ⟨rfl, r, hx, s₁⟩ := s₁
    have ⟨hp, r', hy, s₂⟩ := s₂
    cases hp
    cases Option.some.inj (hx.symm.trans hy)
    rw [hi s₁ s₂]

-- Hence no cell can occur twice on the way: the way from it to NULL would have two lengths.
theorem nodup (s : Segment h p xs none) : (addrs xs).Nodup := by
  induction xs generalizing p
  case nil => simp
  case cons x xs hi =>
    obtain ⟨rfl, r, ha, s⟩ := s
    refine List.nodup_cons.mpr ⟨fun hm => ?_, hi s⟩
    have ⟨⟨b, d⟩, hm, hb⟩ := List.mem_map.mp hm
    obtain ⟨ys, zs, rfl⟩ := List.append_of_mem hm
    have ⟨_, _, hr, r', hb', s'⟩ := append_iff.mp s
    cases hb
    cases Option.some.inj (ha.symm.trans hb')
    have := congrArg List.length (s.unique s')
    simp at this
    omega

theorem head_eq (s : Segment h p xs none) : p = (addrs xs).head? := by
  cases xs
  case nil  => exact s
  case cons => exact s.left

end Segment

end Heap
