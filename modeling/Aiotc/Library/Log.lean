import Mathlib.Data.List.Nodup

-- Logs of who did something with what: what one has done, and who has done it with one thing. And
-- logs of two things that take turns.

namespace Log

variable {α β : Type*} {l : List (α × β)} {a a' : α} {b b' : β}

section

variable [DecidableEq α]

def acts (a : α) (l : List (α × β)) : List β :=
  (l.filter (·.1 = a)).map Prod.snd

@[simp]
theorem acts_append_self : acts a (l ++ [(a, b)]) = acts a l ++ [b] := by
  simp [acts]

theorem acts_append_of_ne (h : a' ≠ a) : acts a' (l ++ [(a, b)]) = acts a' l := by
  simp [acts, h.symm]

-- Where no one does the same thing twice, no entry is there twice.
theorem nodup_of_acts (h : ∀ a, (acts a l).Nodup) : l.Nodup := by
  induction l
  case nil => exact .nil
  case cons x l hi =>
    refine List.nodup_cons.mpr ⟨fun hm => ?_, hi fun a => ?_⟩
    · have hx := h x.1
      simp only [acts, List.filter_cons, decide_true, if_true, List.map_cons] at hx
      refine (List.nodup_cons.mp hx).left (List.mem_map.mpr ⟨x, ?_, rfl⟩)
      simpa using hm
    · have ha := h a
      simp only [acts, List.filter_cons] at ha
      split at ha
      · exact (List.nodup_cons.mp ha).right
      · exact ha

end

section

variable [DecidableEq β]

def actors (b : β) (l : List (α × β)) : List α :=
  (l.filter (·.2 = b)).map Prod.fst

@[simp]
theorem actors_append_self : actors b (l ++ [(a, b)]) = actors b l ++ [a] := by
  simp [actors]

theorem actors_append_of_ne (h : b' ≠ b) : actors b' (l ++ [(a, b)]) = actors b' l := by
  simp [actors, h.symm]

theorem actors_eq_nil : actors b l = [] ↔ ∀ x ∈ l, x.2 ≠ b := by
  simp [actors]

theorem nodup_actors (h : l.Nodup) : (actors b l).Nodup := by
  apply (h.filter _).map_on
  intro x hx y hy he
  have hx := (List.mem_filter.mp hx).right
  have hy := (List.mem_filter.mp hy).right
  simp only [decide_eq_true_eq] at hx hy
  exact Prod.ext he (hx.trans hy.symm)

end

section

variable {l : List α} {x : α}

-- The log is `a`, `b`, `a`, `b` and so on.
def Alternates : α → α → List α → Prop
  | _, _, []     => True
  | a, b, x :: l => x = a ∧ Alternates b a l

namespace Alternates

variable {b : α}

theorem getLast? (h : Alternates a b l) :
    l.getLast? = none ∨ l.getLast? = some b ∨ l.getLast? = some a := by
  induction l generalizing a b
  case nil => exact .inl rfl
  case cons y l hi =>
    have ⟨hy, h⟩ := h
    cases l
    case nil  => simp [hy]
    case cons =>
      rw [List.getLast?_cons_cons]
      exact .inr ((hi h).resolve_left (by simp)).symm

-- What is appended is the one whose turn it is.
theorem snoc (h : Alternates a b l)
    (hx : (l.getLast? = none ∨ l.getLast? = some b) ∧ x = a ∨ l.getLast? = some a ∧ x = b) :
    Alternates a b (l ++ [x]) := by
  induction l generalizing a b
  case nil => exact ⟨by simpa using hx, trivial⟩
  case cons y l hi =>
    have ⟨hy, h⟩ := h
    refine ⟨hy, hi h ?_⟩
    cases l
    case nil  => grind
    case cons =>
      rw [List.getLast?_cons_cons] at hx
      grind

theorem snoc_first (h : Alternates a b l) (hl : l.getLast? ≠ some a) :
    Alternates a b (l ++ [a]) :=
  h.snoc (.inl ⟨by have hg := h.getLast?; grind, rfl⟩)

theorem snoc_second (h : Alternates a b l) (hl : l.getLast? = some a) :
    Alternates a b (l ++ [b]) :=
  h.snoc (.inr ⟨hl, rfl⟩)

theorem count_eq [DecidableEq α] (h : Alternates a b l) (hn : a ≠ b) :
    l.count a = l.count b + if l.getLast? = some a then 1 else 0 := by
  induction l generalizing a b
  case nil => simp
  case cons y l hi =>
    have ⟨hy, h⟩ := h
    have hc := hi h hn.symm
    rw [hy, List.count_cons_self, List.count_cons_of_ne hn]
    cases l
    case nil  => simp
    case cons =>
      have hg := h.getLast?
      rw [List.getLast?_cons_cons]
      grind

-- Each `a` has its `b` unless an `a` was last.
theorem count_eq_iff [DecidableEq α] (h : Alternates a b l) (hn : a ≠ b) :
    l.count a = l.count b ↔ l.getLast? ≠ some a := by
  rw [h.count_eq hn]
  split <;> simp_all

end Alternates

end

end Log
