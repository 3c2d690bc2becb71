import Mathlib.Data.List.Nodup
import Mathlib.Logic.Function.Basic

-- Circular lists that are linked both ways and start and end at a sentinel. What the sentinel has
-- behind it is left open: nothing goes backwards past it.

namespace Ring

variable {A : Type*}

-- The cells `xs` follow `a`, and after them comes `e`.
def Chain (next prev : A → Option A) : A → List A → A → Prop
  | a, [], e      => next a = some e
  | a, x :: xs, e => next a = some x ∧ prev x = some a ∧ Chain next prev x xs e

structure Linked (next prev : A → Option A) (s : A) (xs : List A) : Prop where
  chain : Chain next prev s xs s
  nodup : (s :: xs).Nodup

variable {next prev next' prev' : A → Option A} {s a b e x y : A} {xs ys : List A}

namespace Chain

@[simp]
theorem nil_iff : Chain next prev a [] e ↔ next a = some e :=
  .rfl

@[simp]
theorem cons_iff :
    Chain next prev a (x :: xs) e ↔ next a = some x ∧ prev x = some a ∧ Chain next prev x xs e :=
  .rfl

theorem exists_next (h : Chain next prev a xs e) :
    ∃ b, next a = some b ∧ (b = e ∨ b ∈ xs) := by
  cases xs
  case nil  => exact ⟨e, h, .inl rfl⟩
  case cons => exact ⟨_, h.left, .inr List.mem_cons_self⟩

-- Links that are not those of the chain can be changed freely.
theorem frame (h : Chain next prev a xs e) (hn : ∀ b ∈ a :: xs, next' b = next b)
    (hp : ∀ b ∈ xs, prev' b = prev b) : Chain next' prev' a xs e := by
  induction xs generalizing a
  case nil => exact (hn a List.mem_cons_self).trans h
  case cons x xs hi =>
    have ⟨hx, hb, h⟩ := h
    refine ⟨(hn a List.mem_cons_self).trans hx, (hp x List.mem_cons_self).trans hb, hi h ?_ ?_⟩
    · exact fun b hb => hn b (List.mem_cons_of_mem _ hb)
    · exact fun b hb => hp b (List.mem_cons_of_mem _ hb)

-- The way back from a cell leads through those before it.
theorem prev_of_getElem? (h : Chain next prev a xs e) {i : ℕ} (hi : xs[i]? = some x) :
    prev x = (a :: xs)[i]? := by
  induction xs generalizing a i
  case nil => simp at hi
  case cons y xs ih =>
    cases i
    case zero =>
      cases hi
      exact h.right.left
    case succ i => exact ih h.right.right hi

theorem append_iff : Chain next prev a (xs ++ y :: ys) e ↔
    Chain next prev a xs y ∧ prev y = some (xs.getLastD a) ∧ Chain next prev y ys e := by
  induction xs generalizing a
  case nil          => rfl
  case cons x xs hi => simp only [List.cons_append, cons_iff, hi, List.getLastD_cons, and_assoc]

variable [DecidableEq A]

-- The last link leads to `c` instead.
theorem retarget (h : Chain next prev a xs e) (hd : (a :: xs).Nodup) (c : A) :
    Chain (Function.update next (xs.getLastD a) (some c)) prev a xs c := by
  induction xs generalizing a
  case nil => simp
  case cons x xs hi =>
    have ⟨hx, hb, h⟩ := h
    have ⟨ha, hd⟩ := List.nodup_cons.mp hd
    have hl : xs.getLastD x ∈ x :: xs := List.getLastD_mem_cons
    rw [List.getLastD_cons]
    refine ⟨?_, hb, hi h hd⟩
    rw [Function.update_of_ne (by grind), hx]

-- `y` takes the place of the start.
theorem restart (h : Chain next prev x ys e) (hy : y ∉ ys) (hd : ys.Nodup) :
    ∃ c, next x = some c ∧ (c = e ∨ c ∈ ys) ∧
      Chain (Function.update next y (some c)) (Function.update prev c (some y)) y ys e := by
  cases ys
  case nil => exact ⟨e, h, .inl rfl, by simp⟩
  case cons z ys =>
    have ⟨hz, _, h⟩ := h
    have ⟨hn, _⟩ := List.nodup_cons.mp hd
    refine ⟨z, hz, .inr List.mem_cons_self, by simp, by simp, ?_⟩
    refine h.frame (fun b hb => Function.update_of_ne ?_ ..) fun b hb => Function.update_of_ne ?_ ..
    · exact fun hc => hy (hc ▸ hb)
    · exact fun hc => hn (hc ▸ hb)

end Chain

namespace Linked

theorem nil_iff : Linked next prev s [] ↔ next s = some s :=
  ⟨fun h => h.chain, fun h => ⟨h, List.nodup_singleton s⟩⟩

theorem frame (h : Linked next prev s xs) (hn : ∀ b ∈ s :: xs, next' b = next b)
    (hp : ∀ b ∈ xs, prev' b = prev b) : Linked next' prev' s xs :=
  ⟨h.chain.frame hn hp, h.nodup⟩

variable [DecidableEq A]

-- A cell is put in front of all others.
theorem push (h : Linked next prev s xs) (hx : x ∉ s :: xs) :
    ∃ b, next s = some b ∧ b ∈ s :: xs ∧
      Linked (Function.update (Function.update next x (some b)) s (some x))
        (Function.update (Function.update prev x (some s)) b (some x)) s (x :: xs) := by
  have hd := h.nodup
  have ⟨b, hb, hm, hc⟩ := h.chain.restart (y := x) (by grind) (by grind)
  refine ⟨b, hb, by grind, ⟨by simp, ?_, ?_⟩, by grind⟩
  · rw [Function.update_of_ne (by grind), Function.update_self]
  · refine hc.frame (fun c hc => Function.update_of_ne (by grind) ..) fun c hc => ?_
    simp only [Function.update_apply]
    grind

-- A cell is taken out: those before and behind it are linked with each other.
theorem remove (h : Linked next prev s xs) (hx : x ∈ xs) :
    ∃ b c, prev x = some b ∧ next x = some c ∧ b ∈ s :: xs.erase x ∧ c ∈ s :: xs.erase x ∧
      Linked (Function.update next b (some c)) (Function.update prev c (some b)) s
        (xs.erase x) := by
  obtain ⟨us, vs, rfl⟩ := List.append_of_mem hx
  have hd := h.nodup
  have ⟨h₁, hb, h₂⟩ := Chain.append_iff.mp h.chain
  have hbm : us.getLastD s ∈ s :: us := List.getLastD_mem_cons
  rw [show (us ++ x :: vs).erase x = us ++ vs by grind]
  have ht (c : A) := h₁.retarget (by grind) c
  cases vs
  case nil =>
    refine ⟨_, s, hb, h₂, by grind, by grind, ⟨?_, by grind⟩⟩
    rw [List.append_nil]
    exact (ht s).frame (fun _ _ => rfl) fun c hc => Function.update_of_ne (by grind) ..
  case cons y vs =>
    have ⟨hy, _, h₂⟩ := h₂
    refine ⟨_, y, hb, hy, by grind, by grind, ⟨Chain.append_iff.mpr ⟨?_, ?_, ?_⟩, by grind⟩⟩
    · exact (ht y).frame (fun _ _ => rfl) fun c hc => Function.update_of_ne (by grind) ..
    · rw [Function.update_self]
    · refine h₂.frame (fun c hc => Function.update_of_ne (by grind) ..) fun c hc => ?_
      exact Function.update_of_ne (by grind) ..

-- `y` takes the place of `x`.
theorem replace (h : Linked next prev s xs) (hx : x ∈ xs) (hy : y ∉ s :: xs) :
    ∃ b c, prev x = some b ∧ next x = some c ∧ b ∈ s :: xs.erase x ∧ c ∈ s :: xs.erase x ∧
      Linked (Function.update (Function.update next y (some c)) b (some y))
        (Function.update (Function.update prev y (some b)) c (some y)) s (xs.replace x y) := by
  obtain ⟨us, vs, rfl⟩ := List.append_of_mem hx
  have hd := h.nodup
  have ⟨h₁, hb, h₂⟩ := Chain.append_iff.mp h.chain
  have hbm : us.getLastD s ∈ s :: us := List.getLastD_mem_cons
  have ⟨c, hc, hcm, h₂⟩ := h₂.restart (y := y) (by grind) (by grind)
  rw [show (us ++ x :: vs).erase x = us ++ vs by grind,
    show (us ++ x :: vs).replace x y = us ++ y :: vs by grind]
  refine ⟨_, c, hb, hc, by grind, by grind, ⟨Chain.append_iff.mpr ⟨?_, ?_, ?_⟩, by grind⟩⟩
  · refine (h₁.retarget (by grind) y).frame (fun d hd => ?_) fun d hd => ?_
    · simp only [Function.update_apply]
      grind
    · simp only [Function.update_apply]
      grind
  · rw [Function.update_of_ne (by grind), Function.update_self]
  · refine h₂.frame (fun d hd => Function.update_of_ne (by grind) ..) fun d hd => ?_
    simp only [Function.update_apply]
    grind

end Linked

end Ring
