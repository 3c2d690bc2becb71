import Mathlib.Data.List.Nodup
import Mathlib.Data.Set.Basic
import Mathlib.Logic.Function.Basic

-- A memory of which blocks are given out and taken back. `none` is a block that is not in use.

abbrev Blocks (κ β : Type*) :=
  κ → Option β

namespace Blocks

variable {κ β : Type*}

def allocated (m : Blocks κ β) : Set κ :=
  { k | m k ≠ none }

-- `m'` has exactly the blocks `ks` in addition to those of `m`.
structure Gains (ks : List (κ × β)) (m m' : Blocks κ β) : Prop where
  nodup : (ks.map Prod.fst).Nodup
  fresh : ∀ x ∈ ks, m x.1 = none
  held  : ∀ x ∈ ks, m' x.1 = some x.2
  frame : ∀ k, k ∉ ks.map Prod.fst → m' k = m k

namespace Gains

variable {m m' : Blocks κ β} {ks : List (κ × β)} {x : κ × β}

theorem nil (m : Blocks κ β) : Gains [] m m :=
  ⟨.nil, by simp, by simp, fun _ _ => rfl⟩

theorem trans {m'' : Blocks κ β} {ls : List (κ × β)} (h : Gains ks m m') (h' : Gains ls m' m'') :
    Gains (ls ++ ks) m m'' := by
  -- What was gained before is in use, and so it is not gained again.
  have hn : ∀ x ∈ ks, x.1 ∉ ls.map Prod.fst := by
    intro x hx hc
    have ⟨y, hy, he⟩ := List.mem_map.mp hc
    have hh := h.held x hx
    rw [← he, h'.fresh y hy] at hh
    cases hh
  constructor
  case nodup =>
    rw [List.map_append, List.nodup_append]
    refine ⟨h'.nodup, h.nodup, fun a ha b hb he => ?_⟩
    have ⟨x, hx, hb⟩ := List.mem_map.mp hb
    exact hn x hx (hb.symm ▸ he ▸ ha)
  case fresh =>
    intro x hx
    rcases List.mem_append.mp hx with hx | hx
    · by_contra hc
      by_cases hk : x.1 ∈ ks.map Prod.fst
      · have ⟨y, hy, he⟩ := List.mem_map.mp hk
        exact hn y hy (he ▸ List.mem_map_of_mem hx)
      · exact hc ((h.frame x.1 hk).symm.trans (h'.fresh x hx))
    · exact h.fresh x hx
  case held =>
    intro x hx
    rcases List.mem_append.mp hx with hx | hx
    · exact h'.held x hx
    · rw [h'.frame x.1 (hn x hx), h.held x hx]
  case frame =>
    intro k hk
    rw [List.map_append, List.mem_append, not_or] at hk
    rw [h'.frame k hk.left, h.frame k hk.right]

theorem allocated_ne (h : Gains (x :: ks) m m') : allocated m' ≠ allocated m := by
  intro hc
  have hx : x.1 ∈ allocated m' := by simp [allocated, h.held x List.mem_cons_self]
  rw [hc] at hx
  exact hx (h.fresh x List.mem_cons_self)

end Gains

variable [DecidableEq κ]

-- `p` is the outcome of the allocation, and `b` what its caller puts into the block. There is no
-- result for an outcome that is in use.
def malloc (p : Option κ) (b : β) (m : Blocks κ β) : Option (Blocks κ β) :=
  match p with
  | none   => some m
  | some k => if m k = none then some (Function.update m k (some b)) else none

def free (k : κ) (m : Blocks κ β) : Blocks κ β :=
  Function.update m k none

def freeAll (ks : List κ) (m : Blocks κ β) : Blocks κ β :=
  ks.foldl (fun m k => free k m) m

section

variable {m m' m'' : Blocks κ β} {k : κ} {b : β} {ks : List (κ × β)}

theorem malloc_some_iff :
    malloc (some k) b m = some m' ↔ m k = none ∧ Function.update m k (some b) = m' := by
  simp [malloc]

theorem exists_malloc {p : Option κ} (b : β) (h : ∀ k ∈ p, m k = none) :
    ∃ m', malloc p b m = some m' := by
  cases p
  case none   => exact ⟨m, rfl⟩
  case some k => exact ⟨_, malloc_some_iff.mpr ⟨h k rfl, rfl⟩⟩

-- What was just allocated can be given back.
theorem free_malloc (h : malloc (some k) b m = some m') : free k m' = m := by
  have ⟨hk, he⟩ := malloc_some_iff.mp h
  rw [← he, free, Function.update_idem, ← hk, Function.update_eq_self]

theorem freeAll_apply (l : List κ) : freeAll l m k = if k ∈ l then none else m k := by
  induction l generalizing m
  case nil => rfl
  case cons j l hi =>
    rw [freeAll, List.foldl_cons, ← freeAll, hi]
    by_cases hk : k = j <;> simp [free, hk]

namespace Gains

theorem malloc (h : Gains ks m m') (hm : Blocks.malloc (some k) b m' = some m'') :
    Gains ((k, b) :: ks) m m'' := by
  have ⟨hk, he⟩ := malloc_some_iff.mp hm
  -- What was gained before is in use, and so it is not given out again.
  have hn : ∀ x ∈ ks, x.1 ≠ k := by
    intro x hx hc
    have hh := h.held x hx
    simp [hc, hk] at hh
  have hk' : k ∉ ks.map Prod.fst := by
    intro hc
    have ⟨x, hx, hc⟩ := List.mem_map.mp hc
    exact hn x hx hc
  constructor
  case nodup => exact List.nodup_cons.mpr ⟨hk', h.nodup⟩
  case fresh =>
    intro x hx
    cases List.mem_cons.mp hx
    case inl hx => rw [hx, ← h.frame k hk', hk]
    case inr hx => exact h.fresh x hx
  case held =>
    intro x hx
    cases List.mem_cons.mp hx
    case inl hx => simp [← he, hx]
    case inr hx => rw [← he, Function.update_of_ne (hn x hx), h.held x hx]
  case frame =>
    intro j hj
    have ⟨hjk, hj⟩ := not_or.mp (mt List.mem_cons.mpr hj)
    rw [← he, Function.update_of_ne hjk, h.frame j hj]

theorem free (ls : List (κ × β)) (h : Gains (ls ++ (k, b) :: ks) m m') :
    Gains (ls ++ ks) m (Blocks.free k m') := by
  have hd := h.nodup
  simp only [List.map_append, List.map_cons, List.nodup_middle, List.nodup_cons] at hd
  have hs : ∀ x ∈ ls ++ ks, x ∈ ls ++ (k, b) :: ks := by grind
  constructor
  case nodup => simpa using hd.right
  case fresh => exact fun x hx => h.fresh x (hs x hx)
  case held =>
    intro x hx
    have hm : x.1 ∈ (ls ++ ks).map Prod.fst := List.mem_map_of_mem hx
    have hn : x.1 ≠ k := fun hc => hd.left (by rwa [← hc, ← List.map_append])
    rw [Blocks.free, Function.update_of_ne hn, h.held x (hs x hx)]
  case frame =>
    intro j hj
    by_cases hk : j = k
    case pos => rw [Blocks.free, hk, Function.update_self, h.fresh (k, b) (by simp)]
    case neg =>
      rw [Blocks.free, Function.update_of_ne hk, h.frame j]
      simpa [hk] using hj

-- Giving back what was gained, in any order, leads back to where it was gained.
theorem freeAll (h : Gains ks m m') {l : List κ} (hl : ∀ k, k ∈ l ↔ k ∈ ks.map Prod.fst) :
    Blocks.freeAll l m' = m := by
  funext k
  rw [freeAll_apply]
  split
  case isTrue hk =>
    have ⟨x, hx, hk⟩ := List.mem_map.mp ((hl k).mp hk)
    rw [← hk, h.fresh x hx]
  case isFalse hk => exact h.frame k (mt (hl k).mpr hk)

end Gains

-- Of two allocations both, none or one of them may fail.
theorem malloc_malloc_cases {p q : Option κ} {c : β} (hp : malloc p b m = some m')
    (hq : malloc q c m' = some m'') :
    (∃ k j, p = some k ∧ q = some j ∧ Gains [(j, c), (k, b)] m m'') ∨
    (p = none ∧ q = none ∧ m'' = m) ∨
    ((p = none ↔ q.isSome) ∧ ∃ x, Gains [x] m m'') := by
  cases p <;> cases q
  case none.none =>
    cases hp
    cases hq
    exact .inr (.inl ⟨rfl, rfl, rfl⟩)
  case none.some j =>
    cases hp
    exact .inr (.inr ⟨by simp, _, (Gains.nil m).malloc hq⟩)
  case some.none k =>
    cases hq
    exact .inr (.inr ⟨by simp, _, (Gains.nil m).malloc hp⟩)
  case some.some k j => exact .inl ⟨k, j, rfl, rfl, ((Gains.nil m).malloc hp).malloc hq⟩

end

end Blocks
