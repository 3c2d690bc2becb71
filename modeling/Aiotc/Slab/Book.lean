import Aiotc.Library.Tiling
import Aiotc.Slab.Basic
import Mathlib.Data.Finset.Range
import Mathlib.Data.List.Chain

-- What the allocator is for: the pages of a pool are divided into spans, and the spans that are in
-- use are divided into blocks. The descriptors of `Slab.Basic` are one way to keep such a book.

open Tiling

namespace Slab

-- `loose` are pages whose descriptor is being changed.
inductive Span
  | free (n : ℕ)
  | pages (n : ℕ)
  | chunks (shift : ℕ) (used : Finset ℕ)
  | loose (n : ℕ)

def chunkCount (shift : ℕ) : ℕ :=
  2 ^ (pagesizeShift - shift)

-- The first chunks of a page that are never given out, since they hold the bitmap.
def reserved (shift : ℕ) : ℕ :=
  if shift < exactShift then mapChunks shift else 0

namespace Span

def len : Span → ℕ
  | free n | pages n | loose n => n
  | chunks _ _                 => 1

def isFree : Span → Bool
  | free _ => true
  | _      => false

-- A page for chunks that are as small as `minShift` allows has its bitmap, and has a chunk in use.
def Valid (minShift : ℕ) : Span → Prop
  | free _ | pages _  => True
  | loose _           => False
  | chunks shift used =>
    minShift ≤ shift ∧ shift < pagesizeShift ∧ used ⊆ .range (chunkCount shift) ∧
      .range (reserved shift) ⊆ used ∧ ∃ i ∈ used, reserved shift ≤ i

-- The blocks of `n` bytes at `a` that are in use, where the pages start at `base`.
def Block (base : ℕ) : Span → ℕ → ℕ → Prop
  | free _, _, _ | loose _, _, _ => False
  | pages m, a, n                => a = base ∧ n = m * pagesize
  | chunks shift used, a, n      => ∃ i ∈ used, reserved shift ≤ i ∧ a = base + i * 2 ^ shift ∧
      n = 2 ^ shift

end Span

abbrev Book :=
  List (ℕ × Span)

namespace Book

def Live (start : ℕ) (b : Book) (a n : ℕ) : Prop :=
  ∃ x ∈ b, x.2.Block (start + x.1 * pagesize) a n

-- No two spans of free pages lie side by side.
def Merged (b : Book) : Prop :=
  b.IsChain fun x y => ¬(x.2.isFree ∧ y.2.isFree)

structure Sound (minShift realPages : ℕ) (b : Book) : Prop where
  tiles  : Tiles Span.len 0 b realPages
  valid  : ∀ x ∈ b, x.2.Valid minShift
  merged : Merged b

end Book

section

variable {minShift realPages start shift base a n a' n' i : ℕ} {used : Finset ℕ} {s : Span}
  {x : ℕ × Span} {b : Book}

theorem chunkCount_mul (h : shift < pagesizeShift) : chunkCount shift * 2 ^ shift = pagesize := by
  simp only [pagesizeShift] at h
  rw [chunkCount, ← pow_add, pagesizeShift, Nat.sub_add_cancel (Nat.le_of_lt h), pagesize]
  rfl

-- A chunk lies in its page.
theorem chunk_le (h : shift < pagesizeShift) (hi : i < chunkCount shift) :
    i * 2 ^ shift + 2 ^ shift ≤ pagesize := by
  rw [← chunkCount_mul h, ← Nat.succ_mul]
  exact Nat.mul_le_mul_right _ hi

namespace Span

@[simp]
theorem len_chunks : (chunks shift used).len = 1 :=
  rfl

theorem Block.bounds (h : s.Block base a n) (hv : s.Valid minShift) (hp : 0 < s.len) :
    base ≤ a ∧ 0 < n ∧ a + n ≤ base + s.len * pagesize := by
  cases s
  case free  => cases h
  case loose => cases h
  case pages m =>
    obtain ⟨rfl, rfl⟩ := h
    exact ⟨Nat.le_refl _, Nat.mul_pos hp (by decide), Nat.le_refl _⟩
  case chunks shift used =>
    obtain ⟨i, hi, _, rfl, rfl⟩ := h
    have ⟨_, hs, hu, _⟩ := hv
    have := chunk_le hs (Finset.mem_range.mp (hu hi))
    have := Nat.two_pow_pos shift
    simp only [len_chunks, Nat.one_mul]
    omega

-- Two blocks of one span are the same, or have nothing in common.
theorem Block.apart (h : s.Block base a n) (h' : s.Block base a' n') :
    (a = a' ∧ n = n') ∨ a + n ≤ a' ∨ a' + n' ≤ a := by
  cases s
  case free  => cases h
  case loose => cases h
  case pages m =>
    obtain ⟨rfl, rfl⟩ := h
    obtain ⟨rfl, rfl⟩ := h'
    exact .inl ⟨rfl, rfl⟩
  case chunks shift used =>
    obtain ⟨i, _, _, rfl, rfl⟩ := h
    obtain ⟨j, _, _, rfl, rfl⟩ := h'
    have he (k : ℕ) : base + k * 2 ^ shift + 2 ^ shift = base + (k + 1) * 2 ^ shift := by
      rw [Nat.add_assoc, ← Nat.succ_mul]
    rw [he, he]
    rcases Nat.lt_trichotomy i j with hl | rfl | hl
    · exact .inr (.inl (Nat.add_le_add_left (Nat.mul_le_mul_right _ hl) _))
    · exact .inl ⟨rfl, rfl⟩
    · exact .inr (.inr (Nat.add_le_add_left (Nat.mul_le_mul_right _ hl) _))

end Span

namespace Book

theorem merged_iff {l m : Book} : Merged (l ++ x :: m) ↔ Merged l ∧ Merged m ∧
    (x.2.isFree → (∀ y ∈ l.getLast?, y.2.isFree = false) ∧
      ∀ y ∈ m.head?, y.2.isFree = false) := by
  simp only [Merged, List.isChain_append, List.isChain_cons, List.head?_cons, Option.mem_some_iff,
    forall_eq']
  cases x.2.isFree
  case false => simp
  case true  => simp; tauto

theorem Live.exists_covers (hb : Sound minShift realPages b) (h : Live start b a n) :
    ∃ x ∈ b, x.2.Block (start + x.1 * pagesize) a n ∧ start + x.1 * pagesize ≤ a ∧ 0 < n ∧
      a + n ≤ start + (x.1 + x.2.len) * pagesize := by
  have ⟨x, hx, hl⟩ := h
  have ⟨h₁, hp, h₂⟩ := hl.bounds (hb.valid x hx) (hb.tiles.bounds hx).right.left
  refine ⟨x, hx, hl, h₁, hp, ?_⟩
  rw [Nat.add_mul]
  omega

theorem Live.bounds (hb : Sound minShift realPages b) (h : Live start b a n) :
    start ≤ a ∧ 0 < n ∧ a + n ≤ start + realPages * pagesize := by
  have ⟨x, hx, _, h₁, hp, h₂⟩ := h.exists_covers hb
  have := Nat.mul_le_mul_right pagesize (hb.tiles.bounds hx).right.right
  omega

-- Blocks that are in use do not overlap.
theorem Live.apart (hb : Sound minShift realPages b) (h : Live start b a n)
    (h' : Live start b a' n') : (a = a' ∧ n = n') ∨ a + n ≤ a' ∨ a' + n' ≤ a := by
  have ⟨x, hx, hl, h₁, _, h₂⟩ := h.exists_covers hb
  have ⟨y, hy, hl', h₁', _, h₂'⟩ := h'.exists_covers hb
  have hq := hb.tiles.pairwise
  by_cases he : x = y
  case pos =>
    cases he
    exact hl.apart hl'
  case neg =>
    have hs : x.1 + x.2.len ≤ y.1 ∨ y.1 + y.2.len ≤ x.1 := by
      by_contra hc
      have := (hb.tiles.bounds hx).right.left
      have := (hb.tiles.bounds hy).right.left
      refine he (hb.tiles.eq_of_covers hx hy (j := max x.1 y.1) ?_ ?_) <;>
      · simp only [Covers]
        omega
    rcases hs with hs | hs
    · have := Nat.mul_le_mul_right pagesize hs
      omega
    · have := Nat.mul_le_mul_right pagesize hs
      omega

end Book

end

end Slab
