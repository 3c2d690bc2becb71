import Aiotc.Slab.Chunks
import Aiotc.Slab.Init
import Mathlib.Data.Nat.Log

-- `ncx_slab_alloc_locked` gives out a block that is not in use, and fails only when there is no
-- room.

open Tiling

namespace Slab

section Sizes

variable {n s shift minShift size : ℕ}

theorem countShift_eq (h : s < 2 ^ (n + 1)) : countShift n s shift = shift + Nat.log2 s := by
  induction n generalizing s shift
  case zero =>
    have : s < 2 := h
    rw [countShift, Nat.log2_def, if_neg (by omega), Nat.add_zero]
  case succ n hi =>
    rw [countShift, Nat.shiftRight_eq_div_pow, Nat.log2_def]
    by_cases hs : 2 ≤ s
    case neg => rw [if_pos (by omega), if_neg hs, Nat.add_zero]
    case pos =>
      rw [if_neg (by omega), if_pos hs, hi (by rw [Nat.pow_succ] at h; omega)]
      simp only [Nat.pow_one]
      omega

-- The smallest of the sizes of chunks that is enough.
theorem sizeShift_spec (hs : minShift < pagesizeShift) (h : size < maxSize) :
    minShift ≤ sizeShift minShift size ∧ sizeShift minShift size < pagesizeShift ∧
      size ≤ 2 ^ sizeShift minShift size ∧
      (minShift < sizeShift minShift size → 2 ^ (sizeShift minShift size - 1) < size) := by
  rw [sizeShift, Nat.shiftLeft_eq, Nat.one_mul]
  split
  case isFalse hle =>
    exact ⟨Nat.le_refl _, hs, Nat.le_of_not_lt hle, fun hc => absurd hc (Nat.lt_irrefl _)⟩
  case isTrue hlt =>
    have h₁ : size < 2048 := h
    have h₂ := Nat.two_pow_pos minShift
    have hne : size - 1 ≠ 0 := by omega
    rw [countShift_eq (by omega), Nat.add_comm]
    have hle := Nat.log2_self_le hne
    have hlt' := @Nat.lt_log2_self (size - 1)
    have hs' : minShift < (size - 1).log2 + 1 :=
      (Nat.pow_lt_pow_iff_right (by decide)).mp (Nat.lt_of_lt_of_le hlt (by omega))
    have hp : (size - 1).log2 < 11 :=
      (Nat.pow_lt_pow_iff_right (by decide)).mp
        (Nat.lt_of_le_of_lt hle (by omega : size - 1 < 2 ^ 11))
    simp only [pagesizeShift, Nat.add_sub_cancel]
    omega

-- The pages that a large block takes.
def sizePages (size : ℕ) : ℕ :=
  size >>> pagesizeShift + if size % pagesize ≠ 0 then 1 else 0

theorem sizePages_spec (h : maxSize ≤ size) :
    0 < sizePages size ∧ size ≤ sizePages size * pagesize ∧
      sizePages size * pagesize < size + pagesize := by
  have h : 2048 ≤ size := h
  have hd : size >>> pagesizeShift = size / pagesize := Nat.shiftRight_eq_div_pow ..
  have hp : pagesize = 4096 := rfl
  rw [sizePages, hd]
  split
  case isTrue hc =>
    rw [hp] at hc ⊢
    omega
  case isFalse hc =>
    rw [hp] at hc ⊢
    omega

-- The size of the block that is given out for `size` bytes.
def blockSize (minShift size : ℕ) : ℕ :=
  if maxSize ≤ size then sizePages size * pagesize else 2 ^ sizeShift minShift size

theorem le_blockSize (size : ℕ) (hs : minShift < pagesizeShift) :
    size ≤ blockSize minShift size := by
  rw [blockSize]
  split
  case isTrue h  => exact (sizePages_spec h).right.left
  case isFalse h => exact (sizeShift_spec hs (Nat.lt_of_not_le h)).right.right.left

end Sizes

namespace Book

variable {minShift realPages start a n k i shift : ℕ} {x y : Span} {l m b b' : Book}
  {used : Finset ℕ}

-- Whether there is room for a block.
def Room (minShift size : ℕ) (b : Book) : Prop :=
  if maxSize ≤ size then
    ∃ k n, (k, .free n) ∈ b ∧ sizePages size ≤ n
  else
    (∃ k n, (k, .free n) ∈ b) ∨ ∃ k used, (k, .chunks (sizeShift minShift size) used) ∈ b ∧
      used ≠ .range (chunkCount (sizeShift minShift size))

-- The bytes of the blocks that are in use.
def Owned (start : ℕ) (b : Book) (a : ℕ) : Prop :=
  ∃ c n, b.Live start c n ∧ c ≤ a ∧ a < c + n

theorem live_append : (l ++ m).Live start a n ↔ l.Live start a n ∨ m.Live start a n := by
  simp only [Live, List.mem_append]
  exact ⟨fun ⟨x, hx, h⟩ => hx.imp (⟨x, ·, h⟩) (⟨x, ·, h⟩),
    fun h => h.elim (fun ⟨x, hx, h⟩ => ⟨x, .inl hx, h⟩) fun ⟨x, hx, h⟩ => ⟨x, .inr hx, h⟩⟩

theorem live_cons :
    Live start ((k, x) :: b) a n ↔ x.Block (start + k * pagesize) a n ∨ b.Live start a n := by
  simp only [Live, List.mem_cons, exists_eq_or_imp]

theorem not_live_of_free (h : ∀ x ∈ b, x.2.isFree) : ¬b.Live start a n := by
  rintro ⟨⟨k, x⟩, hx, hb⟩
  have := h _ hx
  cases x <;> simp [Span.isFree] at this
  exact hb

-- What is in use on the pages of a span is a block of this span.
theorem Live.block (hb : b.Sound minShift realPages) (h : b.Live start a n) (hx : (k, x) ∈ b)
    {c : ℕ} (h₁ : a ≤ c) (h₂ : c < a + n) (h₃ : start + k * pagesize ≤ c)
    (h₄ : c < start + (k + x.len) * pagesize) : x.Block (start + k * pagesize) a n := by
  have ⟨y, hy, hl, h₅, _, h₆⟩ := h.exists_covers hb
  have hd (j : ℕ) (h : start + j * pagesize ≤ c) : j ≤ (c - start) / pagesize :=
    (Nat.le_div_iff_mul_le (by decide)).mpr (by omega)
  have hd' (j : ℕ) (h : c < start + j * pagesize) : (c - start) / pagesize < j :=
    (Nat.div_lt_iff_lt_mul (by decide)).mpr (by omega)
  have he := hb.tiles.eq_of_covers hx hy (j := (c - start) / pagesize)
    ⟨hd k h₃, hd' _ h₄⟩ ⟨hd y.1 (by omega), hd' _ (by omega)⟩
  cases he
  exact hl

-- The book after a change of one span
theorem Sound.of_tiles (hb : Sound minShift realPages (l ++ (k, x) :: m))
    (ht : Tiles Span.len 0 (l ++ (k, y) :: m) realPages) (hy : y.Valid minShift)
    (hf : y.isFree = false) : Sound minShift realPages (l ++ (k, y) :: m) := by
  have ⟨h₁, h₂, _⟩ := merged_iff.mp hb.merged
  refine ⟨ht, fun z hz => ?_, merged_iff.mpr ⟨h₁, h₂, by simp [hf]⟩⟩
  simp only [List.mem_append, List.mem_cons] at hz
  rcases hz with hz | rfl | hz
  · exact hb.valid z (by simp [hz])
  · exact hy
  · exact hb.valid z (by simp [hz])

theorem Sound.leftover (hb : Sound minShift realPages (l ++ (k, .free i) :: m))
    (ht : Tiles Span.len 0 (l ++ ((k, y) :: Repr.leftover k n i) ++ m) realPages)
    (hy : y.Valid minShift) (hf : y.isFree = false) :
    Sound minShift realPages (l ++ ((k, y) :: Repr.leftover k n i) ++ m) := by
  have ⟨h₁, h₂, h₃⟩ := merged_iff.mp hb.merged
  refine ⟨ht, fun z hz => ?_, ?_⟩
  · simp only [Repr.leftover, List.mem_append, List.mem_cons] at hz
    rcases hz with (hz | rfl | hz) | hz
    · exact hb.valid z (by simp [hz])
    · exact hy
    · split at hz
      · cases List.mem_singleton.mp hz
        trivial
      · cases hz
    · exact hb.valid z (by simp [hz])
  · rw [List.append_assoc, List.cons_append]
    refine merged_iff.mpr ⟨h₁, ?_, by simp [hf]⟩
    rw [Repr.leftover]
    split
    · exact merged_iff (l := []) |>.mpr ⟨.nil, h₂, fun _ => ⟨by simp, (h₃ rfl).right⟩⟩
    · exact h₂

-- The bytes of a page's map belong to no block, nor do those of free pages.
theorem not_owned_of_chunks (hb : b.Sound minShift realPages) (hx : (k, .chunks shift used) ∈ b)
    {c : ℕ} (h₁ : start + k * pagesize ≤ c)
    (h₂ : c < start + k * pagesize + reserved shift * 2 ^ shift)
    (hs : reserved shift * 2 ^ shift ≤ pagesize) : ¬b.Owned start c := by
  rintro ⟨a, n, hl, h₃, h₄⟩
  have hl := hl.block hb hx h₃ h₄ h₁ (by rw [Span.len_chunks, Nat.add_mul]; omega)
  obtain ⟨j, _, hj, rfl, _⟩ := hl
  have := Nat.mul_le_mul_right (2 ^ shift) hj
  omega

theorem not_owned_of_free (hb : b.Sound minShift realPages) (hx : (k, .free i) ∈ b) {c : ℕ}
    (h₁ : start + k * pagesize ≤ c) (h₂ : c < start + (k + i) * pagesize) :
    ¬b.Owned start c := by
  rintro ⟨a, n, hl, h₃, h₄⟩
  exact hl.block hb hx h₃ h₄ h₁ h₂

theorem not_live_leftover : ¬Live start (Repr.leftover k n i) a n' := by
  refine not_live_of_free fun x hx => ?_
  rw [Repr.leftover] at hx
  split at hx
  · cases List.mem_singleton.mp hx
    rfl
  · cases hx

end Book

-- What no operation changes: the blocks of the book `b` least of all.
structure Steady (p p' : SlabPool) (b : Book) : Prop where
  minShift  : p'.minShift = p.minShift
  start     : p'.start = p.start
  stop      : p'.stop = p.stop
  realPages : p'.realPages = p.realPages
  mem       : ∀ a, b.Owned p.start a → p'.mem a = p.mem a

-- A block that was not in use is in use.
structure Gave (p p' : SlabPool) (v v' : View) (a n : ℕ) : Prop where
  inv    : Inv p' v'
  steady : Steady p p' v.book
  fresh  : ∀ i, ¬v.book.Live p.start a i
  live   : ∀ c i, v'.book.Live p.start c i ↔ v.book.Live p.start c i ∨ (c = a ∧ i = n)

theorem Gave.live_self {p p' : SlabPool} {v v' : View} {a n : ℕ} (h : Gave p p' v v' a n) :
    v'.book.Live p'.start a n := by
  rw [h.steady.start]
  exact (h.live a n).mpr (.inr ⟨rfl, rfl⟩)

namespace Inv

variable {p p' : SlabPool} {v : View} {lists : Ref → List Ref} {l m : Book} {a i k n shift : ℕ}
  {used : Finset ℕ}

theorem minShift_pos (h : Inv p v) : 3 ≤ p.minShift :=
  h.repr.shift.left

theorem gave_of_chunk (h : Inv p ⟨l ++ (k, .chunks shift used) :: m, lists⟩)
    (ht : Repr.Taken p l m k shift used a p') :
    ∃ v', Gave p p' ⟨l ++ (k, .chunks shift used) :: m, lists⟩ v' a (2 ^ shift) := by
  obtain ⟨i, hi, hu, rfl, hb, lists', hr⟩ := ht
  have hx : (k, .chunks shift used) ∈ l ++ (k, .chunks shift used) :: m := by simp
  obtain ⟨hs, hs', hsub, hres, j, hj, hj'⟩ := h.sound.valid _ hx
  have h₃ : 3 ≤ shift := Nat.le_trans h.minShift_pos hs
  have hri : reserved shift ≤ i := by
    by_contra hc
    exact hu (hres (Finset.mem_range.mpr (Nat.lt_of_not_le hc)))
  have hle := Repr.reserved_mul_le (p := p) (k := k) h₃ hs'
  refine ⟨_, ⟨hr, ?_⟩, ⟨hb.minShift, hb.start, hb.stop, hb.realPages, fun c hc => ?_⟩,
    fun n hn => ?_, fun c n => ?_⟩
  · rw [hb.minShift, hb.realPages]
    refine h.sound.of_tiles (hb.realPages ▸ hr.tiles) ⟨hs, hs', ?_, ?_, ?_⟩ rfl
    · exact Finset.insert_subset (Finset.mem_range.mpr hi) hsub
    · exact hres.trans (Finset.subset_insert ..)
    · exact ⟨i, Finset.mem_insert_self .., hri⟩
  · refine hb.mem c fun hm => ?_
    rw [addr_eq] at hm
    simp only [addr_eq, Nat.add_mul] at hle
    exact Book.not_owned_of_chunks h.sound hx hm.left hm.right (by omega) hc
  · have hc := chunk_le hs' hi
    have hp := Nat.two_pow_pos shift
    have hpos := (hn.bounds h.sound).right.left
    have ⟨q, hq, _, he, _⟩ := hn.block h.sound hx (Nat.le_refl _) (by omega)
      (by rw [addr_eq]; omega) (by rw [addr_eq, Span.len_chunks, Nat.add_mul]; omega)
    rw [addr_eq] at he
    have : i = q := Nat.eq_of_mul_eq_mul_right hp (by omega)
    exact hu (this ▸ hq)
  · simp only [Book.live_append, Book.live_cons, Span.Block, Finset.mem_insert, addr_eq]
    constructor
    · rintro (hl | ⟨q, rfl | hq, hqr, rfl, rfl⟩ | hl)
      · exact .inl (.inl hl)
      · exact .inr ⟨rfl, rfl⟩
      · exact .inl (.inr (.inl ⟨q, hq, hqr, rfl, rfl⟩))
      · exact .inl (.inr (.inr hl))
    · rintro ((hl | ⟨q, hq, hqr, rfl, rfl⟩ | hl) | ⟨rfl, rfl⟩)
      · exact .inl hl
      · exact .inr (.inl ⟨q, .inr hq, hqr, rfl, rfl⟩)
      · exact .inr (.inr hl)
      · exact .inr (.inl ⟨i, .inl rfl, hri, rfl, rfl⟩)

-- Free pages are used for something with one block.
theorem gave_of_free {y : Span} (h : Inv p ⟨l ++ (k, .free i) :: m, lists⟩)
    {lists' : Ref → List Ref}
    (hr : Repr p' ⟨l ++ ((k, y) :: Repr.leftover k n i) ++ m, lists'⟩) (hn : n ≤ i)
    (hy : y.Valid p.minShift) (hf : y.isFree = false)
    (hs : ∀ a, ¬(p.addr k ≤ a ∧ a < p.addr (k + n)) → p'.mem a = p.mem a)
    (hk : p'.minShift = p.minShift ∧ p'.start = p.start ∧ p'.stop = p.stop ∧
      p'.realPages = p.realPages) {s : ℕ}
    (hl : ∀ c s', y.Block (p.start + k * pagesize) c s' ↔ c = a ∧ s' = s)
    (ha : p.addr k ≤ a ∧ a < p.addr (k + n)) :
    Gave p p' ⟨l ++ (k, .free i) :: m, lists⟩
      ⟨l ++ ((k, y) :: Repr.leftover k n i) ++ m, lists'⟩ a s := by
  obtain ⟨h₁, h₂, h₃, h₄⟩ := hk
  have hx : (k, .free i) ∈ l ++ (k, .free i) :: m := by simp
  have hle := Nat.mul_le_mul_right pagesize (Nat.add_le_add_left hn k)
  simp only [addr_eq] at hs ha
  refine ⟨⟨hr, ?_⟩, ⟨h₁, h₂, h₃, h₄, fun c hc => hs c fun hm => ?_⟩, fun q hq => ?_, fun c q => ?_⟩
  · rw [h₁, h₄]
    exact h.sound.leftover (h₄ ▸ hr.tiles) hy hf
  · exact Book.not_owned_of_free h.sound hx hm.left (by omega) hc
  · have hpos := (hq.bounds h.sound).right.left
    exact hq.block h.sound hx (Nat.le_refl _) (by omega) ha.left (by simp only [Span.len]; omega)
  · simp only [List.append_assoc, List.cons_append, Book.live_append, Book.live_cons, hl,
      Book.not_live_leftover, false_or]
    have : ¬(Span.free i).Block (p.start + k * pagesize) c q := id
    rw [iff_false_intro this, false_or, or_assoc, or_comm (a := c = a ∧ q = s)]

-- The list of a slot starts with a page that has a chunk to give out, or there is no such page.
theorem slot_cases (h : Repr p v) (hs : p.minShift ≤ shift) (hs' : shift < pagesizeShift) :
    (v.lists (.slot (shift - p.minShift)) = [] ∧
      (p.cells (.slot (shift - p.minShift))).next = some (.slot (shift - p.minShift)) ∧
      ∀ k used, (k, .chunks shift used) ∈ v.book → used = .range (chunkCount shift)) ∨
    ∃ k used, (k, .chunks shift used) ∈ v.book ∧ used ≠ .range (chunkCount shift) ∧
      (p.cells (.slot (shift - p.minShift))).next = some (.page k) ∧
      (p.cells (.page k)).next ≠ some (.page k) := by
  have hsent : Sentinel p.minShift (.slot (shift - p.minShift)) := by
    simp only [Sentinel]
    omega
  have hl := h.lists _ hsent
  cases he : v.lists (.slot (shift - p.minShift))
  case nil =>
    rw [he] at hl
    refine .inl ⟨rfl, Ring.Linked.nil_iff.mp hl, fun k used hx => ?_⟩
    by_contra hf
    have := h.mem_of_home hx (Repr.home_of_not_full hf)
    rw [he] at this
    cases this
  case cons r rs =>
    have hm : r ∈ v.lists (.slot (shift - p.minShift)) := by simp [he]
    obtain ⟨⟨k, x⟩, hx, hk, hh⟩ := (h.mem _ r).mp hm
    subst hk
    rw [he] at hl
    obtain ⟨hr, -, hc⟩ := hl.chain
    obtain ⟨q, hq, hqm⟩ := hc.exists_next
    have hd := hl.nodup
    cases x
    case free  => cases hh
    case pages => cases hh
    case loose => cases hh
    case chunks shift' used =>
      obtain ⟨hs₁, _⟩ := h.records _ hx
      by_cases hf : used = .range (chunkCount shift')
      case pos => cases (Repr.home_of_full hf).symm.trans hh
      case neg =>
        have := (Repr.home_of_not_full hf).symm.trans hh
        have : shift' = shift := by
          simp only [Option.some.injEq, Ref.slot.injEq] at this
          omega
        subst this
        refine .inr ⟨k, used, hx, hf, hr, fun hc => ?_⟩
        have hqk : q = .page k := Option.some.inj (hq.symm.trans hc)
        subst hqk
        rcases hqm with hqm | hqm
        · cases hqm
        · exact (List.nodup_cons.mp (List.nodup_cons.mp hd).right).left hqm

theorem gave_of_pages (h : Inv p v) {k : ℕ} {c : Cells} (hv : v.book = l ++ (k, .free i) :: m)
    {lists : Ref → List Ref} (hn : n ≤ i) (hpos : 0 < n)
    (hr : Repr { p with cells := c } ⟨l ++ ((k, .pages n) :: Repr.leftover k n i) ++ m, lists⟩) :
    ∃ v', Gave p { p with cells := c } v v' (p.addr k) (n * pagesize) := by
  obtain ⟨b, ls⟩ := v
  cases hv
  refine ⟨_, h.gave_of_free (n := n) hr hn trivial rfl (fun _ _ => rfl) ⟨rfl, rfl, rfl, rfl⟩ ?_ ?_⟩
  · intro c s
    rw [addr_eq]
    rfl
  · have : 0 < n * pagesize := Nat.mul_pos hpos (by decide)
    simp only [addr_eq, Nat.add_mul]
    omega

theorem gave_of_newPage (h : Inv p v) {k : ℕ} {c : Cells} (hv : v.book = l ++ (k, .free i) :: m)
    {lists : Ref → List Ref} (hi : 1 ≤ i)
    (hr : Repr { p with cells := c } ⟨l ++ ((k, .pages 1) :: Repr.leftover k 1 i) ++ m, lists⟩)
    (hl : lists (.slot (shift - p.minShift)) = []) (hs : p.minShift ≤ shift)
    (hs' : shift < pagesizeShift) :
    ∃ a p' v', newPage shift (shift - p.minShift) k { p with cells := c } = (a, p') ∧
      Gave p p' v v' a (2 ^ shift) := by
  have h₃ : 3 ≤ shift := Nat.le_trans h.minShift_pos hs
  obtain ⟨b, ls⟩ := v
  cases hv
  rw [List.append_assoc, List.cons_append] at hr
  have ⟨p', hp, hb, _, hr'⟩ := hr.newPage_spec hl hs hs'
  rw [← List.cons_append, ← List.append_assoc] at hr'
  have hlt := reserved_lt h₃ hs'
  have hle := chunk_le hs' (Nat.lt_of_succ_lt hlt)
  have hpos := Nat.two_pow_pos shift
  have hle' := Repr.reserved_mul_le (p := p) (k := k) h₃ hs'
  refine ⟨_, p', _, hp, h.gave_of_free (n := 1) hr' hi ⟨hs, hs', ?_, ?_, ?_⟩ rfl (fun a ha => ?_)
    ⟨hb.minShift, hb.start, hb.stop, hb.realPages⟩ ?_ ?_⟩
  · intro j hj
    simp only [Finset.mem_range] at hj ⊢
    omega
  · intro j hj
    simp only [Finset.mem_range] at hj ⊢
    omega
  · exact ⟨reserved shift, Finset.mem_range.mpr (Nat.lt_succ_self _), Nat.le_refl _⟩
  · refine hb.mem a fun hm => ha ⟨hm.left, Nat.lt_of_lt_of_le hm.right hle'⟩
  · intro a s
    constructor
    · rintro ⟨j, hj, hj', rfl, rfl⟩
      have : j = reserved shift := by
        have := Finset.mem_range.mp hj
        omega
      rw [this, addr_eq]
      exact ⟨rfl, rfl⟩
    · rintro ⟨rfl, rfl⟩
      refine ⟨reserved shift, Finset.mem_range.mpr (Nat.lt_succ_self _), Nat.le_refl _, ?_, rfl⟩
      rw [addr_eq]
  · simp only [addr_eq, Nat.add_mul]
    omega

-- The outcome of an allocation, where `v` is the book before.
def AllocPost (p : SlabPool) (v : View) (size : ℕ) : Option ℕ → SlabPool → Prop
  | none, p'   => p' = p ∧ ¬v.book.Room p.minShift size
  | some a, p' => v.book.Room p.minShift size ∧ ∃ v', Gave p p' v v' a (blockSize p.minShift size)

theorem alloc_large (h : Inv p v) {size : ℕ} (hs : maxSize ≤ size) :
    ∃ res p', allocLocked size p = some (res, p') ∧ AllocPost p v size res p' := by
  have hpos := (sizePages_spec hs).left
  have ⟨res, p', hres, hpost⟩ := h.repr.allocPages_spec hpos
  refine ⟨res.map (SlabPool.addr · p'), p', ?_, ?_⟩
  · rw [sizePages] at hres
    simp only [allocLocked, if_pos hs, hres, bind, Option.bind_some]
    rfl
  · cases res
    case none =>
      obtain ⟨rfl, hno⟩ := hpost
      refine ⟨rfl, ?_⟩
      rw [Book.Room, if_pos hs]
      rintro ⟨k, n, hx, hn⟩
      exact absurd hn (Nat.not_le_of_gt (hno k n hx))
    case some k =>
      obtain ⟨l, m, i, lists, c, rfl, hv, hi, -, hr⟩ := hpost
      refine ⟨?_, ?_⟩
      · rw [Book.Room, if_pos hs, hv]
        exact ⟨k, i, by simp, hi⟩
      · rw [blockSize, if_pos hs]
        exact h.gave_of_pages hv hi hpos hr

-- A page of the slot has a chunk.
theorem alloc_chunk (h : Inv p v) {size k : ℕ} (hs : size < maxSize)
    (hx : (k, .chunks (sizeShift p.minShift size) used) ∈ v.book)
    (hf : used ≠ .range (chunkCount (sizeShift p.minShift size)))
    (hk : (p.cells (.slot (sizeShift p.minShift size - p.minShift))).next = some (.page k))
    (hkk : (p.cells (.page k)).next ≠ some (.page k)) :
    ∃ a p', allocLocked size p = some (some a, p') ∧ AllocPost p v size (some a) p' := by
  obtain ⟨b, lists⟩ := v
  have ⟨l, m, hb⟩ := List.append_of_mem hx
  cases hb
  have ⟨_, _, _, hw, _⟩ := h.repr.records _ hx
  have ⟨a, p', ht, hpost⟩ := h.repr.takeChunk_spec (h.sound.valid _ hx).right.right.left hf hw
  have ⟨v', hg⟩ := h.gave_of_chunk hpost
  refine ⟨a, p', ?_, ?_, v', ?_⟩
  · have ht : take (sizeShift p.minShift size) (p.cells (.page k)) k p = some (some (a, p')) := ht
    simp [allocLocked, Nat.not_le_of_gt hs, hk, hkk, scanSlot, ht]
  · rw [Book.Room, if_neg (Nat.not_le_of_gt hs)]
    exact .inr ⟨k, used, hx, hf⟩
  · rw [blockSize, if_neg (Nat.not_le_of_gt hs)]
    exact hg

-- No page of the slot has one.
theorem alloc_page (h : Inv p v) {size : ℕ} (hs : size < maxSize)
    (hl : v.lists (.slot (sizeShift p.minShift size - p.minShift)) = [])
    (hk : (p.cells (.slot (sizeShift p.minShift size - p.minShift))).next =
      some (.slot (sizeShift p.minShift size - p.minShift)))
    (hno : ∀ k used, (k, .chunks (sizeShift p.minShift size) used) ∈ v.book →
      used = .range (chunkCount (sizeShift p.minShift size))) :
    ∃ res p', allocLocked size p = some (res, p') ∧ AllocPost p v size res p' := by
  obtain ⟨hs₁, hs₂, _⟩ := sizeShift_spec h.repr.shift.right hs
  have hns := Nat.not_le_of_gt hs
  obtain ⟨res, q, hres, hpost⟩ := h.repr.allocPages_spec Nat.one_pos
  cases res
  case none =>
    obtain ⟨rfl, hfree⟩ := hpost
    refine ⟨none, q, by simp [allocLocked, hns, hk, hres], rfl, ?_⟩
    rw [Book.Room, if_neg hns]
    rintro (⟨k, n, hx⟩ | ⟨k, used, hx, hf⟩)
    · have := (h.repr.tiles.bounds hx).right.left
      have := hfree k n hx
      simp only [Span.len] at *
      omega
    · exact hf (hno k used hx)
  case some k =>
    obtain ⟨l, m, i, lists, c, rfl, hv, hi, hlists, hr⟩ := hpost
    obtain ⟨a, p', v', hp, hg⟩ := h.gave_of_newPage hv hi hr
      ((hlists _ (by simp)).trans hl) hs₁ hs₂
    refine ⟨some a, p', by simp [allocLocked, hns, hk, hres, hp], ?_, v', ?_⟩
    · rw [Book.Room, if_neg hns, hv]
      exact .inl ⟨k, i, by simp⟩
    · rw [blockSize, if_neg hns]
      exact hg

theorem alloc_spec (h : Inv p v) (size : ℕ) :
    ∃ res p', allocLocked size p = some (res, p') ∧ AllocPost p v size res p' := by
  by_cases hs : maxSize ≤ size
  case pos => exact h.alloc_large hs
  case neg =>
    have hs := Nat.lt_of_not_le hs
    have ⟨hs₁, hs₂, _⟩ := sizeShift_spec h.repr.shift.right hs
    rcases slot_cases h.repr hs₁ hs₂ with ⟨hl, hk, hno⟩ | ⟨k, used, hx, hf, hk, hkk⟩
    · exact h.alloc_page hs hl hk hno
    · have ⟨a, p', hp, hpost⟩ := h.alloc_chunk hs hx hf hk hkk
      exact ⟨some a, p', hp, hpost⟩

-- A request is served exactly if there is room.
theorem alloc_iff (h : Inv p v) (size : ℕ) :
    (∃ a p', allocLocked size p = some (some a, p')) ↔ v.book.Room p.minShift size := by
  have ⟨res, q, hres, hpost⟩ := h.alloc_spec size
  constructor
  · rintro ⟨a, p', hp⟩
    cases hres.symm.trans hp
    exact hpost.left
  · intro hr
    cases res
    case none   => exact absurd hr hpost.right
    case some a => exact ⟨a, q, hres⟩

-- A pool with a block of 100 bytes in use
theorem exists_busy : ∃ a p v, allocLocked 100 sixteenK = some (some a, p) ∧
    Gave sixteenK p (initView sixteenK.realPages) v a 128 := by
  have h := init_inv (fun _ => zeroPage) (fun _ => 0) enough_sixteenK (by decide)
  have hroom : (initView sixteenK.realPages).book.Room sixteenK.minShift 100 :=
    .inl ⟨0, _, List.mem_cons_self⟩
  obtain ⟨a, p, hp⟩ := (h.alloc_iff 100).mpr hroom
  obtain ⟨res, p', hp', hpost⟩ := h.alloc_spec 100
  cases hp.symm.trans hp'
  obtain ⟨-, v, hg⟩ := hpost
  exact ⟨a, p, v, hp, hg⟩

-- A second block is asked for.
theorem alloc_spec_sixteenK : ∃ a p v res p', allocLocked 100 sixteenK = some (some a, p) ∧
    v.book.Live p.start a 128 ∧ allocLocked 100 p = some (res, p') ∧
    AllocPost p v 100 res p' := by
  obtain ⟨a, p, v, hp, hg⟩ := exists_busy
  obtain ⟨res, p', hp', hpost⟩ := hg.inv.alloc_spec 100
  exact ⟨a, p, v, res, p', hp, hg.live_self, hp', hpost⟩

end Inv

end Slab
