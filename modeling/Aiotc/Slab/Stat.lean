import Aiotc.Slab.Free
import Mathlib.Algebra.BigOperators.Group.List.Basic
import Mathlib.Data.Finset.Card

-- `ncx_slab_stat`: what it counts in the descriptors is what is in the book.

open Tiling

-- ncx_slab_stat_t
structure SlabStat where
  poolSize : ℕ := 0
  usedSize : ℕ := 0
  usedPct : ℕ := 0
  pages : ℕ := 0
  freePage : ℕ := 0
  pSmall : ℕ := 0
  pExact : ℕ := 0
  pBig : ℕ := 0
  pPage : ℕ := 0
  bSmall : ℕ := 0
  bExact : ℕ := 0
  bBig : ℕ := 0
  bPage : ℕ := 0
  maxFreePages : ℕ := 0

namespace SlabStat

-- The cases of the `switch`, each with the bytes or the pages that it found.
def small (n : ℕ) (s : SlabStat) : SlabStat :=
  { s with usedSize := s.usedSize + n, bSmall := s.bSmall + n, pSmall := s.pSmall + 1 }

def exact (n : ℕ) (s : SlabStat) : SlabStat :=
  { s with usedSize := s.usedSize + n, bExact := s.bExact + n, pExact := s.pExact + 1 }

def big (n : ℕ) (s : SlabStat) : SlabStat :=
  { s with usedSize := s.usedSize + n, bBig := s.bBig + n, pBig := s.pBig + 1 }

def page (n : ℕ) (s : SlabStat) : SlabStat :=
  { s with
    usedSize := s.usedSize + n * Slab.pagesize
    bPage := s.bPage + n * Slab.pagesize
    pPage := s.pPage + n }

def free (n : ℕ) (s : SlabStat) : SlabStat :=
  { s with
    maxFreePages := if s.maxFreePages < n then n else s.maxFreePages
    freePage := s.freePage + n }

def usedPages (s : SlabStat) : ℕ :=
  s.pSmall + s.pExact + s.pBig + s.pPage

def bytes (s : SlabStat) : ℕ :=
  s.bSmall + s.bExact + s.bBig + s.bPage

end SlabStat

namespace Slab

-- How many of the `n` bits from `o` on are set.
def countBits (w : BitVec 64) (o n : ℕ) : ℕ :=
  (List.range n).countP fun i => w.getLsbD (o + i)

-- The page at `k`, and how far it is to the next one that is looked at.
def statPage (k : ℕ) (p : SlabPool) (s : SlabStat) : SlabStat × ℕ :=
  let page := p.cells (.page k)
  let slab := page.slab
  match page.prev.type with
  | .small =>
    let map := 1 <<< (pagesizeShift - slab.toNat) / 64
    let n := ((List.range map).map fun j => countBits (p.mem (p.addr k + 8 * j)) 0 64).sum
    (s.small (n * 1 <<< slab.toNat), 1)
  | .exact =>
    (s.exact (if slab = busyMap then 64 * exactSize else countBits slab 0 64 * exactSize), 1)
  | .big =>
    let mask := bigMask slab
    let n := ((List.range (64 - mapShift)).takeWhile fun i => mask.getLsbD (mapShift + i)).countP
      fun i => slab.getLsbD (mapShift + i)
    (s.big (n * 1 <<< (slab &&& shiftMask).toNat), 1)
  | .page =>
    if page.prev = ⟨none, .page⟩ then
      let n := (slab &&& ~~~startBit).toNat
      (s.page n, n)
    else
      (s.free slab.toNat, slab.toNat)

-- for (i = 0; i < statt->pages; i++), for at most so many steps
def statLoop (p : SlabPool) : ℕ → ℕ → SlabStat → Option SlabStat
  | 0, i, s     => if i < s.pages then none else some s
  | n + 1, i, s =>
    if i < s.pages then
      let (s, step) := statPage i p s
      statLoop p n (i + step) s
    else
      some s

def stat (p : SlabPool) : Option SlabStat := do
  let pages := (p.stop - p.start) / pagesize
  let s ← statLoop p pages 0 { pages := pages }
  let poolSize := p.stop - p.start
  return { s with poolSize := poolSize, usedPct := s.usedSize * 100 / poolSize }

-- What a span adds to the numbers.
def Span.tally (s : SlabStat) : Span → SlabStat
  | free n            => s.free n
  | pages n           => s.page n
  | loose _           => s
  | chunks shift used =>
    if shift < exactShift then s.small (used.card * 2 ^ shift)
    else if shift = exactShift then s.exact (used.card * 2 ^ shift)
    else s.big (used.card * 2 ^ shift)

def Book.tally (b : Book) (s : SlabStat) : SlabStat :=
  b.foldl (fun s x => x.2.tally s) s

section

variable {p : SlabPool} {v : View} {k n o shift : ℕ} {used : Finset ℕ} {w : BitVec 64} {x : Span}
  {s : SlabStat} {b : Book}

theorem countP_range {f : ℕ → Bool} (h : ∀ i < n, f i = decide (i ∈ used)) (hu : used ⊆ .range n) :
    (List.range n).countP f = used.card := by
  have hl : used = ((List.range n).filter f).toFinset := by
    ext i
    simp only [List.mem_toFinset, List.mem_filter, List.mem_range]
    constructor
    · intro hi
      have hn := Finset.mem_range.mp (hu hi)
      exact ⟨hn, by simp [h i hn, hi]⟩
    · rintro ⟨hn, hf⟩
      simpa [h i hn] using hf
  rw [List.countP_eq_length_filter, hl, List.toFinset_card_of_nodup]
  exact List.nodup_range.filter _

-- The bits of several words
theorem sum_countP {f : ℕ → Bool} (m : ℕ) :
    ((List.range m).map fun j => (List.range 64).countP fun i => f (j * 64 + i)).sum =
      (List.range (m * 64)).countP f := by
  induction m
  case zero => simp
  case succ m hi =>
    rw [List.range_succ (n := m), List.map_append, List.sum_append, hi, Nat.succ_mul,
      List.range_add, List.countP_append, List.countP_map]
    simp only [List.map_cons, List.map_nil, List.sum_singleton]
    rfl

theorem takeWhile_range {f : ℕ → Bool} {m : ℕ} (hm : m ≤ n) (hf : ∀ i < n, f i = decide (i < m)) :
    (List.range n).takeWhile f = List.range m := by
  rw [show n = m + (n - m) by omega, List.range_add, List.takeWhile_append_of_pos]
  · cases he : n - m
    case zero => simp
    case succ j =>
      have : f m = false := by rw [hf m (by omega)]; simp
      simp [List.range_succ_eq_map, this]
  · intro i hi
    have hi := List.mem_range.mp hi
    rw [hf i (by omega)]
    exact decide_eq_true hi

theorem statPage_chunks (hm : 3 ≤ shift) (hr : (Span.chunks shift used).Records p k)
    (hu : used ⊆ .range (chunkCount shift)) :
    statPage k p s = ((Span.chunks shift used).tally s, 1) := by
  have ⟨_, hs', hty, hw, hb⟩ := hr
  have hty : (p.cells (.page k)).prev.type = slabType shift := hty
  rcases Nat.lt_trichotomy shift exactShift with hs | rfl | hs
  case inl =>
    have hslab : (p.cells (.page k)).slab.toNat = shift := by
      have hw : (p.cells (.page k)).slab = .ofNat 64 shift := by rwa [ShiftIs, if_pos hs] at hw
      simp only [pagesizeShift] at hs'
      rw [hw, Repr.toNat_ofNat (by omega)]
    rw [mapWidth_of_small hs] at hb
    have hbits (j : ℕ) (hj : j ∈ List.range (mapWords shift)) :
        countBits (p.mem (p.addr k + 8 * j)) 0 64 =
          (List.range 64).countP fun i => decide (j * 64 + i ∈ used) := by
      have hj := List.mem_range.mp hj
      refine List.countP_congr fun i hi => ?_
      have hi := List.mem_range.mp hi
      rw [Nat.zero_add, ← Repr.mapBit_of_small hs hi, hb _ (by omega)]
    have hsum : ((List.range (mapWords shift)).map fun j =>
        countBits (p.mem (p.addr k + 8 * j)) 0 64).sum = used.card := by
      rw [List.map_congr_left hbits, ← countP_range (fun _ _ => rfl) hu, ← mapWords_mul hs]
      exact sum_countP (f := fun i => decide (i ∈ used)) _
    simp only [statPage, hty, slabType, if_pos hs, hslab, Span.tally]
    rw [← mapWords, hsum, Nat.shiftLeft_eq, Nat.one_mul]
  case inr.inl =>
    have hbits : ∀ i < 64, (p.cells (.page k)).slab.getLsbD (0 + i) = decide (i ∈ used) := by
      intro i hi
      have := hb i hi
      rwa [mapAt_exact.bit] at this
    have hcount : countBits (p.cells (.page k)).slab 0 64 = used.card := countP_range hbits hu
    have hfull : (p.cells (.page k)).slab = busyMap → 64 = used.card := by
      intro hc
      have hm := (mapAt_exact.full_iff hbits hu).mp (by rw [hc]; decide)
      rw [hm, Finset.card_range]
      rfl
    have hsize : exactSize = 2 ^ exactShift := rfl
    simp only [statPage, hty, slabType, if_neg (Nat.lt_irrefl _), if_true, Span.tally, hcount,
      hsize]
    split
    case isFalse   => rfl
    case isTrue hc => rw [← hfull hc]
  case inr.inr =>
    have hn : ¬shift < exactShift := Nat.lt_asymm hs
    have hn' : shift ≠ exactShift := Nat.ne_of_gt hs
    have hm := mapAt_big hs hs' hw
    have hl := chunkCount_le_mapWidth shift
    have hwidth : mapWidth shift = 64 - mapShift := if_neg (Nat.not_le_of_gt hs)
    have hshift : ((p.cells (.page k)).slab &&& shiftMask).toNat = shift := by
      rw [ShiftIs, if_neg hn, if_neg hn'] at hw
      simp only [pagesizeShift] at hs'
      simp only [slabOf] at hw
      rw [hw, Repr.toNat_ofNat (by omega)]
    rw [hwidth] at hb hl
    have htake : (List.range (64 - mapShift)).takeWhile
        (fun i => (bigMask (p.cells (.page k)).slab).getLsbD (mapShift + i)) =
          List.range (chunkCount shift) := by
      refine takeWhile_range hl fun i hi => ?_
      have := hm.chunks (mapShift + i) (by omega)
      rw [slabOf] at this
      rw [this]
      simp
    have hcount : (List.range (chunkCount shift)).countP
        (fun i => (p.cells (.page k)).slab.getLsbD (mapShift + i)) = used.card := by
      refine countP_range (fun i hi => ?_) hu
      have := hb i (by omega)
      rwa [hm.bit] at this
    simp only [statPage, hty, slabType, if_neg hn, if_neg hn', htake, hcount, hshift, Span.tally,
      Nat.shiftLeft_eq, Nat.one_mul]

-- What is counted for a span, which is then passed over.
theorem statPage_spec (h : Inv p v) (hx : (k, x) ∈ v.book) :
    statPage k p s = (x.tally s, x.len) := by
  have hr := h.repr.records _ hx
  have hv := h.sound.valid _ hx
  have hb := (h.repr.tiles.bounds hx).right
  have hpages := h.repr.pages
  cases x
  case loose => cases hv
  case chunks shift used =>
    exact statPage_chunks (Nat.le_trans h.minShift_pos hv.left) hr hv.right.right.left
  case free n =>
    have ⟨a, _, ha, _⟩ := h.repr.exists_links (h.repr.mem_of_home hx rfl)
    have hty : (p.cells (.page k)).prev.type = .page := hr.right.left
    have hprev : (p.cells (.page k)).prev ≠ ⟨none, .page⟩ := by
      intro hc
      simp only [prevOf, hc] at ha
      cases ha
    have hn : (p.cells (.page k)).slab.toNat = n := h.repr.toNat_slabOf_free hx
    simp only [statPage, hty, if_neg hprev, hn]
    rfl
  case pages n =>
    simp only [Span.len] at hb
    have hty : (p.cells (.page k)).prev.type = .page := hr.right.left
    have hlone := h.repr.lone k (by omega) (fun s => h.repr.not_mem_of_home hx rfl) fun i hi => by
      cases h.repr.tiles.eq_of_start hx hi rfl
    have hprev : (p.cells (.page k)).prev = ⟨none, .page⟩ := by
      have hp : (p.cells (.page k)).prev.ref = none := hlone.right
      rw [← hty, ← hp]
    have hn := (Inv.run_slab hb.left (by omega) (.inr hr.left)).right.right
    simp only [slabOf] at hn
    simp only [statPage, hprev, if_true, hn]
    rfl

@[simp]
theorem pages_tally : (x.tally s).pages = s.pages := by
  cases x
  case chunks shift used =>
    simp only [Span.tally]
    split
    · rfl
    · split <;> rfl
  all_goals rfl

theorem statLoop_eq (h : Inv p v) (hb : ∀ x ∈ b, x ∈ v.book)
    (ht : Tiles Span.len o b s.pages) (hn : s.pages ≤ o + n) :
    statLoop p n o s = some (b.tally s) := by
  induction b generalizing o n s
  case nil =>
    have ho : o = s.pages := ht
    cases n <;> simp [statLoop, ho, Book.tally]
  case cons x b hi =>
    obtain ⟨k, x⟩ := x
    obtain ⟨rfl, hpos, ht⟩ := ht
    have hle := ht.le
    cases n
    case zero => omega
    case succ n =>
      rw [statLoop, if_pos (by simp only at *; omega), statPage_spec h (hb (k, x) (by simp))]
      refine (hi (fun y hy => hb y (List.mem_cons_of_mem _ hy)) ?_ ?_).trans rfl
      · rwa [pages_tally]
      · rw [pages_tally]
        simp only at *
        omega

-- A number that each span adds to
theorem tally_add {f : SlabStat → ℕ} {g : Span → ℕ} (h : ∀ s x, f (x.tally s) = f s + g x) :
    f (b.tally s) = f s + (b.map fun x => g x.2).sum := by
  induction b generalizing s
  case nil         => rfl
  case cons x b hi =>
    rw [Book.tally, List.foldl_cons, ← Book.tally, hi, h, List.map_cons, List.sum_cons,
      Nat.add_assoc]

-- The pages in use, and the bytes that are counted for them
def Span.usedPages : Span → ℕ
  | pages n   => n
  | chunks .. => 1
  | _         => 0

def Span.freePages : Span → ℕ
  | free n => n
  | _      => 0

def Span.bytes : Span → ℕ
  | pages n           => n * pagesize
  | chunks shift used => used.card * 2 ^ shift
  | _                 => 0

theorem usedPages_tally (s : SlabStat) (x : Span) :
    (x.tally s).usedPages = s.usedPages + x.usedPages := by
  simp only [SlabStat.usedPages]
  cases x
  case chunks shift used =>
    simp only [Span.tally]
    split
    · simp only [SlabStat.small, Span.usedPages]
      omega
    · split
      · simp only [SlabStat.exact, Span.usedPages]
        omega
      · simp only [SlabStat.big, Span.usedPages]
        omega
  case pages n =>
    simp only [Span.tally, SlabStat.page, Span.usedPages]
    omega
  all_goals rfl

theorem freePage_tally (s : SlabStat) (x : Span) :
    (x.tally s).freePage = s.freePage + x.freePages := by
  cases x
  case chunks shift used =>
    simp only [Span.tally]
    split
    · rfl
    · split <;> rfl
  all_goals rfl

theorem usedSize_tally (s : SlabStat) (x : Span) :
    (x.tally s).usedSize = s.usedSize + x.bytes := by
  cases x
  case chunks shift used =>
    simp only [Span.tally]
    split
    · rfl
    · split <;> rfl
  all_goals rfl

theorem bytes_tally (s : SlabStat) (x : Span) : (x.tally s).bytes = s.bytes + x.bytes := by
  simp only [SlabStat.bytes]
  cases x
  case chunks shift used =>
    simp only [Span.tally]
    split
    · simp only [SlabStat.small, Span.bytes]
      omega
    · split
      · simp only [SlabStat.exact, Span.bytes]
        omega
      · simp only [SlabStat.big, Span.bytes]
        omega
  case pages n =>
    simp only [Span.tally, SlabStat.page, Span.bytes]
    omega
  all_goals rfl

theorem maxFreePages_tally : n ≤ (b.tally s).maxFreePages ↔
    n ≤ s.maxFreePages ∨ ∃ k m, (k, .free m) ∈ b ∧ n ≤ m := by
  induction b generalizing s
  case nil => simp [Book.tally]
  case cons y b hi =>
    obtain ⟨k, y⟩ := y
    rw [Book.tally, List.foldl_cons, ← Book.tally, hi]
    cases y
    case free m =>
      simp only [Span.tally, SlabStat.free, List.mem_cons, Prod.mk.injEq, Span.free.injEq]
      constructor
      · rintro (h | ⟨j, i, hj, h⟩)
        · split at h
          · exact .inr ⟨k, m, .inl ⟨rfl, rfl⟩, h⟩
          · exact .inl h
        · exact .inr ⟨j, i, .inr hj, h⟩
      · rintro (h | ⟨j, i, ⟨rfl, rfl⟩ | hj, h⟩)
        · refine .inl ?_
          split <;> omega
        · refine .inl ?_
          split <;> omega
        · exact .inr ⟨j, i, hj, h⟩
    case chunks shift used =>
      have : ((Span.chunks shift used).tally s).maxFreePages = s.maxFreePages := by
        simp only [Span.tally]
        split
        · rfl
        · split <;> rfl
      simp [this]
    case pages => simp [Span.tally, SlabStat.page]
    case loose => simp [Span.tally]

-- All pages are those of some span.
theorem sum_pages {o e : ℕ} (ht : Tiles Span.len o b e) (hv : ∀ x ∈ b, x.2.Valid p.minShift) :
    o + ((b.map fun x => x.2.usedPages).sum + (b.map fun x => x.2.freePages).sum) = e := by
  induction b generalizing o
  case nil => exact ht
  case cons y b hi =>
    obtain ⟨_, _, ht⟩ := ht
    have hlen : y.2.len = y.2.usedPages + y.2.freePages := by
      have hv := hv y List.mem_cons_self
      generalize y.2 = x at hv
      cases x
      case loose => cases hv
      case free  => exact (Nat.zero_add _).symm
      all_goals rfl
    have := hi ht fun x hx => hv x (List.mem_cons_of_mem _ hx)
    simp only [List.map_cons, List.sum_cons]
    omega

theorem sum_bytes {o e : ℕ} (ht : Tiles Span.len o b e) (hv : ∀ x ∈ b, x.2.Valid p.minShift) :
    (b.map fun x => x.2.bytes).sum ≤ (b.map fun x => x.2.usedPages).sum * pagesize := by
  induction b generalizing o
  case nil => exact Nat.zero_le _
  case cons y b hi =>
    obtain ⟨_, _, ht⟩ := ht
    have hle : y.2.bytes ≤ y.2.usedPages * pagesize := by
      have hv := hv y List.mem_cons_self
      generalize y.2 = x at hv
      cases x
      case loose => cases hv
      case free  => exact Nat.zero_le _
      case pages => exact Nat.le_refl _
      case chunks shift used =>
        obtain ⟨_, hs, hu, _⟩ := hv
        have hc := Finset.card_le_card hu
        rw [Finset.card_range] at hc
        simp only [Span.bytes, Span.usedPages, Nat.one_mul]
        rw [← chunkCount_mul hs]
        exact Nat.mul_le_mul_right _ hc
    have := hi ht fun x hx => hv x (List.mem_cons_of_mem _ hx)
    simp only [List.map_cons, List.sum_cons, Nat.add_mul]
    omega

theorem sum_eq_zero_iff {g : Span → ℕ} :
    (b.map fun x => g x.2).sum = 0 ↔ ∀ x ∈ b, g x.2 = 0 := by
  induction b
  case nil          => simp
  case cons y b hi => simp [hi]

theorem sum_usedPages (h : Inv p v) :
    (v.book.map fun x => x.2.usedPages).sum = 0 ↔ ∀ a n, ¬v.book.Live p.start a n := by
  rw [sum_eq_zero_iff]
  constructor
  · rintro hz a n ⟨⟨k, x⟩, hx, hl⟩
    have hz := hz _ hx
    have hpos := (h.repr.tiles.bounds hx).right.left
    cases x
    case free   => exact hl
    case loose  => exact hl
    case pages  => exact absurd hz (Nat.ne_of_gt hpos)
    case chunks => cases hz
  · rintro he ⟨k, x⟩ hx
    have hv := h.sound.valid _ hx
    cases x
    case free    => rfl
    case loose   => rfl
    case pages n => exact absurd ⟨_, hx, rfl, rfl⟩ (he _ _)
    case chunks shift used =>
      have ⟨_, _, _, _, i, hi, hr⟩ := hv
      exact absurd ⟨_, hx, i, hi, hr, rfl, rfl⟩ (he _ _)

-- The numbers add up. All pages are free only when nothing is in use, and the longest run of free
-- pages tells which large blocks can be had.
theorem stat_spec (h : Inv p v) (hp : (p.stop - p.start) / pagesize = p.realPages) :
    ∃ s, stat p = some s ∧ s.pages = p.realPages ∧
      s.usedPages + s.freePage = s.pages ∧ s.usedSize = s.bytes ∧
      s.usedSize + s.freePage * pagesize ≤ s.poolSize ∧
      (s.freePage = s.pages ↔ ∀ a n, ¬v.book.Live p.start a n) ∧
      ∀ size, maxSize ≤ size →
        ((∃ a p', allocLocked size p = some (some a, p')) ↔ sizePages size ≤ s.maxFreePages) := by
  have ⟨s, hs⟩ : ∃ s : SlabStat, s = v.book.tally { pages := p.realPages } := ⟨_, rfl⟩
  have hloop := statLoop_eq (s := { pages := p.realPages }) (n := p.realPages) h (fun _ hx => hx)
    h.repr.tiles (Nat.le_add_left ..)
  rw [← hs] at hloop
  have hpages : s.pages = p.realPages := by
    rw [hs]
    exact (tally_add (f := SlabStat.pages) (g := fun _ => 0) fun _ _ => pages_tally).trans (by simp)
  have hused : s.usedPages = _ := hs ▸ (tally_add usedPages_tally).trans (Nat.zero_add _)
  have hfree : s.freePage = _ := hs ▸ (tally_add freePage_tally).trans (Nat.zero_add _)
  have hsize : s.usedSize = _ := hs ▸ (tally_add usedSize_tally).trans (Nat.zero_add _)
  have hbytes : s.bytes = _ := hs ▸ (tally_add bytes_tally).trans (Nat.zero_add _)
  have hsum := sum_pages h.repr.tiles h.sound.valid
  have hle := sum_bytes h.repr.tiles h.sound.valid
  rw [← hused, ← hfree, Nat.zero_add] at hsum
  rw [← hused, ← hsize] at hle
  have hstat : stat p = some { s with
      poolSize := p.stop - p.start
      usedPct := s.usedSize * 100 / (p.stop - p.start) } := by
    simp only [stat, hp, hloop]
    rfl
  refine ⟨_, hstat, hpages, hsum.trans hpages.symm, hsize.trans hbytes.symm, ?_, ?_,
    fun size hl => ?_⟩
  · have := h.repr.stop
    have hmul := congrArg (· * pagesize) hsum
    simp only [Nat.add_mul] at hmul ⊢
    omega
  · rw [← sum_usedPages h, ← hused]
    simp only [hpages]
    omega
  · rw [h.alloc_iff, Book.Room, if_pos hl, hs, maxFreePages_tally]
    have := (sizePages_spec hl).left
    refine ⟨fun hr => .inr hr, fun hr => hr.resolve_left ?_⟩
    simp only
    omega

end

-- With a block in use not all pages are free.
theorem stat_spec_sixteenK : ∃ a p s, allocLocked 100 sixteenK = some (some a, p) ∧
    stat p = some s ∧ s.usedPages + s.freePage = s.pages ∧ s.freePage ≠ s.pages := by
  obtain ⟨a, p, v, hp, hg⟩ := Inv.exists_busy
  have hpages : (p.stop - p.start) / pagesize = p.realPages := by
    rw [hg.steady.stop, hg.steady.start, hg.steady.realPages]
    decide
  obtain ⟨s, hs, -, hsum, -, -, hf, -⟩ := stat_spec hg.inv hpages
  exact ⟨a, p, s, hp, hs, hsum, fun he => hf.mp he a 128 hg.live_self⟩

end Slab
