import Aiotc.Library.Ring
import Aiotc.Slab.Bits
import Aiotc.Slab.Book

-- How the descriptors of a pool keep the book: `Records` is what they say about the pages, and the
-- free pages and the pages with chunks to give out are in the lists of `pool->free` and the slots.

open Tiling

namespace Slab

def nextOf (c : Cells) (r : Ref) : Option Ref :=
  (c r).next

def prevOf (c : Cells) (r : Ref) : Option Ref :=
  (c r).prev.ref

def slabOf (c : Cells) (k : ℕ) : BitVec 64 :=
  (c (.page k)).slab

def typeOf (c : Cells) (k : ℕ) : SlabType :=
  (c (.page k)).prev.type

-- `r` is none of the `n` descriptors from `k` on.
def Off (k n : ℕ) (r : Ref) : Prop :=
  ∀ j, k ≤ j → j < k + n → r ≠ .page j

section

variable {c : Cells} {r : Ref} {k : ℕ} {v : SlabPage} {next : Option Ref} {prev : Tagged}
  {w : BitVec 64}

@[simp]
theorem nextOf_update : nextOf (Function.update c r v) = Function.update (nextOf c) r v.next := by
  funext q
  by_cases h : q = r <;> simp [nextOf, h]

@[simp]
theorem prevOf_update :
    prevOf (Function.update c r v) = Function.update (prevOf c) r v.prev.ref := by
  funext q
  by_cases h : q = r <;> simp [prevOf, h]

@[simp]
theorem slabOf_update :
    slabOf (Function.update c (.page k) v) = Function.update (slabOf c) k v.slab := by
  funext j
  by_cases h : j = k <;> simp [slabOf, h]

@[simp]
theorem typeOf_update :
    typeOf (Function.update c (.page k) v) = Function.update (typeOf c) k v.prev.type := by
  funext j
  by_cases h : j = k <;> simp [typeOf, h]

@[simp]
theorem nextOf_setNext : nextOf (setNext r next c) = Function.update (nextOf c) r next :=
  nextOf_update

@[simp]
theorem prevOf_setNext : prevOf (setNext r next c) = prevOf c := by
  funext q
  by_cases h : q = r <;> simp [prevOf, setNext, h]

@[simp]
theorem slabOf_setNext : slabOf (setNext r next c) = slabOf c := by
  funext j
  by_cases h : Ref.page j = r <;> simp [slabOf, setNext, h]

@[simp]
theorem typeOf_setNext : typeOf (setNext r next c) = typeOf c := by
  funext j
  by_cases h : Ref.page j = r <;> simp [typeOf, setNext, h]

@[simp]
theorem nextOf_setPrev : nextOf (setPrev r prev c) = nextOf c := by
  funext q
  by_cases h : q = r <;> simp [nextOf, setPrev, h]

@[simp]
theorem prevOf_setPrev : prevOf (setPrev r prev c) = Function.update (prevOf c) r prev.ref :=
  prevOf_update

@[simp]
theorem slabOf_setPrev : slabOf (setPrev r prev c) = slabOf c := by
  funext j
  by_cases h : Ref.page j = r <;> simp [slabOf, setPrev, h]

@[simp]
theorem typeOf_setPrev_page :
    typeOf (setPrev (.page k) prev c) = Function.update (typeOf c) k prev.type :=
  typeOf_update

-- The type of a page is that of the other pages of its list.
theorem typeOf_setPrev (h : ∀ j, r = .page j → typeOf c j = prev.type) :
    typeOf (setPrev r prev c) = typeOf c := by
  cases r
  case free   => exact funext fun j => by simp [typeOf, setPrev]
  case slot i => exact funext fun j => by simp [typeOf, setPrev]
  case page k =>
    rw [typeOf_setPrev_page, ← h k rfl, Function.update_eq_self]

@[simp]
theorem nextOf_setSlab : nextOf (setSlab r w c) = nextOf c := by
  funext q
  by_cases h : q = r <;> simp [nextOf, setSlab, h]

@[simp]
theorem prevOf_setSlab : prevOf (setSlab r w c) = prevOf c := by
  funext q
  by_cases h : q = r <;> simp [prevOf, setSlab, h]

@[simp]
theorem slabOf_setSlab : slabOf (setSlab (.page k) w c) = Function.update (slabOf c) k w :=
  slabOf_update

@[simp]
theorem typeOf_setSlab : typeOf (setSlab r w c) = typeOf c := by
  funext j
  by_cases h : Ref.page j = r <;> simp [typeOf, setSlab, h]

theorem off_of_not_mem {n j : ℕ} (hj : ¬(k ≤ j ∧ j < k + n)) : Off k n (.page j) := by
  intro i h₁ h₂ he
  have : j = i := by simpa using he
  omega

theorem fill_of_off {n : ℕ} (h : Off k n r) : fill v n k c r = c r := by
  induction n generalizing k c
  case zero      => rfl
  case succ n hi =>
    rw [fill, hi fun j h₁ h₂ => h j (by omega) (by omega)]
    exact Function.update_of_ne (h k (by omega) (by omega)) ..

theorem fill_of_mem {n j : ℕ} (h₁ : k ≤ j) (h₂ : j < k + n) : fill v n k c (.page j) = v := by
  induction n generalizing k c
  case zero => omega
  case succ n hi =>
    rw [fill]
    by_cases hj : j = k
    case pos =>
      subst hj
      rw [fill_of_off (off_of_not_mem (by omega)), Function.update_self]
    case neg => exact hi (by omega) (by omega)

end

def slabType (shift : ℕ) : SlabType :=
  if shift < exactShift then .small else if shift = exactShift then .exact else .big

-- How many bits the map of a page has, of which those beyond the chunks are clear.
def mapWidth (shift : ℕ) : ℕ :=
  if shift ≤ exactShift then chunkCount shift else 64 - mapShift

def mapBit (p : SlabPool) (k shift i : ℕ) : Bool :=
  if shift < exactShift then
    (p.mem (p.addr k + 8 * (i / 64))).getLsbD (i % 64)
  else if shift = exactShift then
    (slabOf p.cells k).getLsbD i
  else
    (slabOf p.cells k).getLsbD (mapShift + i)

-- Where the size of the chunks is kept
def ShiftIs (slab : BitVec 64) (shift : ℕ) : Prop :=
  if shift < exactShift then slab = .ofNat 64 shift
  else if shift = exactShift then True
  else slab &&& shiftMask = .ofNat 64 shift

namespace Span

-- The list that a span is in, by where that starts.
def home (minShift : ℕ) : Span → Option Ref
  | free _            => some .free
  | chunks shift used =>
    if used = .range (chunkCount shift) then none else some (.slot (shift - minShift))
  | pages _ | loose _ => none

@[simp]
theorem home_free {m n : ℕ} : (free n).home m = some .free :=
  rfl

@[simp]
theorem home_pages {m n : ℕ} : (pages n).home m = none :=
  rfl

@[simp]
theorem home_loose {m n : ℕ} : (loose n).home m = none :=
  rfl

def Records (p : SlabPool) (k : ℕ) : Span → Prop
  | free n => slabOf p.cells k = .ofNat 64 n ∧ typeOf p.cells k = .page ∧
      ∀ j, k < j → j < k + n → slabOf p.cells j = 0 ∧ typeOf p.cells j = .page
  | pages n => slabOf p.cells k = .ofNat 64 n ||| startBit ∧ typeOf p.cells k = .page ∧
      ∀ j, k < j → j < k + n → slabOf p.cells j = busyMap ∧ typeOf p.cells j = .page
  | chunks shift used => p.minShift ≤ shift ∧ shift < pagesizeShift ∧
      typeOf p.cells k = slabType shift ∧ ShiftIs (slabOf p.cells k) shift ∧
      ∀ i < mapWidth shift, mapBit p k shift i = decide (i ∈ used)
  | loose n => ∀ j, k < j → j < k + n → slabOf p.cells j = 0 ∧ typeOf p.cells j = .page

end Span

structure View where
  book : Book
  lists : Ref → List Ref

def Sentinel (minShift : ℕ) : Ref → Prop
  | .free   => True
  | .slot i => minShift + i < pagesizeShift
  | .page _ => False

structure Repr (p : SlabPool) (v : View) : Prop where
  shift   : 3 ≤ p.minShift ∧ p.minShift < pagesizeShift
  start   : 0 < p.start ∧ p.start % pagesize = 0
  stop    : p.start + p.realPages * pagesize ≤ p.stop
  pages   : p.realPages < 2 ^ 52
  tiles   : Tiles Span.len 0 v.book p.realPages
  records : ∀ x ∈ v.book, x.2.Records p x.1
  lists   : ∀ s, Sentinel p.minShift s →
    Ring.Linked (nextOf p.cells) (prevOf p.cells) s (v.lists s)
  mem     : ∀ s r, r ∈ v.lists s ↔ ∃ x ∈ v.book, r = .page x.1 ∧ x.2.home p.minShift = some s
  lone    : ∀ k < p.realPages, (∀ s, .page k ∉ v.lists s) → (∀ n, (k, .loose n) ∉ v.book) →
    nextOf p.cells (.page k) = none ∧ prevOf p.cells (.page k) = none

-- The book of a pool
structure Inv (p : SlabPool) (v : View) : Prop where
  repr  : Repr p v
  sound : v.book.Sound p.minShift p.realPages

-- Outside of the pages from `lo` to `hi` the pools agree.
structure Kept (lo hi : ℕ) (p p' : SlabPool) : Prop where
  minShift  : p'.minShift = p.minShift
  start     : p'.start = p.start
  stop      : p'.stop = p.stop
  realPages : p'.realPages = p.realPages
  slab      : ∀ k, ¬(lo ≤ k ∧ k < hi) → slabOf p'.cells k = slabOf p.cells k
  type      : ∀ k, ¬(lo ≤ k ∧ k < hi) → typeOf p'.cells k = typeOf p.cells k
  mem       : ∀ a, ¬(p.addr lo ≤ a ∧ a < p.addr hi) → p'.mem a = p.mem a

section

variable {p p' : SlabPool} {v : View} {lists lists' : Ref → List Ref} {l o n m : Book} {x y : Span}
  {lo hi k shift i : ℕ} {s s' r : Ref}

theorem addr_eq : p.addr k = p.start + k * pagesize := by
  rw [SlabPool.addr, Nat.shiftLeft_eq]
  rfl

theorem chunkCount_le (shift : ℕ) : chunkCount shift ≤ pagesize :=
  Nat.pow_le_pow_right (by decide) (Nat.sub_le ..)

theorem mapBit_congr (hs : p'.start = p.start) (hk : slabOf p'.cells k = slabOf p.cells k)
    (hm : ∀ a, p.addr k ≤ a → a < p.addr (k + 1) → p'.mem a = p.mem a) (hi : i < mapWidth shift) :
    mapBit p' k shift i = mapBit p k shift i := by
  simp only [mapBit, hk]
  split
  case isFalse => rfl
  case isTrue h =>
    have := chunkCount_le shift
    have ha : p'.addr k = p.addr k := by rw [addr_eq, addr_eq, hs]
    rw [mapWidth, if_pos (Nat.le_of_lt h)] at hi
    simp only [addr_eq, pagesize] at this ha hm ⊢
    rw [hs, hm _ (by omega) (by omega)]

namespace Span

theorem Records.frame (h : x.Records p k) (hk : Kept lo hi p p') (hl : 0 < x.len)
    (ho : k + x.len ≤ lo ∨ hi ≤ k) : x.Records p' k := by
  have hd (j : ℕ) (h₁ : k ≤ j) (h₂ : j < k + x.len) :
      slabOf p'.cells j = slabOf p.cells j ∧ typeOf p'.cells j = typeOf p.cells j :=
    ⟨hk.slab j (by omega), hk.type j (by omega)⟩
  have ⟨hs, ht⟩ := hd k (Nat.le_refl _) (by omega)
  have hi (j : ℕ) (h₁ : k < j) (h₂ : j < k + x.len) := hd j (Nat.le_of_lt h₁) h₂
  cases x
  case free n =>
    have ⟨h₁, h₂, h⟩ := h
    refine ⟨hs ▸ h₁, ht ▸ h₂, fun j hj hj' => ?_⟩
    rw [(hi j hj hj').left, (hi j hj hj').right]
    exact h j hj hj'
  case pages n =>
    have ⟨h₁, h₂, h⟩ := h
    refine ⟨hs ▸ h₁, ht ▸ h₂, fun j hj hj' => ?_⟩
    rw [(hi j hj hj').left, (hi j hj hj').right]
    exact h j hj hj'
  case loose n =>
    intro j hj hj'
    rw [(hi j hj hj').left, (hi j hj hj').right]
    exact h j hj hj'
  case chunks shift used =>
    have ⟨h₀, h₁, h₂, h₃, h⟩ := h
    refine ⟨hk.minShift ▸ h₀, h₁, ht ▸ h₂, hs ▸ h₃, fun i hi => ?_⟩
    rw [mapBit_congr hk.start hs ?_ hi]
    · exact h i hi
    · intro a ha ha'
      simp only [addr_eq, pagesize] at ha ha'
      refine hk.mem a ?_
      simp only [addr_eq, pagesize, len_chunks] at ho ⊢
      omega

end Span

namespace Repr

theorem sentinel (h : Repr p v) (hr : r ∈ v.lists s) : Sentinel p.minShift s := by
  have ⟨x, hx, _, hh⟩ := (h.mem s r).mp hr
  have hx := h.records x hx
  generalize x.2 = y at hx hh
  cases y
  case free =>
    cases hh
    trivial
  case chunks shift used =>
    have ⟨h₁, h₂, _⟩ := hx
    simp only [Span.home] at hh
    split at hh
    · cases hh
    · cases hh
      simp only [Sentinel]
      omega
  case pages => cases hh
  case loose => cases hh

theorem exists_page (h : Repr p v) (hr : r ∈ v.lists s) : ∃ k < p.realPages, r = .page k := by
  have ⟨x, hx, hr, _⟩ := (h.mem s r).mp hr
  have := h.tiles.bounds hx
  exact ⟨x.1, by omega, hr⟩

theorem sentinel_not_mem (h : Repr p v) (hs : Sentinel p.minShift s') : s' ∉ v.lists s := by
  intro hm
  obtain ⟨k, -, rfl⟩ := h.exists_page hm
  exact hs

-- A page is in one list only.
theorem list_unique (h : Repr p v) (hr : r ∈ v.lists s) (hr' : r ∈ v.lists s') : s = s' := by
  obtain ⟨x, hx, rfl, hh⟩ := (h.mem s r).mp hr
  have ⟨y, hy, he, hh'⟩ := (h.mem s' _).mp hr'
  cases h.tiles.eq_of_start hx hy (by simpa using he)
  exact Option.some.inj (hh.symm.trans hh')

-- Some spans give way to others on the same pages. What is asked for is what the new descriptors
-- say about these pages, the lists, and that the other pages are as they were.
theorem reshape (h : Repr p ⟨l ++ o ++ m, lists⟩) (h₁ : Tiles Span.len 0 l lo)
    (ho : Tiles Span.len lo o hi) (h₂ : Tiles Span.len hi m p.realPages)
    (hn : Tiles Span.len lo n hi) (hp : Kept lo hi p p') (hr : ∀ x ∈ n, x.2.Records p' x.1)
    (hl : ∀ s, Sentinel p.minShift s →
      Ring.Linked (nextOf p'.cells) (prevOf p'.cells) s (lists' s))
    (hm : ∀ s r, r ∈ lists' s ↔ (r ∈ lists s ∧ ∀ x ∈ o, r ≠ .page x.1) ∨
      ∃ x ∈ n, r = .page x.1 ∧ x.2.home p.minShift = some s)
    (hf : ∀ k, ¬(lo ≤ k ∧ k < hi) → (∀ s, .page k ∉ lists s) →
      nextOf p'.cells (.page k) = nextOf p.cells (.page k) ∧
      prevOf p'.cells (.page k) = prevOf p.cells (.page k))
    (hk : ∀ k, lo ≤ k → k < hi → (∀ s, .page k ∉ lists' s) → (∀ i, (k, .loose i) ∉ n) →
      nextOf p'.cells (.page k) = none ∧ prevOf p'.cells (.page k) = none) :
    Repr p' ⟨l ++ n ++ m, lists'⟩ := by
  -- The spans that stay are beside those pages.
  have hb : ∀ x ∈ l ++ m, 0 < x.2.len ∧ (x.1 + x.2.len ≤ lo ∨ hi ≤ x.1) := by
    intro x hx
    rcases List.mem_append.mp hx with hx | hx
    · have := h₁.bounds hx
      omega
    · have := h₂.bounds hx
      omega
  have hs (b : Book) (x : ℕ × Span) : x ∈ l ++ b ++ m ↔ x ∈ l ++ m ∨ x ∈ b := by
    simp only [List.mem_append]
    tauto
  constructor
  case shift   => exact hp.minShift ▸ h.shift
  case start   => exact hp.start ▸ h.start
  case stop    => rw [hp.start, hp.stop, hp.realPages]; exact h.stop
  case pages   => exact hp.realPages ▸ h.pages
  case tiles   => exact hp.realPages ▸ (h₁.append hn).append h₂
  case records =>
    intro x hx
    rcases (hs n x).mp hx with hx | hx
    · have ⟨hl, hb⟩ := hb x hx
      exact (h.records x ((hs o x).mpr (.inl hx))).frame hp hl hb
    · exact hr x hx
  case lists   => exact hp.minShift ▸ hl
  case mem     =>
    intro s r
    rw [hm, h.mem, hp.minShift]
    constructor
    case mp =>
      rintro (⟨⟨x, hx, rfl, hh⟩, ho⟩ | ⟨x, hx, hh⟩)
      · rcases (hs o x).mp hx with hx | hx
        · exact ⟨x, (hs n x).mpr (.inl hx), rfl, hh⟩
        · exact absurd rfl (ho x hx)
      · exact ⟨x, (hs n x).mpr (.inr hx), hh⟩
    case mpr =>
      rintro ⟨x, hx, rfl, hh⟩
      rcases (hs n x).mp hx with hx | hx
      · refine .inl ⟨⟨x, (hs o x).mpr (.inl hx), rfl, hh⟩, fun y hy he => ?_⟩
        have := hb x hx
        have := ho.bounds hy
        have : x.1 = y.1 := by simpa using he
        omega
      · exact .inr ⟨x, hx, rfl, hh⟩
  case lone    =>
    intro k hr hn' hl'
    by_cases hc : lo ≤ k ∧ k < hi
    case pos =>
      refine hk k hc.left hc.right hn' fun i hi => hl' i ?_
      exact (hs n _).mpr (.inr hi)
    case neg =>
      have hno : ∀ s, .page k ∉ lists s := by
        intro s hs
        refine hn' s ((hm s _).mpr (.inl ⟨hs, fun x hx he => hc ?_⟩))
        have := ho.bounds hx
        have : k = x.1 := by simpa using he
        omega
      rw [(hf k hc hno).left, (hf k hc hno).right]
      refine h.lone k (hp.realPages ▸ hr) hno fun i hi => ?_
      rcases (hs o _).mp hi with hi | hi
      · exact hl' i ((hs n _).mpr (.inl hi))
      · have := ho.bounds hi
        simp only at this
        omega

end Repr

end

end Slab
