import Aiotc.Slab.Repr

-- `ncx_slab_init`: how the memory of a pool is divided into its header, the descriptors and the
-- pages.

open Tiling

namespace Slab

-- sizeof(ncx_slab_pool_t) and sizeof(ncx_slab_page_t)
def sizeofPool : ℕ := 88

def sizeofPage : ℕ := 24

-- Differences of addresses are taken as unsigned numbers.
def sub64 (a b : ℕ) : ℕ :=
  (a + 2 ^ 64 - b) % 2 ^ 64

-- ncx_align_ptr(p, ncx_pagesize)
def alignPtr (p : ℕ) : ℕ :=
  (p + (pagesize - 1)) >>> pagesizeShift <<< pagesizeShift

-- for (i = 0; i < n; i++) slots[i].next = &slots[i];
def initSlots (n : ℕ) (c : Cells) : Cells :=
  (List.range n).foldl (fun c i => Function.update c (.slot i)
    { slab := 0, next := some (.slot i), prev := ⟨none, .page⟩ }) c

-- Where the descriptors of the pages are in the memory of the pool.
def pagesAt (minShift pool : ℕ) : ℕ :=
  pool + sizeofPool + (pagesizeShift - minShift) * sizeofPage

def initPages (minShift pool stop : ℕ) : ℕ :=
  sub64 stop (pagesAt minShift pool) / (pagesize + sizeofPage)

def initStart (minShift pool stop : ℕ) : ℕ :=
  alignPtr (pagesAt minShift pool + initPages minShift pool stop * sizeofPage)

-- `cells` and `mem` are what was in the memory before.
def init (minShift pool stop : ℕ) (cells : Cells) (mem : ℕ → BitVec 64) : SlabPool :=
  let pages := initPages minShift pool stop
  let start := initStart minShift pool stop
  let realPages := sub64 stop start / pagesize
  let c := initSlots (pagesizeShift - minShift) cells
  let c := fill zeroPage pages 0 c
  let c := setPrev .free ⟨none, .page⟩ c
  let c := setNext .free (some (.page 0)) c
  let c := Function.update c (.page 0)
    { slab := .ofNat 64 pages, next := some .free, prev := ⟨some .free, .page⟩ }
  let c := setSlab (.page 0) (.ofNat 64 realPages) c
  { minShift := minShift, start := start, stop := stop, realPages := realPages, cells := c
    mem := mem }

section

variable {minShift pool stop a b n i : ℕ} {c : Cells} (cells : Cells) (mem : ℕ → BitVec 64)

theorem sub64_of_le (hb : b ≤ a) (ha : a < 2 ^ 64) : sub64 a b = a - b := by
  rw [sub64]
  omega

theorem alignPtr_spec (p : ℕ) :
    p ≤ alignPtr p ∧ alignPtr p < p + pagesize ∧ alignPtr p % pagesize = 0 := by
  have hd : alignPtr p = (p + (pagesize - 1)) / pagesize * pagesize := by
    rw [alignPtr, Nat.shiftRight_eq_div_pow, Nat.shiftLeft_eq]
    rfl
  have hp : pagesize = 4096 := rfl
  rw [hd, hp]
  omega

-- There is room for two pages at least, and the address of the pool is a multiple of 8.
structure Enough (minShift pool stop : ℕ) : Prop where
  shift   : 3 ≤ minShift ∧ minShift < pagesizeShift
  aligned : pool % 8 = 0
  size    : pagesAt minShift pool + 2 * (pagesize + sizeofPage) ≤ stop
  stop    : stop < 2 ^ 64

-- `n` descriptors at `q` and the pages from `start` on.
theorem layout {q start : ℕ} (hs : q + 2 * (4096 + 24) ≤ stop)
    (hn : n = (stop - q) / (4096 + 24)) (h₁ : q + n * 24 ≤ start) (h₂ : start < q + n * 24 + 4096) :
    start ≤ stop ∧ 0 < (stop - start) / 4096 ∧ start + (stop - start) / 4096 * 4096 ≤ stop ∧
      (q + (stop - start) / 4096 * 24 ≤ start ↔ (stop - start) / 4096 ≤ n) ∧
      (q + (stop - start) / 4096 * 24 ≤ start ↔
        (stop - q) % (4096 + 24) < 4096 + (start - (q + n * 24))) := by
  omega

-- What the division by the size of a page and its descriptor leaves over is less than a page and
-- what the alignment of the pages takes.
def Fits (minShift pool stop : ℕ) : Prop :=
  (stop - pagesAt minShift pool) % (pagesize + sizeofPage) < pagesize +
    (initStart minShift pool stop -
      (pagesAt minShift pool + initPages minShift pool stop * sizeofPage))

instance : Decidable (Fits minShift pool stop) :=
  inferInstanceAs (Decidable (_ < _))

namespace Enough

variable (h : Enough minShift pool stop)

include h

theorem pages_eq : initPages minShift pool stop =
    (stop - pagesAt minShift pool) / (pagesize + sizeofPage) := by
  have := h.size
  rw [initPages, sub64_of_le (by omega) h.stop]

-- The address of a descriptor has low bits that can hold a type.
theorem page_mod (k : ℕ) : (pagesAt minShift pool + k * sizeofPage) % 8 = 0 := by
  have ha := h.aligned
  simp only [pagesAt, sizeofPool, sizeofPage]
  omega

theorem start_le : initStart minShift pool stop ≤ stop := by
  have ⟨h₁, h₂, _⟩ :=
    alignPtr_spec (pagesAt minShift pool + initPages minShift pool stop * sizeofPage)
  exact (layout h.size h.pages_eq h₁ h₂).left

theorem realPages_eq : (init minShift pool stop cells mem).realPages =
    (stop - initStart minShift pool stop) / pagesize := by
  simp only [init]
  rw [sub64_of_le h.start_le h.stop]

theorem bounds : 0 < (init minShift pool stop cells mem).realPages ∧
    initStart minShift pool stop +
      (init minShift pool stop cells mem).realPages * pagesize ≤ stop := by
  have ⟨h₁, h₂, _⟩ :=
    alignPtr_spec (pagesAt minShift pool + initPages minShift pool stop * sizeofPage)
  have ⟨_, h₃, h₄, _⟩ := layout h.size h.pages_eq h₁ h₂
  rw [h.realPages_eq]
  exact ⟨h₃, h₄⟩

-- The descriptors are in front of the pages unless there is a page more than descriptors were meant
-- to be. Then the last one is in the first page.
theorem fits_iff :
    Fits minShift pool stop ↔
      (init minShift pool stop cells mem).realPages ≤ initPages minShift pool stop := by
  have ⟨h₁, h₂, _⟩ :=
    alignPtr_spec (pagesAt minShift pool + initPages minShift pool stop * sizeofPage)
  have ⟨_, _, _, hf, hf'⟩ := layout h.size h.pages_eq h₁ h₂
  rw [h.realPages_eq]
  exact hf'.symm.trans hf

theorem descriptors_iff : pagesAt minShift pool +
      (init minShift pool stop cells mem).realPages * sizeofPage ≤
        (init minShift pool stop cells mem).start ↔ Fits minShift pool stop := by
  have ⟨h₁, h₂, _⟩ :=
    alignPtr_spec (pagesAt minShift pool + initPages minShift pool stop * sizeofPage)
  have ⟨_, _, _, _, hf⟩ := layout h.size h.pages_eq h₁ h₂
  rw [h.realPages_eq]
  exact hf

end Enough

theorem initSlots_apply (r : Ref) : initSlots n c r =
    if ∃ i < n, r = .slot i then { slab := 0, next := some r, prev := ⟨none, .page⟩ } else c r := by
  induction n
  case zero => simp [initSlots]
  case succ n ih =>
    rw [initSlots, List.range_succ, List.foldl_append, List.foldl_cons, List.foldl_nil, ← initSlots,
      Function.update_apply, ih]
    by_cases hr : r = .slot n
    case pos => simp [hr]
    case neg =>
      have : (∃ i < n + 1, r = .slot i) ↔ ∃ i < n, r = .slot i := by
        constructor
        · rintro ⟨i, hi, rfl⟩
          exact ⟨i, Nat.lt_of_le_of_ne (Nat.le_of_lt_succ hi) fun hc => hr (by rw [hc]), rfl⟩
        · rintro ⟨i, hi, rfl⟩
          exact ⟨i, Nat.lt_succ_of_lt hi, rfl⟩
      simp only [if_neg hr, this]

def initView (realPages : ℕ) : View where
  book := [(0, .free realPages)]
  lists s := if s = .free then [.page 0] else []

theorem init_slot (hi : minShift + i < pagesizeShift) :
    (init minShift pool stop cells mem).cells (.slot i) =
      { slab := 0, next := some (.slot i), prev := ⟨none, .page⟩ } := by
  have hex : ∃ j < pagesizeShift - minShift, Ref.slot i = .slot j := ⟨i, by omega, rfl⟩
  simp only [init, setSlab, setNext, setPrev]
  rw [Function.update_of_ne (by simp), Function.update_of_ne (by simp),
    Function.update_of_ne (by simp), Function.update_of_ne (by simp),
    fill_of_off (fun _ _ _ => by simp), initSlots_apply, if_pos hex]

theorem init_free : ((init minShift pool stop cells mem).cells .free).next = some (.page 0) := by
  simp [init, setSlab, setNext]

theorem init_first : (init minShift pool stop cells mem).cells (.page 0) =
    { slab := .ofNat 64 (init minShift pool stop cells mem).realPages, next := some .free
      prev := ⟨some .free, .page⟩ } := by
  simp [init, setSlab]

theorem init_page (hn : n ≠ 0) (hp : n < initPages minShift pool stop) :
    (init minShift pool stop cells mem).cells (.page n) = zeroPage := by
  have hne : Ref.page n ≠ .page 0 := by simpa using hn
  simp only [init, setSlab, setNext, setPrev]
  rw [Function.update_of_ne hne, Function.update_of_ne hne, Function.update_of_ne (by simp),
    Function.update_of_ne (by simp), fill_of_mem (Nat.zero_le _) (by omega)]

-- One span of free pages
theorem inv_of_free {p : SlabPool} (hs : 3 ≤ p.minShift ∧ p.minShift < pagesizeShift)
    (hstart : 0 < p.start ∧ p.start % pagesize = 0)
    (hend : p.start + p.realPages * pagesize ≤ p.stop) (hlt : p.stop < 2 ^ 64)
    (hpos : 0 < p.realPages)
    (hslot : ∀ i, p.minShift + i < pagesizeShift → (p.cells (.slot i)).next = some (.slot i))
    (hfree : (p.cells .free).next = some (.page 0))
    (hfirst : p.cells (.page 0) =
      { slab := .ofNat 64 p.realPages, next := some .free, prev := ⟨some .free, .page⟩ })
    (hpage : ∀ k, k ≠ 0 → k < p.realPages → p.cells (.page k) = zeroPage) :
    Inv p (initView p.realPages) := by
  have hp : pagesize = 4096 := rfl
  refine ⟨⟨hs, hstart, hend, ?_, ?_, ?_, ?_, ?_, ?_⟩, ?_, ?_, ?_⟩
  · rw [hp] at hend
    omega
  · exact ⟨rfl, hpos, Nat.zero_add _⟩
  · intro x hx
    cases List.mem_singleton.mp hx
    refine ⟨?_, ?_, fun j h₁ h₂ => ?_⟩
    · rw [slabOf, hfirst]
    · rw [typeOf, hfirst]
    · simp only [Nat.zero_add] at h₂
      rw [slabOf, typeOf, hpage j (Nat.ne_of_gt h₁) h₂]
      exact ⟨rfl, rfl⟩
  · intro s hs
    cases s
    case free =>
      refine ⟨⟨hfree, ?_, ?_⟩, by simp [initView]⟩
      · rw [prevOf, hfirst]
      · simp [nextOf, hfirst]
    case slot i => exact Ring.Linked.nil_iff.mpr (hslot i hs)
    case page   => cases hs
  · intro s r
    by_cases hs : s = .free
    case pos => simp [initView, hs]
    case neg =>
      have : .free ≠ s := Ne.symm hs
      simp [initView, hs, this]
  · intro k hk hno _
    have hk₀ : k ≠ 0 := by
      rintro rfl
      exact hno .free (by simp [initView])
    rw [nextOf, prevOf, hpage k hk₀ hk]
    exact ⟨rfl, rfl⟩
  · exact ⟨rfl, hpos, Nat.zero_add _⟩
  · intro x hx
    cases List.mem_singleton.mp hx
    trivial
  · exact .singleton _

-- Where the descriptors have room, the book says that all pages are free.
theorem init_inv (h : Enough minShift pool stop) (hf : Fits minShift pool stop) :
    Inv (init minShift pool stop cells mem)
      (initView (init minShift pool stop cells mem).realPages) := by
  have ⟨hpos, hend⟩ := h.bounds cells mem
  have hf := (h.fits_iff cells mem).mp hf
  have ⟨hle, _, hmod⟩ :=
    alignPtr_spec (pagesAt minShift pool + initPages minShift pool stop * sizeofPage)
  have hpool : 0 < pagesAt minShift pool := by
    simp only [pagesAt, sizeofPool]
    omega
  refine inv_of_free h.shift ⟨?_, hmod⟩ hend h.stop hpos (fun i hi => ?_) (init_free cells mem)
    (init_first cells mem) fun k hk hkr => init_page cells mem hk (Nat.lt_of_lt_of_le hkr hf)
  · exact Nat.lt_of_lt_of_le (Nat.lt_of_lt_of_le hpool (Nat.le_add_right ..)) hle
  · have hi : minShift + i < pagesizeShift := hi
    exact congrArg SlabPage.next (init_slot cells mem hi)

-- `ncx_slab_init` makes a pool whose pages are all free, at the end of its memory, and keeps the
-- descriptors apart from them exactly if they fit.
theorem init_spec (h : Enough minShift pool stop) :
    (pagesAt minShift pool + (init minShift pool stop cells mem).realPages * sizeofPage ≤
      (init minShift pool stop cells mem).start ↔ Fits minShift pool stop) ∧
    (init minShift pool stop cells mem).start +
      (init minShift pool stop cells mem).realPages * pagesize ≤ stop ∧
    (Fits minShift pool stop → Inv (init minShift pool stop cells mem)
      (initView (init minShift pool stop cells mem).realPages)) ∧
    ∀ k, (pagesAt minShift pool + k * sizeofPage) % 8 = 0 :=
  ⟨h.descriptors_iff cells mem, (h.bounds cells mem).right, init_inv cells mem h, h.page_mod⟩

end

-- The smallest pool that is large enough
def sixteenK : SlabPool :=
  init 3 4096 16384 (fun _ => zeroPage) fun _ => 0

theorem enough_sixteenK : Enough 3 4096 16384 := by
  refine ⟨by decide, by decide, by decide, by decide⟩

theorem init_spec_sixteenK : Inv sixteenK (initView sixteenK.realPages) :=
  (init_spec _ _ enough_sixteenK).right.right.left (by decide)

-- In a pool of 331 pages the last descriptor is in the first page.
example : ¬Fits 3 4096 (4096 + 331 * 4096) := by
  decide

end Slab
