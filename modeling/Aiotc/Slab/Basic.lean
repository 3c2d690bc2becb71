import Mathlib.Algebra.Group.Nat.Defs
import Mathlib.Logic.Function.Basic

-- ncx_slab.c: the allocator of the pools in shared memory. `none` is a run of the code that follows
-- NULL or a pointer of another kind than it is taken for, or that does not end. There are cells and
-- words for all numbers and addresses: where their arrays end `none` does not tell.

-- The place of a `ncx_slab_page_t`: `pool->free`, one of the slots or one of `pool->pages`.
inductive Ref
  | free
  | slot (i : ℕ)
  | page (k : ℕ)
  deriving DecidableEq

-- NCX_SLAB_PAGE, NCX_SLAB_BIG, NCX_SLAB_EXACT and NCX_SLAB_SMALL
inductive SlabType
  | page
  | big
  | exact
  | small
  deriving DecidableEq

-- A pointer whose low bits hold the type.
structure Tagged where
  ref : Option Ref
  type : SlabType
  deriving DecidableEq

-- A pointer that is followed without taking off the type.
def Tagged.raw (p : Tagged) : Option Ref :=
  if p.type = .page then p.ref else none

-- ncx_slab_page_t
structure SlabPage where
  slab : BitVec 64
  next : Option Ref
  prev : Tagged
  deriving DecidableEq

abbrev Cells :=
  Ref → SlabPage

-- ncx_slab_pool_t with the descriptors and the pages that it describes. `mem` are the words of the
-- pages by their addresses, `stop` is the field `end`.
structure SlabPool where
  minShift : ℕ
  start : ℕ
  stop : ℕ
  realPages : ℕ
  cells : Cells
  mem : ℕ → BitVec 64

namespace Slab

def pagesize : ℕ := 4096

def pagesizeShift : ℕ := 12

def maxSize : ℕ := pagesize / 2

def exactSize : ℕ := pagesize / 64

def exactShift : ℕ := 6

-- NCX_SLAB_PAGE_BUSY and NCX_SLAB_BUSY
def busyMap : BitVec 64 := .allOnes 64

-- NCX_SLAB_PAGE_START
def startBit : BitVec 64 := 1#64 <<< 63

def shiftMask : BitVec 64 := 0xf

-- NCX_SLAB_MAP_MASK
def mapMask : BitVec 64 := 0xffffffff00000000

def mapShift : ℕ := 32

-- What `ncx_memzero` leaves of a descriptor.
def zeroPage : SlabPage where
  slab := 0
  next := none
  prev := ⟨none, .page⟩

def busyPage : SlabPage where
  slab := busyMap
  next := none
  prev := ⟨none, .page⟩

def setNext (r : Ref) (next : Option Ref) (c : Cells) : Cells :=
  Function.update c r { c r with next := next }

def setPrev (r : Ref) (prev : Tagged) (c : Cells) : Cells :=
  Function.update c r { c r with prev := prev }

def setSlab (r : Ref) (slab : BitVec 64) (c : Cells) : Cells :=
  Function.update c r { c r with slab := slab }

-- The `n` descriptors from `k` on.
def fill (v : SlabPage) : ℕ → ℕ → Cells → Cells
  | 0, _, c     => c
  | n + 1, k, c => fill v n (k + 1) (Function.update c (.page k) v)

end Slab

namespace SlabPool

open Slab

def addr (k : ℕ) (p : SlabPool) : ℕ :=
  p.start + k <<< pagesizeShift

def setWord (a : ℕ) (w : BitVec 64) (p : SlabPool) : SlabPool :=
  { p with mem := Function.update p.mem a w }

def mapCells (f : Cells → Cells) (p : SlabPool) : SlabPool :=
  { p with cells := f p.cells }

end SlabPool

namespace Slab

-- page->prev->next = page->next; page->next->prev = page->prev;
def unlink (k : ℕ) (c : Cells) : Option Cells := do
  let prev ← (c (.page k)).prev.ref
  let c := setNext prev (c (.page k)).next c
  let next ← (c (.page k)).next
  return setPrev next (c (.page k)).prev c

-- The page gets into the list of its slot again.
def relink (type : SlabType) (slot k : ℕ) (c : Cells) : Option Cells := do
  let c := setNext (.page k) (c (.slot slot)).next c
  let c := setNext (.slot slot) (some (.page k)) c
  let c := setPrev (.page k) ⟨some (.slot slot), type⟩ c
  let next ← (c (.page k)).next
  return setPrev next ⟨some (.page k), type⟩ c

section Pages

-- The loop of `ncx_slab_alloc_pages` over the list of `pool->free`. Each loop below that follows
-- pointers takes a bound of its steps.
def firstFit (pages : ℕ) (c : Cells) : ℕ → Ref → Option (Option ℕ)
  | _, .free           => some none
  | 0, _ | _, .slot _  => none
  | n + 1, r@(.page k) =>
    if pages ≤ (c r).slab.toNat then some (some k) else do firstFit pages c n (← (c r).next)

-- The first `pages` of the free pages at `k` leave the list, and what is left takes their place.
def cut (k pages : ℕ) (c : Cells) : Option Cells := do
  let page := c (.page k)
  if pages < page.slab.toNat then
    let c := Function.update c (.page (k + pages)) { page with slab := page.slab - .ofNat 64 pages }
    let c := setNext (← page.prev.raw) (some (.page (k + pages))) c
    return setPrev (← (c (.page k)).next) ⟨some (.page (k + pages)), .page⟩ c
  else
    let c := setNext (← page.prev.raw) page.next c
    return setPrev (← (c (.page k)).next) (c (.page k)).prev c

def allocPages (pages : ℕ) (p : SlabPool) : Option (Option ℕ × SlabPool) := do
  let first ← (p.cells .free).next
  match ← firstFit pages p.cells (p.realPages + 1) first with
  | none   => return (none, p)
  | some k =>
    let c ← cut k pages p.cells
    let head := { slab := .ofNat 64 pages ||| startBit, next := none, prev := ⟨none, .page⟩ }
    let c := Function.update c (.page k) head
    return (some k, { p with cells := fill busyPage (pages - 1) (k + 1) c })

-- The loop of `ncx_slab_empty`: only the pages lie behind `pool->pages`.
def walkBack (c : Cells) : ℕ → Option Ref → Option (Option Ref)
  | 0, _                => none
  | n + 1, some (.page k) => walkBack c n (c (.page k)).prev.ref
  | _ + 1, r            => some r

def slabEmpty (k : ℕ) (p : SlabPool) : Option Bool :=
  let page := p.cells (.page k)
  if page.slab = 0 then
    some true
  else if page.next = none then
    some false
  else do
    let prev ← walkBack p.cells (p.realPages + 1) page.prev.ref
    return prev = some .free

-- for (; prev >= pool->pages; prev--) if (prev->slab != 0)
def scanBack (c : Cells) : ℕ → Option ℕ
  | 0     => if (c (.page 0)).slab ≠ 0 then some 0 else none
  | k + 1 => if (c (.page (k + 1))).slab ≠ 0 then some (k + 1) else scanBack c k

-- PAGE_MERGE with the pages in front of `k`, which is the first in the list of `pool->free`. The
-- outcome is where the free pages start.
def mergePrev (k pages : ℕ) (p : SlabPool) : Option (ℕ × SlabPool) := do
  if k = 0 then
    return (k, p)
  if ← slabEmpty (k - 1) p then
    match scanBack p.cells (k - 1) with
    | none   => return (k, p)
    | some j =>
      let mut c := setNext .free (p.cells (.page k)).next p.cells
      c := setPrev (← (c (.page k)).next) ⟨some .free, .page⟩ c
      c := setSlab (.page j) ((c (.page j)).slab + .ofNat 64 pages) c
      c := Function.update c (.page k) zeroPage
      return (j, { p with cells := c })
  else
    return (k, p)

-- PAGE_MERGE with the pages behind
def mergeNext (k : ℕ) (p : SlabPool) : Option SlabPool := do
  let page := p.cells (.page k)
  let j := k + page.slab.toNat
  if j < p.realPages then
    let next := p.cells (.page j)
    if (← slabEmpty j p) ∧ next.prev ≠ ⟨none, .page⟩ then
      let mut c := setNext (← next.prev.raw) next.next p.cells
      c := setPrev (← (c (.page j)).next) (c (.page j)).prev c
      c := setSlab (.page k) ((c (.page k)).slab + (c (.page j)).slab) c
      c := Function.update c (.page j) zeroPage
      return { p with cells := c }
    else
      return p
  else
    return p

-- What `ncx_slab_free_pages` does before it merges: the pages leave their list, if they are in one,
-- and become the first of `pool->free`.
def detach (k pages : ℕ) (c : Cells) : Option Cells :=
  let c := fill zeroPage (pages - 1) (k + 1) c
  if (c (.page k)).next ≠ none then unlink k c else some c

def attach (k pages : ℕ) (c : Cells) : Option Cells := do
  let c := setSlab (.page k) (.ofNat 64 pages) c
  let c := setPrev (.page k) ⟨some .free, .page⟩ c
  let c := setNext (.page k) (c .free).next c
  let c := setPrev (← (c (.page k)).next) ⟨some (.page k), .page⟩ c
  return setNext .free (some (.page k)) c

def freePages (k pages : ℕ) (p : SlabPool) : Option SlabPool := do
  let c ← detach k pages p.cells
  let c ← attach k pages c
  let (k, p) ← mergePrev k pages { p with cells := c }
  mergeNext k p

end Pages

section Chunks

def setBit (i : ℕ) (w : BitVec 64) : BitVec 64 :=
  w ||| 1#64 <<< i

def clearBit (i : ℕ) (w : BitVec 64) : BitVec 64 :=
  w &&& ~~~(1#64 <<< i)

-- for (m = 1 << o, i = 0; m & mask; m <<= 1, i++) if (w & m) continue;
def lowestClear (w mask : BitVec 64) (o : ℕ) : Option ℕ :=
  ((List.range (64 - o)).takeWhile fun i => mask.getLsbD (o + i)).find? fun i => !w.getLsbD (o + i)

-- The words of the bitmap of a page with small chunks, and how many of the chunks they take up.
def mapWords (shift : ℕ) : ℕ :=
  1 <<< (pagesizeShift - shift) / 64

def mapChunks (shift : ℕ) : ℕ :=
  let n := 1 <<< (pagesizeShift - shift) / 8 / 1 <<< shift
  if n = 0 then 1 else n

def unlinkFull (type : SlabType) (k : ℕ) (p : SlabPool) : Option SlabPool := do
  let c ← unlink k p.cells
  let c := setNext (.page k) none c
  return { p with cells := setPrev (.page k) ⟨none, type⟩ c }

-- What the loops of `ncx_slab_alloc_locked` do with a page of the list. The outcome is a chunk of
-- it, if one is not in use.
abbrev Take :=
  ℕ → SlabPool → Option (Option (ℕ × SlabPool))

def takeSmall (shift : ℕ) : Take := fun k p =>
  let bitmap := p.addr k
  let map := mapWords shift
  match (List.range map).find? fun n => p.mem (bitmap + 8 * n) ≠ busyMap with
  | none   => some none
  | some n =>
    match lowestClear (p.mem (bitmap + 8 * n)) busyMap 0 with
    | none   => some none
    | some i => do
      let mut p := p.setWord (bitmap + 8 * n) (setBit i (p.mem (bitmap + 8 * n)))
      if ∀ j < map, n ≤ j → p.mem (bitmap + 8 * j) = busyMap then
        p ← unlinkFull .small k p
      return some (bitmap + ((n * 64) <<< shift + i <<< shift), p)

-- The other pages have their map in the descriptor, in its bits from `o` on.
def takeMap (type : SlabType) (mapMask mask : BitVec 64) (o shift : ℕ) : Take := fun k p =>
  let slab := (p.cells (.page k)).slab
  if slab &&& mapMask ≠ mask then
    match lowestClear slab mask o with
    | none   => some none
    | some i => do
      let slab := setBit (o + i) slab
      let mut p := p.mapCells (setSlab (.page k) slab)
      if slab &&& mapMask = mask then
        p ← unlinkFull type k p
      return some (p.addr k + i <<< shift, p)
  else
    some none

def takeExact : Take :=
  takeMap .exact busyMap busyMap 0 exactShift

def takeBig (mask : BitVec 64) (shift : ℕ) : Take :=
  takeMap .big mapMask mask mapShift shift

-- n = ncx_pagesize_shift - (slab & NCX_SLAB_SHIFT_MASK); n = 1 << n; n = (1 << n) - 1;
def bigMask (slab : BitVec 64) : BitVec 64 :=
  let n := 1 <<< (pagesizeShift - (slab &&& shiftMask).toNat)
  (1#64 <<< n - 1) <<< mapShift

-- do .. while (page)
def scanSlot (take : Take) : ℕ → Option Ref → SlabPool → Option (Option (ℕ × SlabPool))
  | _, none, _               => some none
  | n + 1, some (.page k), p => do
    match ← take k p with
    | some r => return some r
    | none   => scanSlot take n (p.cells (.page k)).next p
  | _, some _, _             => none

def linkNew (type : SlabType) (slab : BitVec 64) (slot k : ℕ) (p : SlabPool) : SlabPool :=
  let page := { slab := slab, next := some (.slot slot), prev := ⟨some (.slot slot), type⟩ }
  p.mapCells fun c => setNext (.slot slot) (some (.page k)) (Function.update c (.page k) page)

-- A page that was allocated for chunks, with its first chunk.
def newSmall (shift slot k : ℕ) (p : SlabPool) : ℕ × SlabPool :=
  let bitmap := p.addr k
  let n := mapChunks shift
  let p := p.setWord bitmap (2#64 <<< n - 1)
  let p := (List.range' 1 (mapWords shift - 1)).foldl (fun p i => p.setWord (bitmap + 8 * i) 0) p
  (p.addr k + 1 <<< shift * n, linkNew .small (.ofNat 64 shift) slot k p)

def newPage (shift slot k : ℕ) (p : SlabPool) : ℕ × SlabPool :=
  if shift < exactShift then
    newSmall shift slot k p
  else if shift = exactShift then
    (p.addr k, linkNew .exact 1 slot k p)
  else
    (p.addr k, linkNew .big (1#64 <<< mapShift ||| .ofNat 64 shift) slot k p)

-- for (s = size - 1; s >>= 1; shift++)
def countShift : ℕ → ℕ → ℕ → ℕ
  | 0, _, shift     => shift
  | n + 1, s, shift => if s >>> 1 = 0 then shift else countShift n (s >>> 1) (shift + 1)

def sizeShift (minShift size : ℕ) : ℕ :=
  if 1 <<< minShift < size then countShift 64 (size - 1) 1 else minShift

def take (shift : ℕ) (page : SlabPage) : Take :=
  if shift < exactShift then
    takeSmall shift
  else if shift = exactShift then
    takeExact
  else
    takeBig (bigMask page.slab) shift

def allocLocked (size : ℕ) (p : SlabPool) : Option (Option ℕ × SlabPool) := do
  if maxSize ≤ size then
    let pages := size >>> pagesizeShift + if size % pagesize ≠ 0 then 1 else 0
    let (page, p) ← allocPages pages p
    return (page.map p.addr, p)
  let shift := sizeShift p.minShift size
  let slot := shift - p.minShift
  let page ← (p.cells (.slot slot)).next
  if (p.cells page).next ≠ some page then
    let take := take shift (p.cells page)
    if let some (a, p) ← scanSlot take (p.realPages + 1) (some page) p then
      return (some a, p)
  match ← allocPages 1 p with
  | (none, p)   => return (none, p)
  | (some k, p) =>
    let (a, p) := newPage shift slot k p
    return (some a, p)

def freeSmall (a k : ℕ) (p : SlabPool) : Option SlabPool := do
  let page := p.cells (.page k)
  let shift := (page.slab &&& shiftMask).toNat
  if a &&& (1 <<< shift - 1) ≠ 0 then
    return p
  let i := (a &&& (pagesize - 1)) >>> shift
  let bitmap := a >>> pagesizeShift <<< pagesizeShift
  let w := p.mem (bitmap + 8 * (i / 64))
  if w.getLsbD (i % 64) then
    let mut c := p.cells
    if page.next = none then
      c ← relink .small (shift - p.minShift) k c
    let p := { p with cells := c }.setWord (bitmap + 8 * (i / 64)) (clearBit (i % 64) w)
    if p.mem bitmap &&& ~~~(1#64 <<< mapChunks shift - 1) ≠ 0 then
      return p
    if ∃ n < mapWords shift, 0 < n ∧ p.mem (bitmap + 8 * n) ≠ 0 then
      return p
    freePages k 1 p
  else
    return p

-- `full` tells that the page is in no list.
def freeMap (type : SlabType) (full : Bool) (mapMask : BitVec 64) (o shift a k : ℕ)
    (p : SlabPool) : Option SlabPool := do
  if a &&& (1 <<< shift - 1) ≠ 0 then
    return p
  let m := (a &&& (pagesize - 1)) >>> shift + o
  if (p.cells (.page k)).slab.getLsbD m then
    let mut c := p.cells
    if full then
      c ← relink type (shift - p.minShift) k c
    let slab := clearBit m (c (.page k)).slab
    let p := { p with cells := setSlab (.page k) slab c }
    if slab &&& mapMask ≠ 0 then
      return p
    freePages k 1 p
  else
    return p

def freeExact (a k : ℕ) (p : SlabPool) : Option SlabPool :=
  freeMap .exact ((p.cells (.page k)).slab = busyMap) busyMap 0 exactShift a k p

def freeBig (a k : ℕ) (p : SlabPool) : Option SlabPool :=
  let page := p.cells (.page k)
  freeMap .big (page.next = none) mapMask mapShift (page.slab &&& shiftMask).toNat a k p

def freeRun (a k : ℕ) (p : SlabPool) : Option SlabPool :=
  let slab := (p.cells (.page k)).slab
  if a &&& (pagesize - 1) ≠ 0 then
    some p
  else if slab = 0 ∨ slab = busyMap then
    some p
  else
    freePages k (slab &&& ~~~startBit).toNat p

def freeLocked (a : ℕ) (p : SlabPool) : Option SlabPool :=
  if a < p.start ∨ p.stop < a then
    some p
  else
    let k := (a - p.start) >>> pagesizeShift
    match (p.cells (.page k)).prev.type with
    | .small => freeSmall a k p
    | .exact => freeExact a k p
    | .big   => freeBig a k p
    | .page  => freeRun a k p

end Chunks

end Slab
