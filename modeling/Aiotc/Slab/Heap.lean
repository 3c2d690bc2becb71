import Aiotc.Library.Blocks
import Aiotc.Library.Run
import Aiotc.Slab.Free

-- What the processes that share a pool can rely on: the blocks that they hold are theirs alone and
-- keep what is written to them, and when all are given back nothing of the pool is lost.

open Tiling

namespace Slab

namespace Inv

variable {p p' : SlabPool} {v : View} {a n x : ℕ} {w : BitVec 64}

-- The processes write to their blocks without the semaphore of the pool.
theorem write (h : Inv p v) (hx : v.book.Owned p.start x) : Inv (p.setWord x w) v := by
  refine ⟨⟨h.repr.shift, h.repr.start, h.repr.stop, h.repr.pages, h.repr.tiles, fun y hy => ?_,
    h.repr.lists, h.repr.mem, h.repr.lone⟩, h.sound⟩
  obtain ⟨k, y⟩ := y
  have hr := h.repr.records _ hy
  cases y
  case free  => exact hr
  case pages => exact hr
  case loose => exact hr
  case chunks shift used =>
    have ⟨h₀, h₁, hty, hsize, hbits⟩ := hr
    refine ⟨h₀, h₁, hty, hsize, fun i hi => ?_⟩
    rw [← hbits i hi, mapBit, mapBit]
    split
    case isFalse => rfl
    case isTrue hs =>
      have h₃ : 3 ≤ shift := Nat.le_trans h.minShift_pos h₀
      have hn : i / 64 < mapWords shift := by
        rw [mapWidth_of_small hs] at hi
        omega
      have hm := Repr.mapWord_mem (p := p) (k := k) h₃ hs hn
      have hle := Repr.reserved_mul_le (p := p) (k := k) h₃ h₁
      -- The map is in no block.
      have hne : p.addr k + 8 * (i / 64) ≠ x := by
        rintro rfl
        simp only [addr_eq, Nat.add_mul] at hm hle
        rw [addr_eq] at hx
        exact Book.not_owned_of_chunks h.sound hy hm.left hm.right (by omega) hx
      change (Function.update p.mem x w (p.addr k + 8 * (i / 64))).getLsbD _ = _
      rw [Function.update_of_ne hne]

theorem live_mod (h : Inv p v) (hl : v.book.Live p.start a n) : a % 2 ^ p.minShift = 0 := by
  obtain ⟨⟨k, x⟩, hx, hb⟩ := hl
  have hd : 2 ^ p.minShift ∣ pagesize := Nat.pow_dvd_pow 2 (Nat.le_of_lt h.repr.shift.right)
  have hs : 2 ^ p.minShift ∣ p.start + k * pagesize := by
    have hstart := Nat.dvd_of_mod_eq_zero h.repr.start.right
    exact Nat.dvd_add (hd.trans hstart) (hd.trans (Nat.dvd_mul_left ..))
  have hv := h.sound.valid _ hx
  cases x
  case free  => cases hb
  case loose => cases hb
  case pages =>
    obtain ⟨rfl, _⟩ := hb
    exact Nat.mod_eq_zero_of_dvd hs
  case chunks shift used =>
    obtain ⟨i, _, _, rfl, _⟩ := hb
    have hi : 2 ^ p.minShift ∣ i * 2 ^ shift :=
      (Nat.pow_dvd_pow 2 hv.left).trans (Nat.dvd_mul_left ..)
    exact Nat.mod_eq_zero_of_dvd (Nat.dvd_add hs hi)

-- Where no block is in use all pages are free, in one piece.
theorem book_eq_of_empty (h : Inv p v) (hp : 0 < p.realPages)
    (he : ∀ a n, ¬v.book.Live p.start a n) : v.book = [(0, .free p.realPages)] := by
  have hfree : ∀ y ∈ v.book, y.2.isFree := by
    rintro ⟨k, y⟩ hy
    have hv := h.sound.valid _ hy
    cases y
    case free   => rfl
    case loose  => cases hv
    case pages m => exact absurd ⟨_, hy, rfl, rfl⟩ (he _ _)
    case chunks shift used =>
      have ⟨_, _, _, _, i, hi, hr⟩ := hv
      exact absurd ⟨_, hy, i, hi, hr, rfl, rfl⟩ (he _ _)
  have ht := h.repr.tiles
  have hm := h.sound.merged
  match hb : v.book with
  | [] =>
    rw [hb] at ht
    have : 0 = p.realPages := ht
    omega
  | [(k, y)] =>
    rw [hb] at ht hfree
    have hy := hfree (k, y) (by simp)
    cases y <;> simp [Span.isFree] at hy
    case free m =>
      obtain ⟨rfl, -, hl⟩ := ht
      have hl : 0 + m = p.realPages := hl
      rw [← hl, Nat.zero_add]
  | y :: z :: l =>
    rw [hb] at hm hfree
    have hy := hfree y (by simp)
    have hz := hfree z (by simp)
    exact absurd ⟨hy, hz⟩ (List.isChain_cons_cons.mp hm).left

end Inv

theorem sizePages_le {size n : ℕ} (hs : maxSize ≤ size) (h : size ≤ n * pagesize) :
    sizePages size ≤ n := by
  have := (sizePages_spec hs).right.right
  rw [← Nat.lt_succ_iff, ← Nat.mul_lt_mul_right (a := pagesize) (by decide), Nat.succ_mul]
  omega

-- Then every request is served that the pages are enough for.
theorem Inv.room_of_empty {p : SlabPool} {v : View} {size : ℕ} (h : Inv p v)
    (hp : 0 < p.realPages) (he : ∀ a n, ¬v.book.Live p.start a n)
    (hs : size ≤ p.realPages * pagesize) : v.book.Room p.minShift size := by
  rw [h.book_eq_of_empty hp he, Book.Room]
  split
  case isTrue hl  => exact ⟨0, p.realPages, by simp, sizePages_le hl hs⟩
  case isFalse hl => exact .inl ⟨0, p.realPages, by simp⟩

-- A pool in use. `held` are the blocks that are held with their sizes as they were asked for, and
-- `data` is what a process last saw in the words of its blocks, or wrote there.
structure Heap where
  pool : SlabPool
  held : Blocks ℕ ℕ
  data : ℕ → BitVec 64

inductive Op
  | malloc (size : ℕ)
  | free (a : ℕ)
  | write (x : ℕ) (w : BitVec 64)

namespace Heap

-- The processes free and write to what they hold.
inductive Step : Heap → Op → Heap → Prop
  | malloc {s : Heap} {size a : ℕ} {p : SlabPool} :
    allocLocked size s.pool = some (some a, p) →
    Step s (.malloc size) ⟨p, Function.update s.held a (some size),
      fun x => if a ≤ x ∧ x < a + size then p.mem x else s.data x⟩
  | fail {s : Heap} {size : ℕ} {p : SlabPool} :
    allocLocked size s.pool = some (none, p) →
    Step s (.malloc size) { s with pool := p }
  | free {s : Heap} {a n : ℕ} {p : SlabPool} :
    s.held a = some n → freeLocked a s.pool = some p →
    Step s (.free a) ⟨p, Blocks.free a s.held, s.data⟩
  | write {s : Heap} {a n x : ℕ} {w : BitVec 64} :
    s.held a = some n → a ≤ x → x < a + n →
    Step s (.write x w) ⟨s.pool.setWord x w, s.held, Function.update s.data x w⟩

-- `v` is the book of the pool.
structure Keeps (s : Heap) (v : View) : Prop where
  inv  : Inv s.pool v
  held : ∀ a n, s.held a = some n → v.book.Live s.pool.start a (blockSize s.pool.minShift n)
  live : ∀ a n, v.book.Live s.pool.start a n → s.held a ≠ none
  data : ∀ a n, s.held a = some n → ∀ x, a ≤ x → x < a + n → s.data x = s.pool.mem x

-- What a process can rely on.
structure Safe (s : Heap) : Prop where
  inside : ∀ a n, s.held a = some n → 0 < a ∧ s.pool.start ≤ a ∧
    a + n ≤ s.pool.start + s.pool.realPages * pagesize ∧ a % 2 ^ s.pool.minShift = 0
  apart  : ∀ a b n m, s.held a = some n → s.held b = some m → a ≠ b → a + n ≤ b ∨ b + m ≤ a
  data   : ∀ a n, s.held a = some n → ∀ x, a ≤ x → x < a + n → s.data x = s.pool.mem x
  malloc : ∀ size, ∃ r, allocLocked size s.pool = some r
  free   : ∀ a n, s.held a = some n → ∃ p, freeLocked a s.pool = some p

section

variable {s s' : Heap} {v : View} {op : Op} {a n x : ℕ}

namespace Keeps

theorem owned (h : Keeps s v) (ha : s.held a = some n) (h₁ : a ≤ x) (h₂ : x < a + n) :
    v.book.Owned s.pool.start x := by
  have hle := le_blockSize n h.inv.repr.shift.right
  exact ⟨a, _, h.held a n ha, h₁, by omega⟩

theorem apart (h : Keeps s v) {b m : ℕ} (ha : s.held a = some n) (hb : s.held b = some m)
    (hab : a ≠ b) : a + n ≤ b ∨ b + m ≤ a := by
  have hn := le_blockSize n h.inv.repr.shift.right
  have hm := le_blockSize m h.inv.repr.shift.right
  rcases (h.held a n ha).apart h.inv.sound (h.held b m hb) with ⟨he, _⟩ | h | h
  · exact absurd he hab
  · exact .inl (by omega)
  · exact .inr (by omega)

theorem safe (h : Keeps s v) : s.Safe where
  inside a n ha := by
    have hb := (h.held a n ha).bounds h.inv.sound
    have hn := le_blockSize n h.inv.repr.shift.right
    have hs := h.inv.repr.start.left
    exact ⟨by omega, hb.left, by omega, h.inv.live_mod (h.held a n ha)⟩
  apart a b n m ha hb hab := h.apart ha hb hab
  data          := h.data
  malloc size   := by
    have ⟨res, p, hp, _⟩ := h.inv.alloc_spec size
    exact ⟨_, hp⟩
  free a n ha   := by
    have ⟨p, _, hp, _⟩ := h.inv.free_live (h.held a n ha)
    exact ⟨p, hp⟩

-- A pool that was just made, for its processes
theorem init {minShift pool stop : ℕ} (cells : Cells) (mem : ℕ → BitVec 64)
    (h : Enough minShift pool stop) (hf : Fits minShift pool stop) :
    ∃ v, Keeps ⟨Slab.init minShift pool stop cells mem, fun _ => none, mem⟩ v := by
  refine ⟨_, init_inv cells mem h hf, by simp, fun a n hl => ?_, by simp⟩
  obtain ⟨x, hx, hb⟩ := hl
  cases List.mem_singleton.mp hx
  cases hb

-- What one step preserves.
theorem step (h : Keeps s v) (hs : Step s op s') : ∃ v', Keeps s' v' := by
  cases hs
  case malloc size a p hp =>
    obtain ⟨res, p', hp', hpost⟩ := h.inv.alloc_spec size
    cases hp.symm.trans hp'
    obtain ⟨_, v', hg⟩ := hpost
    have hst := hg.steady
    have hle := le_blockSize size h.inv.repr.shift.right
    have hnew : v'.book.Live p.start a (blockSize s.pool.minShift size) := by
      rw [hst.start]
      exact (hg.live _ _).mpr (.inr ⟨rfl, rfl⟩)
    have hcases {b n : ℕ} (hb : Function.update s.held a (some size) b = some n) :
        (b = a ∧ n = size) ∨ (b ≠ a ∧ s.held b = some n) := by
      by_cases hba : b = a
      case pos =>
        rw [hba, Function.update_self] at hb
        exact .inl ⟨hba, (Option.some.inj hb).symm⟩
      case neg => exact .inr ⟨hba, by rwa [Function.update_of_ne hba] at hb⟩
    refine ⟨v', hg.inv, fun b n hb => ?_, fun b n hb => ?_, fun b n hb x h₁ h₂ => ?_⟩
    · simp only [hst.minShift]
      rcases hcases hb with ⟨rfl, rfl⟩ | ⟨_, hb⟩
      · exact hnew
      · rw [hst.start]
        exact (hg.live _ _).mpr (.inl (h.held b n hb))
    · simp only [hst.start] at hb ⊢
      by_cases hba : b = a
      case pos => simp [hba]
      case neg =>
        rw [Function.update_of_ne hba]
        rcases (hg.live _ _).mp hb with hb | ⟨rfl, _⟩
        · exact h.live b n hb
        · exact absurd rfl hba
    · rcases hcases hb with ⟨rfl, rfl⟩ | ⟨hba, hb⟩
      case inl => exact if_pos ⟨h₁, h₂⟩
      case inr =>
        -- The new block is apart from those that are held.
        have hold := h.held b n hb
        have hn := le_blockSize n h.inv.repr.shift.right
        have hlive : v'.book.Live p.start b (blockSize s.pool.minShift n) := by
          rw [hst.start]
          exact (hg.live _ _).mpr (.inl hold)
        have hout : ¬(a ≤ x ∧ x < a + size) := by
          rcases hlive.apart hg.inv.sound hnew with ⟨he, _⟩ | h | h
          · exact absurd he hba
          · omega
          · omega
        refine (if_neg hout).trans ?_
        rw [hst.mem x (h.owned hb h₁ h₂)]
        exact h.data b n hb x h₁ h₂
  case fail size p hp =>
    obtain ⟨res, p', hp', hpost⟩ := h.inv.alloc_spec size
    cases hp.symm.trans hp'
    cases hpost.left
    exact ⟨v, h⟩
  case free a n p ha hp =>
    obtain ⟨p', v', hp', ht⟩ := h.inv.free_live (h.held a n ha)
    cases hp.symm.trans hp'
    have hst := ht.steady
    have hcases {b m : ℕ} (hb : Blocks.free a s.held b = some m) : b ≠ a ∧ s.held b = some m := by
      by_cases hba : b = a
      case pos => simp [Blocks.free, hba] at hb
      case neg => exact ⟨hba, by rwa [Blocks.free, Function.update_of_ne hba] at hb⟩
    refine ⟨v', ht.inv, fun b m hb => ?_, fun b m hb => ?_, fun b m hb x h₁ h₂ => ?_⟩
    · obtain ⟨hba, hb⟩ := hcases hb
      simp only [hst.start, hst.minShift]
      exact (ht.live _ _).mpr ⟨h.held b m hb, hba⟩
    · simp only [hst.start] at hb
      obtain ⟨hb, hba⟩ := (ht.live _ _).mp hb
      simp only [Blocks.free, Function.update_of_ne hba]
      exact h.live b m hb
    · obtain ⟨_, hb⟩ := hcases hb
      simp only [hst.mem x (h.owned hb h₁ h₂)]
      exact h.data b m hb x h₁ h₂
  case write a n x w ha h₁ h₂ =>
    refine ⟨v, h.inv.write (h.owned ha h₁ h₂), h.held, h.live, fun b m hb y h₃ h₄ => ?_⟩
    by_cases hyx : y = x
    case pos => simp [hyx, SlabPool.setWord]
    case neg =>
      simp only [SlabPool.setWord, Function.update_of_ne hyx]
      exact h.data b m hb y h₃ h₄

end Keeps

-- The pool of 16 KiB
def fresh : Heap :=
  ⟨sixteenK, fun _ => none, fun _ => 0⟩

theorem keeps_fresh : ∃ v, Keeps fresh v :=
  Keeps.init _ _ enough_sixteenK (by decide)

variable {tr : List (Heap × Op)}

theorem always_keeps (r : Run Step s tr s') (h : ∃ v, Keeps s v) :
    Run.Always (fun s => ∃ v, Keeps s v) tr s' :=
  Run.always_of_meets (C := fun _ _ => True) (fun _ _ _ ⟨_, h⟩ _ hs => h.step hs) r h
    fun _ _ => trivial

-- In every run, whatever the processes do with their blocks
theorem always_safe (r : Run Step s tr s') (h : ∃ v, Keeps s v) : Run.Always Safe tr s' :=
  (always_keeps r h).mono fun _ ⟨_, h⟩ => h.safe

-- A run in which a block is had and given back.
theorem exists_run : ∃ tr s a, Run Step fresh tr s ∧ tr.map Prod.snd = [.malloc 100, .free a] ∧
    s.held = fun _ => none := by
  have ⟨v, h⟩ := keeps_fresh
  have hroom : v.book.Room fresh.pool.minShift 100 :=
    h.inv.room_of_empty (by decide) (fun a n hl => h.live a n hl rfl) (by decide)
  have ⟨a, p, hp⟩ := (h.inv.alloc_iff 100).mpr hroom
  have ⟨_, h'⟩ := h.step (.malloc hp)
  have ⟨q, hq⟩ := h'.safe.free a 100 (Function.update_self ..)
  refine ⟨_, _, a, .step (.malloc hp) (.step (.free (Function.update_self ..) hq) .refl), rfl, ?_⟩
  simp [Blocks.free, fresh]

theorem always_safe_fresh :
    ∃ (tr : List (Heap × Op)) (s : Heap), tr.length = 2 ∧ Run.Always Safe tr s := by
  have ⟨tr, s, a, r, hl, _⟩ := exists_run
  refine ⟨tr, s, ?_, always_safe r keeps_fresh⟩
  simpa using congrArg List.length hl

-- The pages stay what they were.
theorem realPages_eq (r : Run Step s tr s') (h : ∃ v, Keeps s v) :
    s'.pool.realPages = s.pool.realPages := by
  have hr := Run.invariant (I := fun t => (∃ v, Keeps t v) ∧
    t.pool.realPages = s.pool.realPages) ?_ r ⟨h, rfl⟩
  · exact hr.right
  · rintro t op t' ⟨⟨v, hv⟩, ht⟩ hs
    refine ⟨hv.step hs, ?_⟩
    rw [← ht]
    cases hs
    case malloc size a p hp =>
      have ⟨res, p', hp', hpost⟩ := hv.inv.alloc_spec size
      cases hp.symm.trans hp'
      have ⟨_, _, hg⟩ := hpost
      exact hg.steady.realPages
    case fail size p hp =>
      have ⟨res, p', hp', hpost⟩ := hv.inv.alloc_spec size
      cases hp.symm.trans hp'
      rw [hpost.left]
    case free a n p ha hp =>
      have ⟨p', v', hp', ht⟩ := hv.inv.free_live (hv.held a n ha)
      cases hp.symm.trans hp'
      exact ht.steady.realPages
    case write => rfl

-- Nothing leaks and nothing stays in pieces: once all blocks are given back, any block that fits in
-- the pages can be had.
theorem malloc_of_run (r : Run Step s tr s') (h : ∃ v, Keeps s v) (hp : 0 < s.pool.realPages)
    (he : ∀ a, s'.held a = none) {size : ℕ} (hs : size ≤ s.pool.realPages * pagesize) :
    ∃ a p, allocLocked size s'.pool = some (some a, p) := by
  have hr := realPages_eq r h
  have ⟨v, hv⟩ := (always_keeps r h).last
  have ⟨res, p, hres, hpost⟩ := hv.inv.alloc_spec size
  cases res
  case some a => exact ⟨a, p, hres⟩
  case none   =>
    refine absurd (hv.inv.room_of_empty (hr ▸ hp) (fun a n hl => ?_) (hr ▸ hs)) hpost.right
    exact hv.live a n hl (he a)

theorem malloc_of_run_fresh : ∃ s a p, allocLocked (2 * pagesize) s = some (some a, p) := by
  have ⟨tr, s, _, r, _, he⟩ := exists_run
  have ⟨a, p, hp⟩ : ∃ a p, allocLocked (2 * pagesize) s.pool = some (some a, p) :=
    malloc_of_run r keeps_fresh (by decide) (fun a => congrFun he a) (by decide)
  exact ⟨s.pool, a, p, hp⟩

end

end Heap

end Slab
