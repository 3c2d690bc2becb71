import Aiotc.Slab.Alloc
import Mathlib.Data.Finset.Basic
import Mathlib.Tactic.IntervalCases

-- `ncx_slab_free_locked` takes back the block that starts at the given place. Where none does,
-- nothing is lost, unless the place is that of the map of a page.

open Tiling

namespace Slab

namespace Book

variable {minShift realPages start a n k : ℕ} {x y : Span} {l m b : Book}

-- The spans around one span
theorem Sound.parts (hb : Sound minShift realPages (l ++ (k, x) :: m)) :
    (∀ y ∈ l, y.2.Valid minShift) ∧ (∀ y ∈ m, y.2.Valid minShift) ∧ Merged l ∧ Merged m := by
  have ⟨h₁, h₂, _⟩ := merged_iff.mp hb.merged
  exact ⟨fun y hy => hb.valid y (by simp [hy]), fun y hy => hb.valid y (by simp [hy]), h₁, h₂⟩

theorem Sound.outside (hb : Sound minShift realPages (l ++ (k, x) :: m))
    (h : l.Live start a n ∨ m.Live start a n) :
    a < start + k * pagesize ∨ start + (k + x.len) * pagesize ≤ a := by
  have ⟨h₁, _, h₂⟩ := hb.tiles.split
  rcases h with ⟨y, hy, h⟩ | ⟨y, hy, h⟩
  · have hl := h₁.bounds hy
    have ⟨_, hp, hle⟩ := h.bounds (hb.parts.left y hy) hl.right.left
    have := Nat.mul_le_mul_right pagesize hl.right.right
    rw [Nat.add_mul] at this
    simp only at this
    omega
  · have hl := h₂.bounds hy
    have ⟨hle, _⟩ := h.bounds (hb.parts.right.left y hy) hl.right.left
    have := Nat.mul_le_mul_right pagesize hl.left
    simp only at this
    omega

-- What is left of the blocks when those of one span that start at `a` are gone.
theorem Sound.live_except (hb : Sound minShift realPages (l ++ (k, x) :: m)) {P : ℕ → ℕ → Prop}
    (hP : ∀ c i, P c i ↔ x.Block (start + k * pagesize) c i ∧ c ≠ a)
    (h₁ : start + k * pagesize ≤ a) (h₂ : a < start + (k + x.len) * pagesize) (c i : ℕ) :
    (l.Live start c i ∨ P c i ∨ m.Live start c i) ↔
      (l ++ (k, x) :: m).Live start c i ∧ c ≠ a := by
  have ho (h : l.Live start c i ∨ m.Live start c i) : c ≠ a := by
    have := hb.outside h
    omega
  rw [live_append, live_cons, hP]
  tauto

end Book

-- A block is not in use any more, if there was one.
structure Took (p p' : SlabPool) (v v' : View) (a : ℕ) : Prop where
  inv    : Inv p' v'
  steady : Steady p p' v.book
  live   : ∀ c i, v'.book.Live p.start c i ↔ v.book.Live p.start c i ∧ c ≠ a

section Addresses

variable {p : SlabPool} {v : View} {a i k shift : ℕ}

theorem addr_mod (h : Repr p v) : p.addr k % pagesize = 0 := by
  rw [addr_eq, Nat.add_mul_mod_self_right, h.start.right]

theorem and_mask (n : ℕ) : a &&& (1 <<< n - 1) = a % 2 ^ n := by
  rw [Nat.shiftLeft_eq, Nat.one_mul, Nat.and_two_pow_sub_one_eq_mod]

theorem and_pagesize : a &&& (pagesize - 1) = a % pagesize :=
  and_mask 12

-- The page of an address and where in the page it is.
theorem exists_offset (h : Repr p v) (ha : p.start ≤ a) (hk : k = (a - p.start) >>> pagesizeShift) :
    a = p.addr k + a % pagesize := by
  have hd : (a - p.start) >>> pagesizeShift = (a - p.start) / pagesize :=
    Nat.shiftRight_eq_div_pow ..
  have hs := h.start.right
  have hp : pagesize = 4096 := rfl
  rw [hd] at hk
  rw [hp] at hs hk
  rw [addr_eq, hp]
  omega

theorem mod_of_offset (hs : shift < pagesizeShift) :
    a % 2 ^ shift = a % pagesize % 2 ^ shift := by
  have hd : 2 ^ shift ∣ pagesize := Nat.pow_dvd_pow 2 (Nat.le_of_lt hs)
  rw [Nat.mod_mod_of_dvd _ hd]

-- An address that is not a multiple of the size of the chunks is not one of a chunk.
theorem chunk_of_offset (hs : shift < pagesizeShift) (ha : a = p.addr k + a % pagesize)
    (hc : a = p.addr k + i * 2 ^ shift) : a % 2 ^ shift = 0 ∧ a % pagesize / 2 ^ shift = i := by
  have hm : a % pagesize = i * 2 ^ shift := by omega
  rw [mod_of_offset hs, hm, Nat.mul_mod_left, Nat.mul_div_cancel _ (Nat.two_pow_pos shift)]
  exact ⟨rfl, rfl⟩

theorem offset_of_mod (hs : shift < pagesizeShift) (ha : a = p.addr k + a % pagesize)
    (hm : a % 2 ^ shift = 0) :
    a = p.addr k + a % pagesize / 2 ^ shift * 2 ^ shift ∧
      a % pagesize / 2 ^ shift < chunkCount shift := by
  rw [mod_of_offset hs] at hm
  have hd := Nat.div_add_mod' (a % pagesize) (2 ^ shift)
  rw [hm, Nat.add_zero] at hd
  rw [hd]
  refine ⟨ha, (Nat.div_lt_iff_lt_mul (Nat.two_pow_pos shift)).mpr ?_⟩
  rw [chunkCount_mul hs]
  exact Nat.mod_lt _ (by decide)

end Addresses

theorem addr_setWord {p : SlabPool} {c : Cells} {k a : ℕ} {w : BitVec 64} :
    ({ p with cells := c }.setWord a w).addr k = p.addr k :=
  rfl

namespace Inv

variable {p p' p₁ : SlabPool} {v : View} {lists : Ref → List Ref} {l m : Book} {x : Span}
  {a i k n shift : ℕ} {used : Finset ℕ}

-- No block starts at `a`.
theorem took_nothing (h : Inv p ⟨l ++ (k, x) :: m, lists⟩)
    (ha : p.addr k ≤ a ∧ a < p.addr (k + x.len))
    (hx : ∀ n, ¬x.Block (p.addr k) a n) :
    Took p p ⟨l ++ (k, x) :: m, lists⟩ ⟨l ++ (k, x) :: m, lists⟩ a := by
  rw [addr_eq, addr_eq] at ha
  rw [addr_eq] at hx
  refine ⟨h, ⟨rfl, rfl, rfl, rfl, fun _ _ => rfl⟩, fun c i => ?_⟩
  rw [← h.sound.live_except (P := x.Block (p.start + k * pagesize)) ?_ ha.left ha.right,
    Book.live_append, Book.live_cons]
  rintro c i
  refine ⟨fun hb => ⟨hb, ?_⟩, And.left⟩
  rintro rfl
  exact hx i hb

-- The pages of a span are free.
theorem took_pages (h : Inv p ⟨l ++ (k, x) :: m, lists⟩) {y : Span} {lists' : Ref → List Ref}
    (hr : Repr p₁ ⟨l ++ (k, y) :: m, lists'⟩) (hl : y.len = x.len) (hy : ∀ i, y ≠ .loose i)
    (hs : Steady p p₁ (l ++ (k, x) :: m)) (ha : p.addr k ≤ a ∧ a < p.addr (k + x.len))
    (hx : ∀ c i, x.Block (p.addr k) c i → c = a) :
    ∃ p' v', freePages k x.len p₁ = some p' ∧ Took p p' ⟨l ++ (k, x) :: m, lists⟩ v' a := by
  obtain ⟨hlv, hmv, hlm, hmm⟩ := h.sound.parts
  obtain ⟨c, l', us, vs, m', j, i, lists', hp, hl', hm', hf, hmerged, hr'⟩ :=
    hr.freePages_spec hy (hs.minShift ▸ hlv) (hs.minShift ▸ hmv) hlm hmm
  rw [hl] at hp
  subst hl' hm'
  refine ⟨_, _, hp, ⟨hr', hr'.tiles, ?_, hmerged⟩,
    ⟨hs.minShift, hs.start, hs.stop, hs.realPages, hs.mem⟩, fun c i => ?_⟩
  · intro z hz
    simp only [List.mem_append, List.mem_cons] at hz
    change z.2.Valid p₁.minShift
    rw [hs.minShift]
    rcases hz with hz | rfl | hz
    · exact hlv z (by simp [hz])
    · trivial
    · exact hmv z (by simp [hz])
  · rw [addr_eq, addr_eq] at ha
    rw [addr_eq] at hx
    rw [← h.sound.live_except (P := fun _ _ => False) ?_ ha.left ha.right]
    · have hus : ¬Book.Live p.start us c i := Book.not_live_of_free fun y hy => hf y (by simp [hy])
      have hvs : ¬Book.Live p.start vs c i := Book.not_live_of_free fun y hy => hf y (by simp [hy])
      simp only [Book.live_append, Book.live_cons, hus, hvs, or_false, false_or, Span.Block]
    · intro c i
      exact ⟨False.elim, fun hb => hb.right (hx c i hb.left)⟩

-- What the descriptor of the first page of a span says, with the mark of its start or without.
theorem run_slab {w : BitVec 64} (hn : 0 < n) (hn' : n < 2 ^ 52)
    (hw : w = .ofNat 64 n ∨ w = .ofNat 64 n ||| startBit) :
    w ≠ 0 ∧ w ≠ busyMap ∧ (w &&& ~~~startBit).toNat = n := by
  have hbit (j : ℕ) (hj : 52 ≤ j) : n.testBit j = false :=
    Nat.testBit_lt_two_pow (Nat.lt_of_lt_of_le hn' (Nat.pow_le_pow_right (by decide) hj))
  have hlow (j : ℕ) (hj : j < 63) : w.getLsbD j = n.testBit j := by
    have hj' : j < 64 := Nat.lt_succ_of_lt hj
    rcases hw with rfl | rfl
    · rw [BitVec.getLsbD_ofNat, decide_eq_true hj', Bool.true_and]
    · rw [BitVec.getLsbD_or, startBit, getLsbD_bit, BitVec.getLsbD_ofNat, decide_eq_true hj',
        decide_eq_false (Nat.ne_of_lt hj), Bool.and_false, Bool.true_and, Bool.or_false]
  have hclear : w &&& ~~~startBit = .ofNat 64 n := by
    apply BitVec.eq_of_getLsbD_eq
    intro j hj
    rw [BitVec.getLsbD_and, BitVec.getLsbD_not, startBit, getLsbD_bit, BitVec.getLsbD_ofNat]
    by_cases h : j = 63
    case pos => simp [h, hbit 63]
    case neg =>
      rw [hlow j (by omega)]
      simp [h, hj]
  refine ⟨fun hc => ?_, fun hc => ?_, ?_⟩
  · rw [hc] at hclear
    exact Repr.ofNat_ne_zero (by omega) hn (hclear.symm.trans (BitVec.zero_and ..))
  · have h := eq_busyMap_iff.mp hc 62 (by decide)
    rw [hlow 62 (by decide), hbit 62 (by decide)] at h
    cases h
  · rw [hclear, Repr.toNat_ofNat (by omega)]

-- A span of pages, or one that is free already.
theorem freeRun_spec (h : Inv p v) (hx : (i, x) ∈ v.book) (hik : i ≤ k) (hki : k < i + x.len)
    (hk : k = (a - p.start) >>> pagesizeShift) (ha : p.start ≤ a)
    (ht : x = .free n ∨ x = .pages n) :
    ∃ p' v', freeRun a k p = some p' ∧ Took p p' v v' a := by
  have hrec := h.repr.records _ hx
  have hb := (h.repr.tiles.bounds hx).right
  have hpages := h.repr.pages
  have hoff := exists_offset h.repr ha hk
  have hmod : a % pagesize < pagesize := Nat.mod_lt _ (by decide)
  have hlen : x.len = n := by rcases ht with rfl | rfl <;> rfl
  obtain ⟨b, lists⟩ := v
  have ⟨l, m, he⟩ := List.append_of_mem hx
  cases he
  have h₁ := Nat.mul_le_mul_right pagesize hik
  have h₂ := Nat.mul_le_mul_right pagesize (Nat.succ_le_of_lt hki)
  rw [Nat.succ_mul] at h₂
  have hin : p.addr i ≤ a ∧ a < p.addr (i + x.len) := by
    simp only [addr_eq] at hoff ⊢
    omega
  -- Only at its first byte does a span have a block.
  have hblock (c q : ℕ) (hc : x.Block (p.addr i) c q) : c = p.addr i := by
    rcases ht with rfl | rfl
    · cases hc
    · exact hc.left
  by_cases hal : a % pagesize = 0
  case neg =>
    refine ⟨p, _, if_pos (by rwa [and_pagesize]), h.took_nothing hin fun q hq => hal ?_⟩
    rw [hblock a q hq]
    exact addr_mod h.repr
  case pos =>
    have hrun : freeRun a k p = if slabOf p.cells k = 0 ∨ slabOf p.cells k = busyMap then some p
        else freePages k (slabOf p.cells k &&& ~~~startBit).toNat p :=
      if_neg (by rw [and_pagesize, hal]; simp)
    rw [hrun]
    by_cases hki' : k = i
    case neg =>
      have hs : slabOf p.cells k = 0 ∨ slabOf p.cells k = busyMap := by
        rcases ht with rfl | rfl
        · exact .inl (hrec.right.right k (by omega) hki).left
        · exact .inr (hrec.right.right k (by omega) hki).left
      refine ⟨p, _, if_pos hs, h.took_nothing hin fun q hq => ?_⟩
      have := hblock a q hq
      have := Nat.mul_le_mul_right pagesize (show i + 1 ≤ k by omega)
      rw [Nat.succ_mul] at this
      have hp : pagesize = 4096 := rfl
      simp only [addr_eq] at *
      omega
    case pos =>
      subst hki'
      have hs : slabOf p.cells k = .ofNat 64 n ∨ slabOf p.cells k = .ofNat 64 n ||| startBit := by
        rcases ht with rfl | rfl
        · exact .inl hrec.left
        · exact .inr hrec.left
      simp only [hlen] at hb
      have ⟨hs₁, hs₂, hs₃⟩ := run_slab hb.left (by omega) hs
      rw [if_neg (not_or.mpr ⟨hs₁, hs₂⟩), hs₃, ← hlen]
      refine h.took_pages h.repr rfl ?_ ⟨rfl, rfl, rfl, rfl, fun _ _ => rfl⟩ hin fun c q hc => ?_
      · rcases ht with rfl | rfl <;> simp
      · rw [hblock c q hc, hoff, hal, Nat.add_zero]

-- A chunk of the page at `k` is given back, and the page is free if it was the last one.
theorem took_chunk (h : Inv p ⟨l ++ (k, .chunks shift used) :: m, lists⟩) (hi : i ∈ used)
    (hri : reserved shift ≤ i) (ha : a = p.addr k + i * 2 ^ shift) {lists' : Ref → List Ref}
    (hr : Repr p₁ ⟨l ++ (k, .chunks shift (used.erase i)) :: m, lists'⟩)
    (hb : Repr.Beside k shift p p₁) {b : Prop} [Decidable b]
    (hne : b ↔ ∃ j ∈ used.erase i, reserved shift ≤ j) :
    ∃ p' v', (if b then some p₁ else freePages k 1 p₁) = some p' ∧
      Took p p' ⟨l ++ (k, .chunks shift used) :: m, lists⟩ v' a := by
  have hx : (k, .chunks shift used) ∈ l ++ (k, .chunks shift used) :: m := by simp
  obtain ⟨hs, hs', hsub, hres, -⟩ := h.sound.valid _ hx
  have h₃ : 3 ≤ shift := Nat.le_trans h.minShift_pos hs
  have hle := Repr.reserved_mul_le (p := p) (k := k) h₃ hs'
  have hpos := Nat.two_pow_pos shift
  have hin : p.addr k ≤ a ∧ a < p.addr (k + 1) := by
    have := chunk_le hs' (Finset.mem_range.mp (hsub hi))
    simp only [addr_eq, Nat.add_mul] at ha ⊢
    omega
  have hsteady : Steady p p₁ (l ++ (k, .chunks shift used) :: m) := by
    refine ⟨hb.minShift, hb.start, hb.stop, hb.realPages, fun c hc => hb.mem c fun hm => ?_⟩
    rw [addr_eq] at hm
    simp only [addr_eq, Nat.add_mul] at hle
    exact Book.not_owned_of_chunks h.sound hx hm.left hm.right (by omega) hc
  have heq (j : ℕ) (hj : p.addr k + j * 2 ^ shift = a) : j = i :=
    Nat.eq_of_mul_eq_mul_right hpos (by omega)
  by_cases hlast : ∃ j ∈ used.erase i, reserved shift ≤ j
  case pos =>
    refine ⟨p₁, _, if_pos (hne.mpr hlast), ⟨hr, ?_⟩, hsteady, fun c n => ?_⟩
    · rw [hb.minShift, hb.realPages]
      refine h.sound.of_tiles (hb.realPages ▸ hr.tiles)
        ⟨hs, hs', (Finset.erase_subset ..).trans hsub, fun j hj => ?_, hlast⟩ rfl
      refine Finset.mem_erase.mpr ⟨?_, hres hj⟩
      have := Finset.mem_range.mp hj
      omega
    · rw [addr_eq, addr_eq] at hin
      rw [← h.sound.live_except (P := (Span.chunks shift (used.erase i)).Block _) ?_ hin.left
        hin.right, Book.live_append, Book.live_cons]
      intro c n
      rw [addr_eq] at ha heq
      constructor
      · rintro ⟨j, hj, hjr, rfl, rfl⟩
        have ⟨hji, hj⟩ := Finset.mem_erase.mp hj
        exact ⟨⟨j, hj, hjr, rfl, rfl⟩, fun hc => hji (heq j hc)⟩
      · rintro ⟨⟨j, hj, hjr, rfl, rfl⟩, hc⟩
        refine ⟨j, Finset.mem_erase.mpr ⟨?_, hj⟩, hjr, rfl, rfl⟩
        rintro rfl
        exact hc ha.symm
  case neg =>
    rw [if_neg (hne.not.mpr hlast)]
    refine h.took_pages (x := .chunks shift used) hr rfl (by simp) hsteady hin fun c n hc => ?_
    obtain ⟨j, hj, hjr, rfl, rfl⟩ := hc
    have : j = i := by
      by_contra hji
      exact hlast ⟨j, Finset.mem_erase.mpr ⟨hji, hj⟩, hjr⟩
    rw [this, ha]

-- Only the chunks in use are blocks.
theorem took_no_chunk (h : Inv p ⟨l ++ (k, .chunks shift used) :: m, lists⟩)
    (hoff : a = p.addr k + a % pagesize)
    (ha : a % 2 ^ shift = 0 → a % pagesize / 2 ^ shift ∉ used) :
    Took p p ⟨l ++ (k, .chunks shift used) :: m, lists⟩ ⟨l ++ (k, .chunks shift used) :: m, lists⟩
      a := by
  have hx : (k, .chunks shift used) ∈ l ++ (k, .chunks shift used) :: m := by simp
  obtain ⟨-, hs', -⟩ := h.sound.valid _ hx
  have hmod : a % pagesize < pagesize := Nat.mod_lt _ (by decide)
  refine h.took_nothing ?_ ?_
  · simp only [addr_eq, Span.len_chunks, Nat.add_mul] at hoff ⊢
    omega
  · rintro n ⟨j, hj, _, hc, _⟩
    have ⟨hm, hd⟩ := chunk_of_offset hs' hoff hc
    exact ha hm (hd ▸ hj)

theorem erase_ne (hu : used ⊆ .range (chunkCount shift)) (hi : i ∈ used) :
    used.erase i ≠ .range (chunkCount shift) := by
  intro hc
  have := hc ▸ hu hi
  exact absurd rfl (Finset.mem_erase.mp this).left

theorem next_none_iff (h : Repr p v) (hx : (k, .chunks shift used) ∈ v.book) :
    (p.cells (.page k)).next = none ↔ used = .range (chunkCount shift) := by
  constructor
  case mp =>
    intro hn
    by_contra hf
    have ⟨_, q, _, hq⟩ := h.exists_links (h.mem_of_home hx (Repr.home_of_not_full hf))
    simp only [nextOf] at hq
    cases hn.symm.trans hq
  case mpr =>
    intro hf
    have hb := (h.tiles.bounds hx).right
    simp only [Span.len_chunks] at hb
    refine (h.lone k (by omega) (fun s => h.not_mem_of_home hx (Repr.home_of_full hf))
      fun i hi => ?_).left
    cases h.tiles.eq_of_start hx hi rfl

theorem shift_and (n : ℕ) : (a &&& (pagesize - 1)) >>> n = a % pagesize / 2 ^ n := by
  rw [and_pagesize, Nat.shiftRight_eq_div_pow]

theorem freeMap_spec {o : ℕ} {mapMask mask : BitVec 64} {type : SlabType} {full : Bool}
    (h : Inv p ⟨l ++ (k, .chunks shift used) :: m, lists⟩) (hm : MapAt shift o mapMask mask)
    (ht : type = slabType shift) (hfull : full = true ↔ used = .range (chunkCount shift))
    (hoff : a = p.addr k + a % pagesize) :
    ∃ p' v', freeMap type full mapMask o shift a k p = some p' ∧
      Took p p' ⟨l ++ (k, .chunks shift used) :: m, lists⟩ v' a := by
  have hx : (k, .chunks shift used) ∈ l ++ (k, .chunks shift used) :: m := by simp
  obtain ⟨hs, hs', hsub, -⟩ := h.sound.valid _ hx
  have ⟨h₀, h₁, hty, hsize, hbits⟩ := h.repr.records _ hx
  have ho := hm.width
  have hl := chunkCount_le_mapWidth shift
  simp only [hm.bit] at hbits
  by_cases hal : a % 2 ^ shift = 0
  case neg =>
    refine ⟨p, _, if_pos ?_, h.took_no_chunk hoff fun hc => absurd hc hal⟩
    rwa [and_mask]
  case pos =>
    have ⟨ha, hi⟩ := offset_of_mod hs' hoff hal
    have ⟨i, hidef⟩ : ∃ i, i = a % pagesize / 2 ^ shift := ⟨_, rfl⟩
    rw [← hidef] at ha hi
    have hbit : (slabOf p.cells k).getLsbD (i + o) = decide (i ∈ used) := by
      rw [Nat.add_comm, hbits i (by omega)]
    have hrun : freeMap type full mapMask o shift a k p =
        if (slabOf p.cells k).getLsbD (i + o) then
          (if full then relink type (shift - p.minShift) k p.cells else some p.cells).bind fun c =>
            if clearBit (i + o) (slabOf c k) &&& mapMask ≠ 0 then
              some { p with cells := setSlab (.page k) (clearBit (i + o) (slabOf c k)) c }
            else
              freePages k 1 { p with cells := setSlab (.page k) (clearBit (i + o) (slabOf c k)) c }
        else some p := by
      rw [hidef, ← shift_and]
      refine (if_neg (by rw [and_mask, hal]; simp)).trans ?_
      cases full <;> rfl
    rw [hrun, hbit]
    by_cases hiu : i ∈ used
    case neg =>
      refine ⟨p, _, if_neg (by simpa using hiu), h.took_no_chunk hoff fun _ => hidef ▸ hiu⟩
    case pos =>
      have ⟨c, lists', hc, hcs, hct, hedit⟩ := h.repr.unmark (erase_ne hsub hiu) hfull
      rw [if_pos (by simpa using hiu), ht, hc, Option.bind_some]
      have hio : i + o < 64 := by omega
      have ⟨w, hw⟩ : ∃ w, w = clearBit (i + o) (slabOf c k) := ⟨_, rfl⟩
      rw [← hw]
      have hbits' : ∀ j < mapWidth shift, w.getLsbD (o + j) = decide (j ∈ used.erase i) := by
        intro j hj
        rw [hw, getLsbD_clearBit hio, hcs, hbits j hj, Nat.add_comm i o]
        simp only [Finset.mem_erase, ne_eq, Nat.add_left_cancel_iff]
        grind
      have hsize' : ShiftIs w shift := by
        refine hm.size _ _ hsize fun j hj => ?_
        rw [hw, getLsbD_clearBit hio, hcs]
        have : j ≠ i + o := by omega
        simp [this]
      have hr := hedit { p with cells := setSlab (.page k) w c }
        ⟨rfl, rfl, rfl, rfl, fun j hj => ?_, fun j _ => ?_, fun _ _ => rfl⟩
        (nextOf_setSlab ..) (prevOf_setSlab ..) ⟨h₀, h₁, ?_, ?_, fun j hj => ?_⟩
      · have hzero : reserved shift = 0 := if_neg (Nat.not_lt_of_le hm.bounds.left)
        refine h.took_chunk hiu (by omega) ha hr ⟨rfl, rfl, rfl, rfl, fun _ _ => rfl⟩ ?_
        rw [hm.nonempty_iff hbits' ((Finset.erase_subset ..).trans hsub), hzero]
        simp [Finset.Nonempty]
      · simp only [slabOf_setSlab, hcs]
        exact Function.update_of_ne (by omega) ..
      · simp only [typeOf_setSlab, hct]
      · simpa [hct] using hty
      · simpa using hsize'
      · rw [hm.bit]
        simpa using hbits' j hj

-- The test of the map of a page with small chunks for one that was given out.
theorem small_rest_iff (hr : (Span.chunks shift used).Records p k) (h₃ : 3 ≤ shift)
    (hs : shift < exactShift) (hu : used ⊆ .range (chunkCount shift)) :
    (p.mem (p.addr k) &&& ~~~(1#64 <<< mapChunks shift - 1) ≠ 0 ∨
      ∃ n < mapWords shift, 0 < n ∧ p.mem (p.addr k + 8 * n) ≠ 0) ↔
      ∃ j ∈ used, reserved shift ≤ j := by
  have hb := hr.right.right.right.right
  have hm := mapWords_mul hs
  have hle := mapWords_le h₃ hs
  have hres : reserved shift = mapChunks shift := if_pos hs
  have h64 : mapChunks shift < 64 := by
    simp only [exactShift] at hs
    interval_cases shift <;> decide
  rw [mapWidth_of_small hs] at hb
  have hpos : 0 < mapWords shift := by
    simp only [exactShift] at hs
    interval_cases shift <;> decide
  have hword (n j : ℕ) (hn : n < mapWords shift) (hj : j < 64) :
      (p.mem (p.addr k + 8 * n)).getLsbD j = decide (n * 64 + j ∈ used) := by
    rw [← Repr.mapBit_of_small hs hj, hb _ (by omega)]
  have hfirst (j : ℕ) (hj : j < 64) : (p.mem (p.addr k) &&&
      ~~~(1#64 <<< mapChunks shift - 1)).getLsbD j = decide (j ∈ used ∧ mapChunks shift ≤ j) := by
    have := hword 0 j hpos hj
    rw [Nat.mul_zero, Nat.add_zero, Nat.zero_add] at this
    rw [BitVec.getLsbD_and, BitVec.getLsbD_not, getLsbD_low h64 hj, this]
    grind
  rw [hres]
  constructor
  case mp =>
    rintro (h | ⟨n, hn, hpos, h⟩)
    · obtain ⟨j, hj, hbit⟩ := ne_zero_iff.mp h
      rw [hfirst j hj] at hbit
      exact ⟨j, by simpa using hbit⟩
    · obtain ⟨j, hj, hbit⟩ := ne_zero_iff.mp h
      rw [hword n j hn hj] at hbit
      exact ⟨n * 64 + j, by simpa using hbit, by omega⟩
  case mpr =>
    rintro ⟨j, hj, hjr⟩
    have hjc := Finset.mem_range.mp (hu hj)
    have hlt : j % 64 < 64 := Nat.mod_lt _ (by decide)
    by_cases hj₀ : j < 64
    case pos =>
      refine .inl (ne_zero_iff.mpr ⟨j, hj₀, ?_⟩)
      rw [hfirst j hj₀]
      simp [hj, hjr]
    case neg =>
      refine .inr ⟨j / 64, by omega, by omega, ne_zero_iff.mpr ⟨j % 64, hlt, ?_⟩⟩
      rw [hword _ _ (by omega) hlt, Nat.div_add_mod']
      simp [hj]

-- What becomes of a page with small chunks when a chunk has been given back.
def restSmall (k shift : ℕ) (p : SlabPool) : Option SlabPool :=
  if p.mem (p.addr k) &&& ~~~(1#64 <<< mapChunks shift - 1) ≠ 0 ∨
      ∃ n < mapWords shift, 0 < n ∧ p.mem (p.addr k + 8 * n) ≠ 0 then
    some p
  else
    freePages k 1 p

theorem freeSmall_eq (hbase : a >>> pagesizeShift <<< pagesizeShift = p.addr k)
    (hshift : ((p.cells (.page k)).slab &&& shiftMask).toNat = shift)
    (hi : i = a % pagesize / 2 ^ shift) {w : BitVec 64} (hw : w = p.mem (p.addr k + 8 * (i / 64))) :
    freeSmall a k p = if a % 2 ^ shift ≠ 0 then some p else if w.getLsbD (i % 64) then
        (if (p.cells (.page k)).next = none then relink .small (shift - p.minShift) k p.cells
          else some p.cells).bind fun c => restSmall k shift
            ({ p with cells := c }.setWord (p.addr k + 8 * (i / 64)) (clearBit (i % 64) w))
      else some p := by
  have hrest (q : SlabPool) (hq : q.addr k = p.addr k) : restSmall k shift q =
      if q.mem (p.addr k) &&& ~~~(1#64 <<< mapChunks shift - 1) ≠ 0 then some q else
        if ∃ n < mapWords shift, 0 < n ∧ q.mem (p.addr k + 8 * n) ≠ 0 then some q else
          freePages k 1 q := by
    simp only [restSmall, hq, ite_or]
  rw [hi, ← shift_and] at *
  subst hw
  simp only [freeSmall, hshift, hbase, and_mask, hrest _ (addr_setWord ..)]
  split
  · rfl
  · split
    · split <;> rfl
    · rfl

theorem freeSmall_spec (h : Inv p ⟨l ++ (k, .chunks shift used) :: m, lists⟩)
    (hs : shift < exactShift) (hoff : a = p.addr k + a % pagesize)
    (hres : ∀ i < reserved shift, a ≠ p.addr k + i * 2 ^ shift) :
    ∃ p' v', freeSmall a k p = some p' ∧
      Took p p' ⟨l ++ (k, .chunks shift used) :: m, lists⟩ v' a := by
  have hx : (k, .chunks shift used) ∈ l ++ (k, .chunks shift used) :: m := by simp
  obtain ⟨hs₀, hs', hsub, -⟩ := h.sound.valid _ hx
  have hr := h.repr.records _ hx
  have ⟨h₀, h₁, hty, hsize, hbits⟩ := hr
  have h₃ : 3 ≤ shift := Nat.le_trans h.minShift_pos hs₀
  have hm := mapWords_mul hs
  have hslab : slabOf p.cells k = .ofNat 64 shift := by rwa [ShiftIs, if_pos hs] at hsize
  have hshift : (slabOf p.cells k &&& shiftMask).toNat = shift := by
    rw [hslab]
    simp only [exactShift] at hs
    interval_cases shift <;> rfl
  have hbase : a >>> pagesizeShift <<< pagesizeShift = p.addr k := by
    have hd : a >>> pagesizeShift <<< pagesizeShift = a / pagesize * pagesize := by
      rw [Nat.shiftRight_eq_div_pow, Nat.shiftLeft_eq]
      rfl
    have := Nat.div_add_mod' a pagesize
    omega
  rw [freeSmall_eq hbase hshift rfl rfl]
  by_cases hal : a % 2 ^ shift = 0
  case neg => exact ⟨p, _, if_pos hal, h.took_no_chunk hoff fun hc => absurd hc hal⟩
  case pos =>
    rw [if_neg (by simpa using hal)]
    obtain ⟨ha, hi⟩ := offset_of_mod hs' hoff hal
    obtain ⟨i, hidef⟩ : ∃ i, i = a % pagesize / 2 ^ shift := ⟨_, rfl⟩
    rw [← hidef] at ha hi ⊢
    have hw : mapWidth shift = chunkCount shift := (mapWidth_of_small hs).trans hm
    have hlt : i % 64 < 64 := Nat.mod_lt _ (by decide)
    have hmap (j : ℕ) (hj : j < mapWidth shift) :
        (p.mem (p.addr k + 8 * (j / 64))).getLsbD (j % 64) = decide (j ∈ used) := by
      rw [← Repr.mapBit_of_small hs (Nat.mod_lt _ (by decide)), Nat.div_add_mod', hbits j hj]
    rw [hmap i (by omega)]
    by_cases hiu : i ∈ used
    case neg =>
      refine ⟨p, _, if_neg (by simpa using hiu), h.took_no_chunk hoff fun _ => hidef ▸ hiu⟩
    case pos =>
      have hri : reserved shift ≤ i := by
        by_contra hc
        exact hres i (Nat.lt_of_not_le hc) ha
      have ht : slabType shift = .small := if_pos hs
      obtain ⟨c, lists', hc, hcs, hct, hedit⟩ := h.repr.unmark (erase_ne hsub hiu)
        (next_none_iff h.repr hx)
      rw [if_pos (by simpa using hiu), ← ht, hc, Option.bind_some]
      obtain ⟨w, hwdef⟩ : ∃ w, w = clearBit (i % 64) (p.mem (p.addr k + 8 * (i / 64))) := ⟨_, rfl⟩
      obtain ⟨q, hq⟩ : ∃ q, q = p.setWord (p.addr k + 8 * (i / 64)) w := ⟨_, rfl⟩
      rw [← hwdef]
      have hword : i / 64 < mapWords shift := by omega
      have hr₁ : (Span.chunks shift (used.erase i)).Records q k := by
        rw [hq]
        refine Repr.records_of_word hs hr (fun j hj => ?_) fun j _ hj => ?_
        · have := hmap (i / 64 * 64 + j) (by omega)
          rw [show (i / 64 * 64 + j) / 64 = i / 64 by omega,
            show (i / 64 * 64 + j) % 64 = j by omega] at this
          rw [hwdef, getLsbD_clearBit hlt, this]
          simp only [Finset.mem_erase]
          have : i / 64 * 64 + j ≠ i ↔ j ≠ i % 64 := by omega
          simp [this, Bool.and_comm]
        · have : j ≠ i := by
            rintro rfl
            exact hj rfl
          simp [this]
      have hk : Kept k (k + 1) p q := hq ▸ Repr.kept_of_word h₃ hs hword w
      have hr₂ : (Span.chunks shift (used.erase i)).Records { q with cells := c } k :=
        Repr.records_of_cells hr₁ Nat.one_pos (by rw [hcs, hq]; rfl) (by rw [hct, hq]; rfl)
      have hrepr := hedit { q with cells := c }
        ⟨hk.minShift, hk.start, hk.stop, hk.realPages, fun j _ => by rw [hcs],
          fun j _ => by rw [hct], hk.mem⟩ rfl rfl hr₂
      have hsub' := (Finset.erase_subset i used).trans hsub
      obtain ⟨p', v', hp', htook⟩ := h.took_chunk hiu hri ha hrepr
        (hq ▸ Repr.beside_of_word h₃ hs hword w) (small_rest_iff hr₂ h₃ hs hsub')
      have hp' : restSmall k shift { q with cells := c } = some p' := hp'
      refine ⟨p', v', ?_, htook⟩
      rw [← hp', hq]
      rfl

theorem freeChunk_spec (h : Inv p ⟨l ++ (k, .chunks shift used) :: m, lists⟩)
    (hoff : a = p.addr k + a % pagesize) (ha : ¬(a < p.start ∨ p.stop < a))
    (hk : k = (a - p.start) >>> pagesizeShift)
    (hres : ∀ i < reserved shift, a ≠ p.addr k + i * 2 ^ shift) :
    ∃ p' v', freeLocked a p = some p' ∧
      Took p p' ⟨l ++ (k, .chunks shift used) :: m, lists⟩ v' a := by
  have hx : (k, .chunks shift used) ∈ l ++ (k, .chunks shift used) :: m := by simp
  obtain ⟨-, hs', hsub, -⟩ := h.sound.valid _ hx
  have ⟨_, _, hty, hsize, hbits⟩ := h.repr.records _ hx
  have hty : (p.cells (.page k)).prev.type = slabType shift := hty
  simp only [freeLocked, if_neg ha, ← hk, hty]
  rcases Nat.lt_trichotomy shift exactShift with hs | rfl | hs
  · rw [slabType, if_pos hs]
    exact h.freeSmall_spec hs hoff hres
  · refine h.freeMap_spec mapAt_exact rfl ?_ hoff
    simp only [mapAt_exact.bit] at hbits
    rw [decide_eq_true_eq, ← mapAt_exact.full_iff hbits hsub]
    change slabOf p.cells k = busyMap ↔ _
    rw [busyMap, BitVec.and_allOnes]
  · have hn : ¬shift < exactShift := Nat.lt_asymm hs
    have hn' : shift ≠ exactShift := Nat.ne_of_gt hs
    have hbig : slabType shift = .big := by rw [slabType, if_neg hn, if_neg hn']
    have hshift : ((p.cells (.page k)).slab &&& shiftMask).toNat = shift := by
      have hw : slabOf p.cells k &&& shiftMask = .ofNat 64 shift := by
        rwa [ShiftIs, if_neg hn, if_neg hn'] at hsize
      change (slabOf p.cells k &&& shiftMask).toNat = shift
      simp only [pagesizeShift] at hs'
      rw [hw, Repr.toNat_ofNat (by omega)]
    rw [hbig]
    simp only [freeBig, hshift]
    refine h.freeMap_spec (mapAt_big hs hs' hsize) hbig.symm ?_ hoff
    rw [decide_eq_true_eq]
    exact next_none_iff h.repr hx

end Inv

-- The addresses in the maps of the pages that could be those of chunks
def Book.Reserved (start : ℕ) (b : Book) (a : ℕ) : Prop :=
  ∃ k shift used, (k, .chunks shift used) ∈ b ∧
    ∃ i < reserved shift, a = start + k * pagesize + i * 2 ^ shift

namespace Inv

variable {p : SlabPool} {v : View} {a n : ℕ}

-- No block in use starts in a map.
theorem not_reserved (h : Inv p v) (hl : v.book.Live p.start a n) :
    ¬v.book.Reserved p.start a := by
  rintro ⟨k, shift, used, hx, i, hi, ha⟩
  obtain ⟨hs, hs', -⟩ := h.sound.valid _ hx
  have h₃ : 3 ≤ shift := Nat.le_trans h.minShift_pos hs
  have hle := Repr.reserved_mul_le (p := p) (k := k) h₃ hs'
  have hlt := Nat.mul_lt_mul_of_pos_right hi (Nat.two_pow_pos shift)
  simp only [addr_eq, Nat.add_mul] at hle
  refine Book.not_owned_of_chunks h.sound hx (c := a) (by omega) (by omega) (by omega)
    ⟨a, n, hl, Nat.le_refl _, ?_⟩
  have := (hl.bounds h.sound).right.left
  omega

-- Whatever is freed, at most the block that starts there is lost.
theorem free_spec (h : Inv p v)
    (ha : a < p.start ∨ p.stop < a ∨ a < p.start + p.realPages * pagesize)
    (hr : ¬v.book.Reserved p.start a) :
    ∃ p' v', freeLocked a p = some p' ∧ Took p p' v v' a := by
  by_cases hout : a < p.start ∨ p.stop < a
  case pos =>
    refine ⟨p, v, if_pos hout, h, ⟨rfl, rfl, rfl, rfl, fun _ _ => rfl⟩, fun c i => ?_⟩
    refine ⟨fun hl => ⟨hl, ?_⟩, And.left⟩
    rintro rfl
    have := hl.bounds h.sound
    have := h.repr.stop
    omega
  case neg =>
    have hlt : p.start ≤ a ∧ a < p.start + p.realPages * pagesize := by omega
    have ⟨k, hk⟩ : ∃ k, k = (a - p.start) >>> pagesizeShift := ⟨_, rfl⟩
    have hoff := exists_offset h.repr hlt.left hk
    have hkr : k < p.realPages := by
      rw [hk, Nat.shiftRight_eq_div_pow]
      refine (Nat.div_lt_iff_lt_mul (by decide)).mpr ?_
      change a - p.start < p.realPages * pagesize
      omega
    have ⟨⟨i, x⟩, hx, hik, hki⟩ := h.repr.tiles.exists_covers (Nat.zero_le k) hkr
    have hrec := h.repr.records _ hx
    simp only at hik hki
    have hrun (n : ℕ) (ht : x = .free n ∨ x = .pages n) (hp : typeOf p.cells k = .page) :
        ∃ p' v', freeLocked a p = some p' ∧ Took p p' v v' a := by
      have hp : (p.cells (.page k)).prev.type = .page := hp
      simp only [freeLocked, if_neg hout, ← hk, hp]
      exact h.freeRun_spec hx hik hki hk hlt.left ht
    cases x
    case loose   => cases h.sound.valid _ hx
    case free n  =>
      refine hrun n (.inl rfl) ?_
      rcases Nat.eq_or_lt_of_le hik with rfl | hlt
      · exact hrec.right.left
      · exact (hrec.right.right k hlt hki).right
    case pages n =>
      refine hrun n (.inr rfl) ?_
      rcases Nat.eq_or_lt_of_le hik with rfl | hlt
      · exact hrec.right.left
      · exact (hrec.right.right k hlt hki).right
    case chunks shift used =>
      have : i = k := by
        simp only [Span.len_chunks] at hki
        omega
      subst this
      obtain ⟨b, lists⟩ := v
      have ⟨l, m, he⟩ := List.append_of_mem hx
      cases he
      refine h.freeChunk_spec hoff hout hk fun j hj hc => hr ⟨i, shift, used, hx, j, hj, ?_⟩
      rw [hc, addr_eq]

-- The block that is in use is freed.
theorem free_spec_sixteenK : ∃ a p v p' v', allocLocked 100 sixteenK = some (some a, p) ∧
    v.book.Live p.start a 128 ∧ freeLocked a p = some p' ∧ Took p p' v v' a := by
  obtain ⟨a, p, v, hp, hg⟩ := exists_busy
  have hl := hg.live_self
  have hb := hl.bounds hg.inv.sound
  obtain ⟨p', v', hp', ht⟩ := hg.inv.free_spec (.inr (.inr (by omega))) (hg.inv.not_reserved hl)
  exact ⟨a, p, v, p', v', hp, hl, hp', ht⟩

theorem free_live (h : Inv p v) (hl : v.book.Live p.start a n) :
    ∃ p' v', freeLocked a p = some p' ∧ Took p p' v v' a := by
  have := hl.bounds h.sound
  exact h.free_spec (.inr (.inr (by omega))) (h.not_reserved hl)

end Inv

end Slab
