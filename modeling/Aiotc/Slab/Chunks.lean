import Aiotc.Slab.Merge
import Mathlib.Tactic.IntervalCases

-- The maps of the chunks of a page, and what giving out a chunk or taking it back does to the book.

open Tiling

namespace Slab

section Counts

variable {shift i n : ℕ} {used : Finset ℕ}

theorem chunkCount_le_mapWidth (shift : ℕ) : chunkCount shift ≤ mapWidth shift := by
  rw [mapWidth]
  split
  case isTrue    => exact Nat.le_refl _
  case isFalse h =>
    simp only [exactShift] at h
    calc 2 ^ (pagesizeShift - shift)
      _ ≤ 2 ^ 5 := Nat.pow_le_pow_right (by decide) (by simp only [pagesizeShift]; omega)
      _ = _     := rfl

theorem mapWords_mul (h : shift < exactShift) : mapWords shift * 64 = chunkCount shift := by
  simp only [exactShift] at h
  interval_cases shift <;> rfl

theorem mapWidth_of_small (h : shift < exactShift) : mapWidth shift = mapWords shift * 64 := by
  rw [mapWords_mul h, mapWidth, if_pos (Nat.le_of_lt h)]

-- The chunks that are never given out have room for the words of the map.
theorem mapWords_le (h : 3 ≤ shift) (h' : shift < exactShift) :
    8 * mapWords shift ≤ reserved shift * 2 ^ shift := by
  simp only [exactShift] at h'
  interval_cases shift <;> decide

theorem reserved_lt (h : 3 ≤ shift) (h' : shift < pagesizeShift) :
    reserved shift + 1 < chunkCount shift := by
  simp only [pagesizeShift] at h'
  interval_cases shift <;> decide

theorem range_ne (h : 3 ≤ shift) (h' : shift < pagesizeShift) :
    Finset.range (reserved shift + 1) ≠ .range (chunkCount shift) := by
  intro hc
  have := (Finset.ext_iff.mp hc (reserved shift + 1)).mpr (Finset.mem_range.mpr (reserved_lt h h'))
  exact absurd (Finset.mem_range.mp this) (Nat.lt_irrefl _)

end Counts

-- Where the map is in the descriptor of a page whose chunks are not small: in the bits from `o` on,
-- and `mask` are those that stand for a chunk.
structure MapAt (shift o : ℕ) (mapMask mask : BitVec 64) : Prop where
  bounds : exactShift ≤ shift ∧ shift < pagesizeShift
  width  : o + mapWidth shift = 64
  map    : ∀ j < 64, mapMask.getLsbD j = decide (o ≤ j)
  chunks : ∀ j < 64, mask.getLsbD j = decide (o ≤ j ∧ j < o + chunkCount shift)
  bit    : ∀ p k i, mapBit p k shift i = (slabOf p.cells k).getLsbD (o + i)
  size   : ∀ w w', ShiftIs w shift → (∀ j < o, w'.getLsbD j = w.getLsbD j) → ShiftIs w' shift

theorem mapAt_exact : MapAt exactShift 0 busyMap busyMap where
  bounds := by decide
  width  := rfl
  map    := fun j hj => by rw [busyMap, BitVec.getLsbD_allOnes]; simp [hj]
  chunks := fun j hj => by
    have : chunkCount exactShift = 64 := rfl
    rw [busyMap, BitVec.getLsbD_allOnes, this]
    simp [hj]
  bit    := fun p k i => by simp [mapBit]
  size   := fun _ _ _ _ => by simp [ShiftIs]

theorem getLsbD_mapMask {j : ℕ} (h : j < 64) : mapMask.getLsbD j = decide (mapShift ≤ j) := by
  have : ∀ j < 64, mapMask.getLsbD j = decide (mapShift ≤ j) := by decide
  exact this j h

theorem getLsbD_shiftMask {j : ℕ} (h : j < 64) : shiftMask.getLsbD j = decide (j < 4) := by
  have : ∀ j < 64, shiftMask.getLsbD j = decide (j < 4) := by decide
  exact this j h

theorem mapAt_big {shift : ℕ} {w : BitVec 64} (h : exactShift < shift) (h' : shift < pagesizeShift)
    (hw : ShiftIs w shift) : MapAt shift mapShift mapMask (bigMask w) := by
  have hs : (w &&& shiftMask).toNat = shift := by
    simp only [ShiftIs, if_neg (Nat.lt_asymm h), if_neg (Nat.ne_of_gt h)] at hw
    simp only [pagesizeShift] at h'
    rw [hw]
    exact Repr.toNat_ofNat (by omega)
  have hc : chunkCount shift < 64 := by
    simp only [exactShift] at h
    calc 2 ^ (pagesizeShift - shift)
      _ ≤ 2 ^ 5 := Nat.pow_le_pow_right (by decide) (by simp only [pagesizeShift]; omega)
      _ < 64    := by decide
  constructor
  case bounds => exact ⟨Nat.le_of_lt h, h'⟩
  case width  => rw [mapWidth, if_neg (Nat.not_le_of_gt h)]; rfl
  case map    => exact fun j hj => getLsbD_mapMask hj
  case chunks =>
    intro j hj
    rw [bigMask, hs, Nat.shiftLeft_eq, Nat.one_mul, BitVec.getLsbD_shiftLeft]
    by_cases ho : mapShift ≤ j
    case pos =>
      change (decide (j < 64) && !decide (j < mapShift) &&
        (1#64 <<< chunkCount shift - 1).getLsbD (j - mapShift)) = _
      rw [getLsbD_low hc (by omega)]
      simp only [mapShift] at ho ⊢
      grind
    case neg => simp [ho, Nat.lt_of_not_le ho]
  case bit    =>
    intro p k i
    rw [mapBit, if_neg (Nat.lt_asymm h), if_neg (Nat.ne_of_gt h)]
  case size   =>
    intro w w' hw hj
    simp only [ShiftIs, if_neg (Nat.lt_asymm h), if_neg (Nat.ne_of_gt h)] at hw ⊢
    rw [← hw]
    apply BitVec.eq_of_getLsbD_eq
    intro j hj'
    rw [BitVec.getLsbD_and, BitVec.getLsbD_and, getLsbD_shiftMask hj']
    by_cases h₄ : j < 4
    case pos => rw [hj j (by simp only [mapShift]; omega)]
    case neg => simp [h₄]

namespace MapAt

variable {shift o : ℕ} {mapMask mask w : BitVec 64} {used : Finset ℕ}

theorem full_iff (h : MapAt shift o mapMask mask)
    (hw : ∀ i < mapWidth shift, w.getLsbD (o + i) = decide (i ∈ used))
    (hu : used ⊆ .range (chunkCount shift)) :
    w &&& mapMask = mask ↔ used = .range (chunkCount shift) := by
  have hl := chunkCount_le_mapWidth shift
  have ho := h.width
  constructor
  case mp =>
    intro he
    refine Finset.Subset.antisymm hu fun i hi => ?_
    have hi := Finset.mem_range.mp hi
    have hm := h.chunks (o + i) (by omega)
    rw [← he, BitVec.getLsbD_and, h.map (o + i) (by omega), hw i (by omega)] at hm
    simpa [hi] using hm
  case mpr =>
    rintro rfl
    apply BitVec.eq_of_getLsbD_eq
    intro j hj
    rw [BitVec.getLsbD_and, h.map j hj, h.chunks j hj]
    by_cases hc : o ≤ j
    case pos =>
      have := hw (j - o) (by omega)
      rw [Nat.add_sub_cancel' hc] at this
      rw [this]
      simp only [Finset.mem_range]
      grind
    case neg => simp [hc]

theorem nonempty_iff (h : MapAt shift o mapMask mask)
    (hw : ∀ i < mapWidth shift, w.getLsbD (o + i) = decide (i ∈ used))
    (hu : used ⊆ .range (chunkCount shift)) : w &&& mapMask ≠ 0 ↔ used.Nonempty := by
  have hl := chunkCount_le_mapWidth shift
  have ho := h.width
  rw [ne_zero_iff]
  constructor
  case mp =>
    rintro ⟨j, hj, hb⟩
    rw [BitVec.getLsbD_and, h.map j hj] at hb
    simp only [Bool.and_eq_true, decide_eq_true_eq] at hb
    have := hw (j - o) (by omega)
    rw [Nat.add_sub_cancel' hb.right, hb.left] at this
    exact ⟨j - o, by simpa using this⟩
  case mpr =>
    rintro ⟨i, hi⟩
    have hc := Finset.mem_range.mp (hu hi)
    refine ⟨o + i, by omega, ?_⟩
    rw [BitVec.getLsbD_and, h.map (o + i) (by omega), hw i (by omega)]
    simp [hi]

end MapAt

namespace Repr

variable {p p' p₁ : SlabPool} {lists : Ref → List Ref} {l m : Book} {c : Cells} {k shift i : ℕ}
  {used used' : Finset ℕ} {x : Span} {s : Ref}

theorem kept_of_cells {lo hi : ℕ} (hs : slabOf c = slabOf p.cells)
    (ht : typeOf c = typeOf p.cells) : Kept lo hi p { p with cells := c } :=
  ⟨rfl, rfl, rfl, rfl, fun _ _ => by rw [hs], fun _ _ => by rw [ht], fun _ _ => rfl⟩

-- What the descriptors say of a page does not depend on its links.
theorem records_of_cells (h : x.Records p k) (hx : 0 < x.len) (hs : slabOf c = slabOf p.cells)
    (ht : typeOf c = typeOf p.cells) : x.Records { p with cells := c } k :=
  have hk : Kept (k + x.len) (k + x.len) p { p with cells := c } := kept_of_cells hs ht
  h.frame hk hx (.inl (Nat.le_refl _))

theorem home_of_full (h : used = .range (chunkCount shift)) :
    (Span.chunks shift used).home p.minShift = none :=
  if_pos h

theorem home_of_not_full (h : used ≠ .range (chunkCount shift)) :
    (Span.chunks shift used).home p.minShift = some (.slot (shift - p.minShift)) :=
  if_neg h

-- A chunk more is in use. A page that has no others to give out leaves its list.
theorem mark (h : Repr p ⟨l ++ (k, .chunks shift used) :: m, lists⟩)
    (hf : used ≠ .range (chunkCount shift)) (hk : Kept k (k + 1) p p₁)
    (hn : nextOf p₁.cells = nextOf p.cells) (hv : prevOf p₁.cells = prevOf p.cells)
    (ht : typeOf p₁.cells = typeOf p.cells) (hr : (Span.chunks shift used').Records p₁ k)
    {b : Prop} [Decidable b] (hb : b ↔ used' = .range (chunkCount shift)) :
    ∃ c lists', (if b then unlinkFull (slabType shift) k p₁ else some p₁) =
        some { p₁ with cells := c } ∧
      Repr { p₁ with cells := c } ⟨l ++ (k, .chunks shift used') :: m, lists'⟩ := by
  by_cases hf' : used' = .range (chunkCount shift)
  case neg =>
    refine ⟨p₁.cells, lists, by rw [if_neg (hb.not.mpr hf')], h.modify rfl ?_ (by simp) hk hr hn hv⟩
    rw [home_of_not_full hf, home_of_not_full hf']
  case pos =>
    have hx : (k, .chunks shift used) ∈ l ++ (k, .chunks shift used) :: m := by simp
    have ⟨a, q, ha, hq, ham, hqm, hedit⟩ := h.remove (home_of_not_full hf)
    have hm := h.mem_of_home hx (home_of_not_full hf)
    have hs := h.sentinel hm
    have hd := (h.lists _ hs).nodup
    simp only at hd
    have hsub := List.cons_subset_cons (.slot (shift - p.minShift))
      (List.erase_subset (a := Ref.page k) (l := lists (.slot (shift - p.minShift))))
    have ⟨c₁, hc₁, hcn, hcp, hcs, hct⟩ := unlink_spec (c := p₁.cells) (k := k) (a := a) (b := q)
      (by rw [hv, ha]) (by rw [hn, hq]) (by grind) (by
        rintro j rfl
        rw [ht, h.typeOf_of_mem_cons hs (hsub hqm), h.typeOf_of_mem hm])
    have ⟨c₂, hc₂⟩ : ∃ c₂, c₂ = setPrev (.page k) ⟨none, slabType shift⟩
      (setNext (.page k) none c₁) := ⟨_, rfl⟩
    have hs₂ : slabOf c₂ = slabOf p₁.cells := by simp [hc₂, hcs]
    have ht₂ : typeOf c₂ = typeOf p₁.cells := by
      rw [hc₂, typeOf_setPrev, typeOf_setNext, hct]
      rintro j ⟨⟩
      rw [typeOf_setNext, hct]
      exact hr.right.right.left
    have hn₂ : nextOf c₂ = Function.update (nextOf c₁) (.page k) none := by simp [hc₂]
    have hv₂ : prevOf c₂ = Function.update (prevOf c₁) (.page k) none := by simp [hc₂]
    refine ⟨c₂, _, ?_, hedit (.chunks shift used') { p₁ with cells := c₂ } rfl (home_of_full hf')
      ⟨hk.minShift, hk.start, hk.stop, hk.realPages, ?_, ?_, hk.mem⟩
      (records_of_cells hr Nat.one_pos hs₂ ht₂) ?_ ?_⟩
    · simp only [if_pos (hb.mpr hf'), unlinkFull, hc₁, bind, Option.bind_some, hc₂]
      rfl
    · exact fun j hj => hs₂ ▸ hk.slab j hj
    · exact fun j hj => ht₂ ▸ hk.type j hj
    · intro r ho
      have hr : r ≠ .page k := ho k (Nat.le_refl _) (by simp)
      rw [hn₂, hv₂, Function.update_of_ne hr, Function.update_of_ne hr, hcn, hcp, hn, hv]
      exact ⟨rfl, rfl⟩
    · intro j h₁ h₂ _
      have hj : j = k := by
        simp only [Span.len_chunks] at h₂
        omega
      rw [Bare, hn₂, hv₂, hj, Function.update_self, Function.update_self]
      exact ⟨rfl, rfl⟩

-- The page of a chunk that is taken back gets into its list again if it was not there.
theorem unmark (h : Repr p ⟨l ++ (k, .chunks shift used) :: m, lists⟩)
    (hf : used' ≠ .range (chunkCount shift)) {b : Prop} [Decidable b]
    (hb : b ↔ used = .range (chunkCount shift)) :
    ∃ c lists', (if b then relink (slabType shift) (shift - p.minShift) k p.cells
        else some p.cells) = some c ∧ slabOf c = slabOf p.cells ∧ typeOf c = typeOf p.cells ∧
      ∀ p₁, Kept k (k + 1) p p₁ → nextOf p₁.cells = nextOf c → prevOf p₁.cells = prevOf c →
        (Span.chunks shift used').Records p₁ k →
        Repr p₁ ⟨l ++ (k, .chunks shift used') :: m, lists'⟩ := by
  have hx : (k, .chunks shift used) ∈ l ++ (k, .chunks shift used) :: m := by simp
  obtain ⟨h₀, h₁, hty, _⟩ := h.records _ hx
  by_cases hfull : used = .range (chunkCount shift)
  case neg =>
    refine ⟨p.cells, lists, by rw [if_neg (hb.not.mpr hfull)], rfl, rfl, fun p₁ hk hn hv hr => ?_⟩
    refine h.modify rfl ?_ (by simp) hk hr hn hv
    rw [home_of_not_full hf, home_of_not_full hfull]
  case pos =>
    have hs : Sentinel p.minShift (.slot (shift - p.minShift)) := by
      simp only [Sentinel]
      omega
    obtain ⟨q, hq, hqm, hedit⟩ := h.push (home_of_full hfull) hs
    have hqk : q ≠ .page k := by
      rintro rfl
      exact h.not_mem_of_home hx (home_of_full hfull) (List.mem_of_ne_of_mem (by simp) hqm)
    obtain ⟨c, hc⟩ : ∃ c, c = setPrev q ⟨some (.page k), slabType shift⟩
      (setPrev (.page k) ⟨some (.slot (shift - p.minShift)), slabType shift⟩
        (setNext (.slot (shift - p.minShift)) (some (.page k))
          (setNext (.page k) (some q) p.cells))) := ⟨_, rfl⟩
    have hcn : nextOf c = Function.update (Function.update (nextOf p.cells) (.page k) (some q))
      (.slot (shift - p.minShift)) (some (.page k)) := by simp [hc]
    have hcp : prevOf c = Function.update (Function.update (prevOf p.cells) (.page k)
      (some (.slot (shift - p.minShift)))) q (some (.page k)) := by simp [hc]
    have hcs : slabOf c = slabOf p.cells := by simp [hc]
    have hct : typeOf c = typeOf p.cells := by
      have hk : typeOf (setPrev (.page k) ⟨some (.slot (shift - p.minShift)), slabType shift⟩
        (setNext (.slot (shift - p.minShift)) (some (.page k))
          (setNext (.page k) (some q) p.cells))) = typeOf p.cells := by
        rw [typeOf_setPrev, typeOf_setNext, typeOf_setNext]
        rintro j ⟨⟩
        rw [typeOf_setNext, typeOf_setNext]
        exact hty
      rw [hc, typeOf_setPrev, hk]
      rintro j rfl
      rw [hk, h.typeOf_of_mem_cons hs hqm, listType, Nat.add_sub_cancel' h₀]
    refine ⟨c, _, ?_, hcs, hct, fun p₁ hk hn hv hr =>
      hedit (.chunks shift used') p₁ rfl (home_of_not_full hf) hk hr ?_ ?_⟩
    · have hq : (p.cells (.slot (shift - p.minShift))).next = some q := hq
      simp [hb.mpr hfull, relink, setNext, setPrev, hq, hc]
    · exact fun r _ => ⟨by rw [hn, hcn], fun _ => by rw [hv, hcp]⟩
    · intro j hj hj'
      simp only [Span.len_chunks] at hj'
      omega

-- What an operation on the chunks of a page leaves as it was: all but the descriptors and the words
-- of the pages' own map.
structure Beside (k shift : ℕ) (p p' : SlabPool) : Prop where
  minShift  : p'.minShift = p.minShift
  start     : p'.start = p.start
  stop      : p'.stop = p.stop
  realPages : p'.realPages = p.realPages
  mem       : ∀ a, ¬(p.addr k ≤ a ∧ a < p.addr k + reserved shift * 2 ^ shift) → p'.mem a = p.mem a

-- Which chunk of the page at `k` is given out, and what then is in the book.
def Taken (p : SlabPool) (l m : Book) (k shift : ℕ) (used : Finset ℕ) (a : ℕ) (p' : SlabPool) :
    Prop :=
  ∃ i < chunkCount shift, i ∉ used ∧ a = p.addr k + i * 2 ^ shift ∧ Beside k shift p p' ∧
    ∃ lists, Repr p' ⟨l ++ (k, .chunks shift (insert i used)) :: m, lists⟩

theorem takeMap_spec {o : ℕ} {mapMask mask : BitVec 64} {type : SlabType}
    (h : Repr p ⟨l ++ (k, .chunks shift used) :: m, lists⟩) (hm : MapAt shift o mapMask mask)
    (ht : type = slabType shift) (hu : used ⊆ .range (chunkCount shift))
    (hf : used ≠ .range (chunkCount shift)) :
    ∃ a p', takeMap type mapMask mask o shift k p = some (some (a, p')) ∧
      Taken p l m k shift used a p' := by
  have hx : (k, .chunks shift used) ∈ l ++ (k, .chunks shift used) :: m := by simp
  have ⟨h₀, h₁, hty, hsize, hbits⟩ := h.records _ hx
  have ho := hm.width
  have hl := chunkCount_le_mapWidth shift
  simp only [hm.bit] at hbits
  -- The lowest clear bit stands for a chunk.
  have ⟨i, hi⟩ : ∃ i, lowestClear (slabOf p.cells k) mask o = some i := by
    by_contra hc
    rw [← Option.ne_none_iff_exists', not_not] at hc
    refine hf (Finset.Subset.antisymm hu fun i hi => ?_)
    have hi := Finset.mem_range.mp hi
    have := lowestClear_none hc (i := i) (by omega) fun j hj => by
      rw [hm.chunks (o + j) (by omega)]
      simp only [decide_eq_true_eq]
      omega
    rw [hbits i (by omega)] at this
    simpa using this
  have ⟨hi₁, hi₂, hi₃⟩ := lowestClear_some hi
  have hiu : i ∉ used := by
    rw [hbits i (by omega)] at hi₃
    simpa using hi₃
  have hic : i < chunkCount shift := by
    rw [hm.chunks (o + i) hi₁] at hi₂
    simp only [decide_eq_true_eq] at hi₂
    omega
  have hu' : insert i used ⊆ .range (chunkCount shift) :=
    Finset.insert_subset (Finset.mem_range.mpr hic) hu
  have ⟨w, hw⟩ : ∃ w, w = setBit (o + i) (slabOf p.cells k) := ⟨_, rfl⟩
  have hbits' : ∀ j < mapWidth shift, w.getLsbD (o + j) = decide (j ∈ insert i used) := by
    intro j hj
    rw [hw, getLsbD_setBit hi₁, hbits j hj]
    simp only [Finset.mem_insert, Nat.add_left_cancel_iff]
    grind
  have hsize' : ShiftIs w shift := by
    refine hm.size _ _ hsize fun j hj => ?_
    rw [hw, getLsbD_setBit hi₁]
    simp only [Bool.or_eq_left_iff_imp, decide_eq_true_eq]
    omega
  have ⟨p₁, hp₁⟩ : ∃ p₁, p₁ = p.mapCells (setSlab (.page k) w) := ⟨_, rfl⟩
  have hs₁ : slabOf p₁.cells = Function.update (slabOf p.cells) k w := by
    simp [hp₁, SlabPool.mapCells]
  have ht₁ : typeOf p₁.cells = typeOf p.cells := by simp [hp₁, SlabPool.mapCells]
  have hr : (Span.chunks shift (insert i used)).Records p₁ k := by
    refine ⟨hp₁ ▸ h₀, h₁, ht₁ ▸ hty, ?_, fun j hj => ?_⟩
    · rw [hs₁, Function.update_self]
      exact hsize'
    · rw [hm.bit, hs₁, Function.update_self]
      exact hbits' j hj
  have ⟨c, lists', hc, hrepr⟩ := h.mark hf
    (show Kept k (k + 1) p p₁ by
      refine ⟨by rw [hp₁]; rfl, by rw [hp₁]; rfl, by rw [hp₁]; rfl, by rw [hp₁]; rfl,
        fun j hj => ?_, fun j _ => by rw [ht₁], fun _ _ => by rw [hp₁]; rfl⟩
      rw [hs₁, Function.update_of_ne (by omega)])
    (by simp [hp₁, SlabPool.mapCells]) (by simp [hp₁, SlabPool.mapCells]) ht₁ hr
    (hm.full_iff hbits' hu')
  refine ⟨p.addr k + i * 2 ^ shift, { p₁ with cells := c }, ?_, i, hic, hiu, rfl, ?_, lists', hrepr⟩
  · have hne : (p.cells (.page k)).slab &&& mapMask ≠ mask := (hm.full_iff hbits hu).not.mpr hf
    have hi : lowestClear (p.cells (.page k)).slab mask o = some i := hi
    have hw : setBit (o + i) (p.cells (.page k)).slab = w := hw.symm
    have ha : SlabPool.addr k { p₁ with cells := c } = p.addr k := by rw [hp₁]; rfl
    rw [← ht] at hc
    simp only [takeMap, if_pos hne, hi, hw, ← hp₁, bind]
    split at hc
    case isTrue h =>
      rw [if_pos h, hc, Option.bind_some, ha, Nat.shiftLeft_eq]
      rfl
    case isFalse h =>
      rw [if_neg h, Option.some.inj hc, ha, Nat.shiftLeft_eq]
      rfl
  · rw [hp₁]
    exact ⟨rfl, rfl, rfl, rfl, fun _ _ => rfl⟩

theorem mapBit_of_small (h : shift < exactShift) {n : ℕ} (hi : i < 64) :
    mapBit p k shift (n * 64 + i) = (p.mem (p.addr k + 8 * n)).getLsbD i := by
  rw [mapBit, if_pos h, show (n * 64 + i) / 64 = n by omega, show (n * 64 + i) % 64 = i by omega]

-- The words of the map are those of chunks that are never given out.
theorem mapWord_mem (h : 3 ≤ shift) (h' : shift < exactShift) {n : ℕ} (hn : n < mapWords shift) :
    p.addr k ≤ p.addr k + 8 * n ∧ p.addr k + 8 * n < p.addr k + reserved shift * 2 ^ shift := by
  have := mapWords_le h h'
  omega

theorem reserved_mul_le (h : 3 ≤ shift) (h' : shift < pagesizeShift) :
    p.addr k + reserved shift * 2 ^ shift ≤ p.addr (k + 1) := by
  have := Nat.mul_le_mul_right (2 ^ shift) (Nat.le_of_succ_le (Nat.le_of_lt (reserved_lt h h')))
  rw [chunkCount_mul h'] at this
  simp only [addr_eq]
  rw [Nat.add_mul]
  omega

-- A word of the map of a page is written.
theorem kept_of_word (h : 3 ≤ shift) (h' : shift < exactShift) {n : ℕ} (hn : n < mapWords shift)
    (w : BitVec 64) : Kept k (k + 1) p (p.setWord (p.addr k + 8 * n) w) := by
  have hp : shift < pagesizeShift := Nat.lt_of_lt_of_le h' (by decide)
  have hm := mapWord_mem (p := p) (k := k) h h' hn
  have hl := reserved_mul_le (p := p) (k := k) h hp
  refine ⟨rfl, rfl, rfl, rfl, fun _ _ => rfl, fun _ _ => rfl, fun a ha => ?_⟩
  exact Function.update_of_ne (by omega) ..

theorem beside_of_word (h : 3 ≤ shift) (h' : shift < exactShift) {n : ℕ} (hn : n < mapWords shift)
    (w : BitVec 64) : Beside k shift p { p.setWord (p.addr k + 8 * n) w with cells := c } := by
  have hm := mapWord_mem (p := p) (k := k) h h' hn
  refine ⟨rfl, rfl, rfl, rfl, fun a ha => ?_⟩
  exact Function.update_of_ne (by omega) ..

theorem records_of_word (h : shift < exactShift) {n : ℕ} {w : BitVec 64}
    (hr : (Span.chunks shift used).Records p k)
    (hw : ∀ j < 64, w.getLsbD j = decide (n * 64 + j ∈ used'))
    (hu : ∀ j < chunkCount shift, j / 64 ≠ n → (j ∈ used' ↔ j ∈ used)) :
    (Span.chunks shift used').Records (p.setWord (p.addr k + 8 * n) w) k := by
  have ⟨h₀, h₁, hty, hsize, hbits⟩ := hr
  refine ⟨h₀, h₁, hty, hsize, fun j hj => ?_⟩
  have hj' : j = j / 64 * 64 + j % 64 := (Nat.div_add_mod' j 64).symm
  have hlt : j % 64 < 64 := Nat.mod_lt _ (by decide)
  by_cases hjn : j / 64 = n
  case pos =>
    rw [hj', mapBit_of_small h hlt, hjn]
    change (Function.update p.mem _ w _).getLsbD _ = _
    rw [← hw _ hlt]
    change (Function.update p.mem (p.addr k + 8 * n) w (p.addr k + 8 * n)).getLsbD _ = _
    rw [Function.update_self]
  case neg =>
    have hc : j < chunkCount shift := by
      rwa [mapWidth, if_pos (Nat.le_of_lt h)] at hj
    rw [show decide (j ∈ used') = decide (j ∈ used) by simp only [hu j hc hjn], ← hbits j hj, hj',
      mapBit_of_small h hlt, mapBit_of_small h hlt]
    change (Function.update p.mem (p.addr k + 8 * n) w (p.addr k + 8 * (j / 64))).getLsbD _ = _
    rw [Function.update_of_ne (by omega)]

theorem small_full_iff (h : shift < exactShift) (hr : (Span.chunks shift used).Records p k)
    (hu : used ⊆ .range (chunkCount shift)) :
    (∀ n < mapWords shift, p.mem (p.addr k + 8 * n) = busyMap) ↔
      used = .range (chunkCount shift) := by
  have hb := hr.right.right.right.right
  have hm := mapWords_mul h
  rw [mapWidth_of_small h] at hb
  constructor
  case mp =>
    refine fun ha => Finset.Subset.antisymm hu fun i hi => ?_
    have hi := Finset.mem_range.mp hi
    have hw := eq_busyMap_iff.mp (ha (i / 64) (by omega)) (i % 64) (Nat.mod_lt _ (by decide))
    rw [← mapBit_of_small h (Nat.mod_lt _ (by decide)), Nat.div_add_mod', hb i (by omega)] at hw
    simpa using hw
  case mpr =>
    rintro rfl n hn
    refine eq_busyMap_iff.mpr fun i hi => ?_
    rw [← mapBit_of_small h hi, hb _ (by omega)]
    simp only [Finset.mem_range, decide_eq_true_eq]
    omega

theorem takeSmall_spec (h : Repr p ⟨l ++ (k, .chunks shift used) :: m, lists⟩)
    (hs : shift < exactShift) (hu : used ⊆ .range (chunkCount shift))
    (hf : used ≠ .range (chunkCount shift)) :
    ∃ a p', takeSmall shift k p = some (some (a, p')) ∧ Taken p l m k shift used a p' := by
  have hx : (k, .chunks shift used) ∈ l ++ (k, .chunks shift used) :: m := by simp
  have hr := h.records _ hx
  have ⟨h₀, h₁, hty, _, hbits⟩ := hr
  have h₃ : 3 ≤ shift := Nat.le_trans h.shift.left h₀
  have hm := mapWords_mul hs
  rw [mapWidth_of_small hs] at hbits
  -- The first word that is not full has a clear bit.
  cases hn : (List.range (mapWords shift)).find? fun n => p.mem (p.addr k + 8 * n) ≠ busyMap
  case none =>
    rw [List.find?_eq_none] at hn
    simp only [List.mem_range, decide_eq_true_eq, not_not, ne_eq] at hn
    exact absurd ((small_full_iff hs hr hu).mp hn) hf
  case some n =>
    have hnw : p.mem (p.addr k + 8 * n) ≠ busyMap := by simpa using List.find?_some hn
    have hnm := List.mem_range.mp (List.mem_of_find?_eq_some hn)
    have hbefore : ∀ j < n, p.mem (p.addr k + 8 * j) = busyMap := by
      intro j hj
      rw [List.find?_range_eq_some] at hn
      simpa using hn.right.right j hj
    cases hi : lowestClear (p.mem (p.addr k + 8 * n)) busyMap 0
    case none =>
      refine absurd (eq_busyMap_iff.mpr fun i hi' => ?_) hnw
      have := lowestClear_none hi (i := i) (by omega) fun j hj => by
        rw [busyMap, BitVec.getLsbD_allOnes]
        simp only [Nat.zero_add, decide_eq_true_eq]
        omega
      rwa [Nat.zero_add] at this
    case some i =>
      obtain ⟨hi₁, _, hi₃⟩ := lowestClear_some hi
      rw [Nat.zero_add] at hi₁ hi₃
      have hiu : n * 64 + i ∉ used := by
        rw [← mapBit_of_small hs hi₁, hbits _ (by omega)] at hi₃
        simpa using hi₃
      have hic : n * 64 + i < chunkCount shift := by omega
      have hu' : insert (n * 64 + i) used ⊆ .range (chunkCount shift) :=
        Finset.insert_subset (Finset.mem_range.mpr hic) hu
      obtain ⟨p₁, hp₁⟩ : ∃ p₁, p₁ = p.setWord (p.addr k + 8 * n)
        (setBit i (p.mem (p.addr k + 8 * n))) := ⟨_, rfl⟩
      have ha : p₁.addr k = p.addr k := by rw [hp₁]; rfl
      have hr₁ : (Span.chunks shift (insert (n * 64 + i) used)).Records p₁ k := by
        rw [hp₁]
        refine records_of_word hs hr (fun j hj => ?_) fun j _ hj => ?_
        · rw [getLsbD_setBit hi₁, ← mapBit_of_small hs hj, hbits _ (by omega)]
          simp only [Finset.mem_insert, Nat.add_left_cancel_iff]
          grind
        · have : j ≠ n * 64 + i := by omega
          simp [this]
      -- The words before `n` are full already.
      have hfull : (∀ j < mapWords shift, n ≤ j → p₁.mem (p.addr k + 8 * j) = busyMap) ↔
          insert (n * 64 + i) used = .range (chunkCount shift) := by
        rw [← small_full_iff hs hr₁ hu', ha]
        refine ⟨fun hj j hjm => ?_, fun hj j hjm _ => hj j hjm⟩
        by_cases hlt : j < n
        case neg => exact hj j hjm (Nat.le_of_not_lt hlt)
        case pos =>
          rw [hp₁, ← hbefore j hlt]
          exact Function.update_of_ne (by omega) ..
      have hk : Kept k (k + 1) p p₁ := hp₁ ▸ kept_of_word h₃ hs hnm _
      obtain ⟨c, lists', hc, hrepr⟩ := h.mark hf hk (by rw [hp₁]; rfl) (by rw [hp₁]; rfl)
        (by rw [hp₁]; rfl) hr₁ hfull
      refine ⟨p.addr k + (n * 64 + i) * 2 ^ shift, { p₁ with cells := c }, ?_, _, hic, hiu, rfl, ?_,
        lists', hrepr⟩
      · have ht : slabType shift = .small := if_pos hs
        rw [ht] at hc
        simp only [takeSmall, hn, hi, bind, ← hp₁]
        rw [Nat.add_mul, Nat.shiftLeft_eq, Nat.shiftLeft_eq]
        split at hc
        case isTrue h =>
          rw [if_pos h, hc]
          rfl
        case isFalse h =>
          rw [if_neg h, Option.some.inj hc]
          rfl
      · exact hp₁ ▸ beside_of_word h₃ hs hnm _

theorem takeChunk_spec {page : SlabPage}
    (h : Repr p ⟨l ++ (k, .chunks shift used) :: m, lists⟩)
    (hu : used ⊆ .range (chunkCount shift)) (hf : used ≠ .range (chunkCount shift))
    (hw : ShiftIs page.slab shift) :
    ∃ a p', take shift page k p = some (some (a, p')) ∧ Taken p l m k shift used a p' := by
  have ⟨_, h₁, _⟩ := h.records (k, .chunks shift used) (by simp)
  rcases Nat.lt_trichotomy shift exactShift with hs | rfl | hs
  · rw [take, if_pos hs]
    exact h.takeSmall_spec hs hu hf
  · rw [take, if_neg (Nat.lt_irrefl _), if_pos rfl]
    exact h.takeMap_spec mapAt_exact rfl hu hf
  · rw [take, if_neg (Nat.lt_asymm hs), if_neg (Nat.ne_of_gt hs)]
    refine h.takeMap_spec (mapAt_big hs h₁ hw) ?_ hu hf
    rw [slabType, if_neg (Nat.lt_asymm hs), if_neg (Nat.ne_of_gt hs)]

section NewPage

variable {slot : ℕ} {w : BitVec 64} {type : SlabType}

-- The page is the only one in its list.
theorem link_spec (h : Repr p ⟨l ++ (k, .pages 1) :: m, lists⟩)
    (hl : lists (.slot (shift - p.minShift)) = []) (hs : p.minShift ≤ shift)
    (hs' : shift < pagesizeShift) (hk : Kept k (k + 1) p p₁) (hc : p₁.cells = p.cells)
    (hf : used ≠ .range (chunkCount shift))
    (hr : (Span.chunks shift used).Records
      (linkNew (slabType shift) w (shift - p.minShift) k p₁) k) :
    ∃ lists', Repr (linkNew (slabType shift) w (shift - p.minShift) k p₁)
      ⟨l ++ (k, .chunks shift used) :: m, lists'⟩ := by
  have hsent : Sentinel p.minShift (.slot (shift - p.minShift)) := by
    simp only [Sentinel]
    omega
  obtain ⟨b, hb, hbm, hedit⟩ := h.push (s := .slot (shift - p.minShift)) rfl hsent
  rw [hl, List.mem_singleton] at hbm
  subst hbm
  refine ⟨_, hedit (.chunks shift used) _ rfl (home_of_not_full hf)
    ⟨hk.minShift, hk.start, hk.stop, hk.realPages, fun j hj => ?_, fun j hj => ?_, hk.mem⟩
    hr (fun r _ => ⟨?_, fun hr => ?_⟩) ?_⟩
  · simp only [linkNew, SlabPool.mapCells, slabOf_setNext, slabOf_update, hc]
    exact Function.update_of_ne (by simp only [Span.len] at hj; omega) ..
  · simp only [linkNew, SlabPool.mapCells, typeOf_setNext, typeOf_update, hc]
    exact Function.update_of_ne (by simp only [Span.len] at hj; omega) ..
  · simp only [linkNew, SlabPool.mapCells, nextOf_setNext, nextOf_update, hc]
  · simp only [linkNew, SlabPool.mapCells, prevOf_setNext, prevOf_update, hc]
    exact (Function.update_of_ne hr ..).symm
  · intro j hj hj'
    simp only [Span.len] at hj'
    omega

theorem slabOf_linkNew : slabOf (linkNew type w slot k p).cells k = w := by
  simp [linkNew, SlabPool.mapCells]

theorem typeOf_linkNew : typeOf (linkNew type w slot k p).cells k = type := by
  simp [linkNew, SlabPool.mapCells]

theorem mapBit_linkNew (h : shift < exactShift) :
    mapBit (linkNew type w slot k p) k shift i = mapBit p k shift i := by
  rw [mapBit, mapBit, if_pos h, if_pos h]
  rfl

-- The words that `ncx_slab_alloc_locked` clears in a new page
theorem clearWords_eq {b : ℕ} {ns : List ℕ} :
    ns.foldl (fun p i => p.setWord (b + 8 * i) 0) p =
      { p with mem := fun a => if ∃ i ∈ ns, a = b + 8 * i then 0 else p.mem a } := by
  induction ns generalizing p
  case nil => simp
  case cons n ns hi =>
    rw [List.foldl_cons, hi]
    simp only [SlabPool.setWord, Function.update_apply, List.mem_cons, exists_eq_or_imp]
    congr 1
    funext a
    by_cases hn : ∃ i ∈ ns, a = b + 8 * i
    · simp only [hn, or_true, if_true]
    · simp only [hn, or_false, if_false]

theorem newSmall_spec (h : Repr p ⟨l ++ (k, .pages 1) :: m, lists⟩)
    (hl : lists (.slot (shift - p.minShift)) = []) (hs : p.minShift ≤ shift)
    (hx : shift < exactShift) :
    ∃ p', newSmall shift (shift - p.minShift) k p =
        (p.addr k + reserved shift * 2 ^ shift, p') ∧ Beside k shift p p' ∧
      ∃ lists', Repr p' ⟨l ++ (k, .chunks shift (.range (reserved shift + 1))) :: m, lists'⟩ := by
  have h₃ : 3 ≤ shift := Nat.le_trans h.shift.left hs
  have hp : shift < pagesizeShift := Nat.lt_of_lt_of_le hx (by decide)
  have hres : reserved shift = mapChunks shift := if_pos hx
  have hlt := reserved_lt h₃ hp
  have hm := mapWords_mul hx
  have hle := mapWords_le h₃ hx
  have h64 : mapChunks shift + 1 < 64 := by
    simp only [exactShift] at hx
    interval_cases shift <;> decide
  obtain ⟨p₁, hp₁⟩ : ∃ p₁, p₁ = (List.range' 1 (mapWords shift - 1)).foldl
      (fun q i => q.setWord (p.addr k + 8 * i) 0)
      (p.setWord (p.addr k) (2#64 <<< mapChunks shift - 1)) := ⟨_, rfl⟩
  have hword (a : ℕ) : p₁.mem a = if ∃ i ∈ List.range' 1 (mapWords shift - 1),
      a = p.addr k + 8 * i then 0 else Function.update p.mem (p.addr k)
        (2#64 <<< mapChunks shift - 1) a := by
    rw [hp₁, clearWords_eq]
    rfl
  have hfields : p₁.minShift = p.minShift ∧ p₁.start = p.start ∧ p₁.stop = p.stop ∧
      p₁.realPages = p.realPages ∧ p₁.cells = p.cells := by
    rw [hp₁, clearWords_eq]
    exact ⟨rfl, rfl, rfl, rfl, rfl⟩
  obtain ⟨hmin, hstart, hstop, hreal, hcells⟩ := hfields
  have ha : p₁.addr k = p.addr k := by rw [addr_eq, addr_eq, hstart]
  have hmem (a : ℕ) (h : ¬(p.addr k ≤ a ∧ a < p.addr k + reserved shift * 2 ^ shift)) :
      p₁.mem a = p.mem a := by
    have hpos : 0 < mapWords shift := by omega
    rw [hword, if_neg, Function.update_of_ne (by omega)]
    rintro ⟨i, hi, rfl⟩
    rw [List.mem_range'_1] at hi
    omega
  have hk : Kept k (k + 1) p p₁ := by
    refine ⟨hmin, hstart, hstop, hreal, by simp [hcells], by simp [hcells], fun a h => hmem a ?_⟩
    have := reserved_mul_le (p := p) (k := k) h₃ hp
    omega
  have hbit (j : ℕ) (hj : j < mapWidth shift) :
      mapBit p₁ k shift j = decide (j < reserved shift + 1) := by
    rw [mapWidth_of_small hx] at hj
    have hlt : j % 64 < 64 := Nat.mod_lt _ (by decide)
    rw [← Nat.div_add_mod' j 64, mapBit_of_small hx hlt, ha, hword, hres]
    by_cases hj₀ : j / 64 = 0
    case pos =>
      rw [if_neg, hj₀, Nat.mul_zero, Nat.add_zero, Function.update_self,
        show 2#64 <<< mapChunks shift = 1#64 <<< (mapChunks shift + 1) by
          rw [Nat.add_comm, BitVec.shiftLeft_add]; rfl, getLsbD_low h64 hlt, Nat.zero_add]
      rintro ⟨i, hi, he⟩
      rw [List.mem_range'_1] at hi
      omega
    case neg =>
      rw [if_pos ⟨j / 64, by rw [List.mem_range'_1]; omega, rfl⟩]
      simp only [BitVec.ofNat_eq_ofNat, BitVec.getLsbD_zero, Bool.false_eq, decide_eq_false_iff_not]
      omega
  refine ⟨linkNew .small (.ofNat 64 shift) (shift - p.minShift) k p₁, ?_, ?_, ?_⟩
  · simp only [newSmall, ← hp₁]
    rw [hres, Nat.shiftLeft_eq, Nat.one_mul, Nat.mul_comm, ha]
  · exact ⟨hmin, hstart, hstop, hreal, hmem⟩
  · have ht : slabType shift = .small := if_pos hx
    rw [← ht]
    refine h.link_spec hl hs hp hk hcells (range_ne h₃ hp)
      ⟨?_, hp, typeOf_linkNew, ?_, fun j hj => ?_⟩
    · exact hmin ▸ hs
    · rw [ShiftIs, if_pos hx, slabOf_linkNew]
    · simpa [mapBit_linkNew hx] using hbit j hj

theorem bigSlab_bits (h : shift < pagesizeShift) :
    (1#64 <<< mapShift ||| .ofNat 64 shift) &&& shiftMask = .ofNat 64 shift ∧
      ∀ j < 64 - mapShift,
        (1#64 <<< mapShift ||| .ofNat 64 shift).getLsbD (mapShift + j) = decide (j = 0) := by
  simp only [pagesizeShift] at h
  interval_cases shift <;> decide

theorem newPage_spec (h : Repr p ⟨l ++ (k, .pages 1) :: m, lists⟩)
    (hl : lists (.slot (shift - p.minShift)) = []) (hs : p.minShift ≤ shift)
    (hs' : shift < pagesizeShift) :
    ∃ p', newPage shift (shift - p.minShift) k p =
        (p.addr k + reserved shift * 2 ^ shift, p') ∧ Beside k shift p p' ∧
      ∃ lists', Repr p' ⟨l ++ (k, .chunks shift (.range (reserved shift + 1))) :: m, lists'⟩ := by
  have h₃ : 3 ≤ shift := Nat.le_trans h.shift.left hs
  have hne := range_ne h₃ hs'
  have hk : Kept k (k + 1) p p :=
    ⟨rfl, rfl, rfl, rfl, fun _ _ => rfl, fun _ _ => rfl, fun _ _ => rfl⟩
  have hb {w : BitVec 64} {type : SlabType} :
      Beside k shift p (linkNew type w (shift - p.minShift) k p) :=
    ⟨rfl, rfl, rfl, rfl, fun _ _ => rfl⟩
  rcases Nat.lt_trichotomy shift exactShift with hx | rfl | hx
  case inl =>
    rw [newPage, if_pos hx]
    exact h.newSmall_spec hl hs hx
  case inr.inl =>
    refine ⟨_, rfl, hb, h.link_spec hl hs hs' hk rfl hne ⟨hs, hs', typeOf_linkNew, ?_, ?_⟩⟩
    · simp [ShiftIs]
    · intro j hj
      rw [mapAt_exact.bit, slabOf_linkNew]
      have : reserved exactShift = 0 := rfl
      simp [this, BitVec.getLsbD_one]
  case inr.inr =>
    have hn : ¬shift < exactShift := Nat.lt_asymm hx
    have hn' : shift ≠ exactShift := Nat.ne_of_gt hx
    have hr : reserved shift = 0 := if_neg hn
    have ht : slabType shift = .big := by rw [slabType, if_neg hn, if_neg hn']
    rw [newPage, if_neg hn, if_neg hn', hr, Nat.zero_mul, Nat.add_zero]
    refine ⟨_, rfl, hb, ?_⟩
    rw [hr] at hne
    rw [← ht]
    refine h.link_spec hl hs hs' hk rfl hne ⟨hs, hs', typeOf_linkNew, ?_, ?_⟩
    · rw [ShiftIs, if_neg hn, if_neg hn', slabOf_linkNew]
      exact (bigSlab_bits hs').left
    · intro j hj
      rw [mapWidth, if_neg (Nat.not_le_of_gt hx)] at hj
      rw [mapBit, if_neg hn, if_neg hn', slabOf_linkNew, (bigSlab_bits hs').right j hj]
      simp

end NewPage

end Repr

end Slab
