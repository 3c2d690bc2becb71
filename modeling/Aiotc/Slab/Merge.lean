import Aiotc.Slab.Pages

-- What `ncx_slab_free_pages` does to the book: the pages are free, and so are parts of one span of
-- free pages with those beside them.

open Tiling

namespace Slab.Repr

variable {p : SlabPool} {lists : Ref → List Ref} {l m : Book} {x y : Span} {c : Cells}
  {i j k n : ℕ} {s r : Ref}

theorem fill_interior {v : View} (h : Repr p v) (hx : (k, x) ∈ v.book) {f : Cells}
    (hf : f = fill zeroPage (x.len - 1) (k + 1) p.cells) :
    nextOf f = nextOf p.cells ∧ prevOf f = prevOf p.cells ∧
      (∀ j, ¬(k < j ∧ j < k + x.len) → slabOf f j = slabOf p.cells j ∧
        typeOf f j = typeOf p.cells j) ∧
      ∀ j, k < j → j < k + x.len → slabOf f j = 0 ∧ typeOf f j = .page := by
  have hl := (h.tiles.bounds hx).right.left
  simp only at hl
  have hin (j : ℕ) (h₁ : k < j) (h₂ : j < k + x.len) : f (.page j) = zeroPage := by
    rw [hf, fill_of_mem h₁ (by omega)]
  have hoff (r : Ref) (hr : Off (k + 1) (x.len - 1) r) : f r = p.cells r := by
    rw [hf, fill_of_off hr]
  have hcases (r : Ref) : Off (k + 1) (x.len - 1) r ∨ ∃ j, k < j ∧ j < k + x.len ∧ r = .page j := by
    by_contra hc
    push Not at hc
    exact hc.left fun j h₁ h₂ => hc.right j (by omega) (by omega)
  refine ⟨?_, ?_, fun j hj => ?_, fun j h₁ h₂ => ?_⟩
  · funext r
    rcases hcases r with hr | ⟨j, h₁, h₂, rfl⟩
    · rw [nextOf, hoff r hr, nextOf]
    · rw [nextOf, hin j h₁ h₂, (h.interior hx h₁ h₂).right.left]
      rfl
  · funext r
    rcases hcases r with hr | ⟨j, h₁, h₂, rfl⟩
    · rw [prevOf, hoff r hr, prevOf]
    · rw [prevOf, hin j h₁ h₂, (h.interior hx h₁ h₂).right.right]
      rfl
  · rw [slabOf, typeOf, hoff _ (off_of_not_mem (by omega))]
    exact ⟨rfl, rfl⟩
  · rw [slabOf, typeOf, hin j h₁ h₂]
    exact ⟨rfl, rfl⟩

theorem detach_spec (h : Repr p ⟨l ++ (k, x) :: m, lists⟩) (hx : ∀ i, x ≠ .loose i) :
    ∃ c lists', detach k x.len p.cells = some c ∧
      Repr { p with cells := c } ⟨l ++ (k, .loose x.len) :: m, lists'⟩ := by
  have hxm : (k, x) ∈ l ++ (k, x) :: m := by simp
  have hb := h.tiles.bounds hxm
  simp only at hb
  have hf : ∃ f, f = fill zeroPage (x.len - 1) (k + 1) p.cells := ⟨_, rfl⟩
  have ⟨f, hf⟩ := hf
  have ⟨hn, hv, ho, hi⟩ := h.fill_interior hxm hf
  have hkept {c : Cells} (hs : slabOf c = slabOf f) (ht : typeOf c = typeOf f) :
      Kept k (k + x.len) p { p with cells := c } := by
    refine ⟨rfl, rfl, rfl, rfl, fun j hj => ?_, fun j hj => ?_, fun _ _ => rfl⟩
    · rw [← (ho j (by omega)).left]
      exact congrFun hs j
    · rw [← (ho j (by omega)).right]
      exact congrFun ht j
  have hrec {c : Cells} (hs : slabOf c = slabOf f) (ht : typeOf c = typeOf f) :
      (Span.loose x.len).Records { p with cells := c } k := by
    intro j h₁ h₂
    simp only [hs, ht]
    exact hi j h₁ h₂
  cases hh : x.home p.minShift
  case none =>
    have hl := h.lone k (by omega) (fun s => h.not_mem_of_home hxm hh) fun i hm => hx i <| by
      cases h.tiles.eq_of_start hxm hm rfl
      rfl
    have hnone : (f (.page k)).next = none := by
      rw [← hn] at hl
      exact hl.left
    refine ⟨f, lists, ?_, h.modify rfl (by rw [hh]; rfl) hx (hkept rfl rfl) (hrec rfl rfl) hn hv⟩
    simp only [detach, ← hf, hnone]
    rfl
  case some s =>
    have ⟨a, b, ha, hb, ham, hbm, hedit⟩ := h.remove hh
    have hk := h.mem_of_home hxm hh
    have hs := h.sentinel hk
    have hd := (h.lists s hs).nodup
    simp only at hd
    have hsub := List.cons_subset_cons s (List.erase_subset (a := Ref.page k) (l := lists s))
    -- The pages that are linked are not those behind the first.
    have hne (j : ℕ) (h₁ : k < j) (h₂ : j < k + x.len) {r : Ref}
        (hr : r ∈ s :: (lists s).erase (.page k)) : .page j ≠ r :=
      h.ne_of_interior hxm h₁ h₂ hs (hsub hr)
    have ⟨c, hc, hcn, hcp, hcs, hct⟩ := unlink_spec (c := f) (k := k) (a := a) (b := b)
      (by rw [hv, ha]) (by rw [hn, hb]) (by grind) (by
        rintro j rfl
        rw [(ho j fun hc => hne j hc.left hc.right hbm rfl).right, (ho k (by omega)).right,
          h.typeOf_of_mem_cons hs (hsub hbm), h.typeOf_of_mem hk])
    have hnone : (f (.page k)).next ≠ none := by
      have := hn ▸ hb
      simp only [nextOf] at this
      simp [this]
    refine ⟨c, _, ?_, hedit (.loose x.len) _ rfl rfl (hkept hcs hct) (hrec hcs hct) ?_ ?_⟩
    · simp only [detach, ← hf]
      rw [if_pos hnone, hc]
    · intro r _
      simp only [hcn, hcp, hn, hv, and_self]
    · intro j h₁ h₂ hjk
      have hjk : k < j := by
        have : j ≠ k := fun he => hjk he _ rfl
        omega
      rw [Bare, hcn, hcp, hn, hv, Function.update_of_ne (hne j hjk h₂ ham),
        Function.update_of_ne (hne j hjk h₂ hbm)]
      exact (h.interior hxm hjk h₂).right

-- The pages become the first of the free ones.
theorem attach_spec (h : Repr p ⟨l ++ (k, .loose n) :: m, lists⟩) :
    ∃ c lists', attach k n p.cells = some c ∧
      Repr { p with cells := c } ⟨l ++ (k, .free n) :: m, lists'⟩ ∧
      prevOf c (.page k) = some .free := by
  have hxm : (k, .loose n) ∈ l ++ (k, .loose n) :: m := by simp
  have hr := h.records _ hxm
  have hl := (h.tiles.bounds hxm).right.left
  simp only [Span.len] at hl
  obtain ⟨b, hb, hbm, hedit⟩ := h.push (s := .free) rfl trivial
  have hbk : b ≠ .page k := by
    rintro rfl
    exact h.not_mem_of_home hxm rfl (List.mem_of_ne_of_mem (by simp) hbm)
  have hc : ∃ c, c = setNext .free (some (.page k)) (setPrev b ⟨some (.page k), .page⟩
    (setNext (.page k) (some b) (setPrev (.page k) ⟨some .free, .page⟩
      (setSlab (.page k) (.ofNat 64 n) p.cells)))) := ⟨_, rfl⟩
  obtain ⟨c, hc⟩ := hc
  have hn : nextOf c = Function.update (Function.update (nextOf p.cells) (.page k) (some b)) .free
      (some (.page k)) := by simp [hc]
  have hv : prevOf c = Function.update (Function.update (prevOf p.cells) (.page k) (some .free)) b
      (some (.page k)) := by simp [hc]
  have hs : slabOf c = Function.update (slabOf p.cells) k (.ofNat 64 n) := by simp [hc]
  have ht : typeOf c = Function.update (typeOf p.cells) k .page := by
    rw [hc, typeOf_setNext, typeOf_setPrev]
    · simp
    · rintro j rfl
      have : j ≠ k := fun he => hbk (by rw [he])
      simp [this, h.typeOf_of_mem_cons (s := .free) trivial hbm, listType]
  refine ⟨c, _, ?_, hedit (.free n) { p with cells := c } rfl rfl ⟨rfl, rfl, rfl, rfl, ?_, ?_, ?_⟩
    ⟨?_, ?_, ?_⟩ ?_ ?_, ?_⟩
  · have hf : (p.cells .free).next = some b := hb
    simp [attach, setNext, setPrev, setSlab, hf, hc]
  · intro j hj
    rw [hs, Function.update_of_ne (by simp only [Span.len] at hj; omega)]
  · intro j hj
    rw [ht, Function.update_of_ne (by simp only [Span.len] at hj; omega)]
  · exact fun _ _ => rfl
  · rw [hs, Function.update_self]
  · rw [ht, Function.update_self]
  · intro j h₁ h₂
    rw [hs, ht, Function.update_of_ne (by omega), Function.update_of_ne (by omega)]
    exact hr j h₁ h₂
  · exact fun r _ => ⟨by rw [hn], fun _ => by rw [hv]⟩
  · intro j h₁ h₂
    have hin := h.interior hxm h₁ h₂
    have hjk : Ref.page j ≠ .page k := by
      simp only [ne_eq, Ref.page.injEq]
      omega
    have hjb := h.ne_of_interior hxm h₁ h₂ (s := .free) trivial hbm
    rw [Bare, hn, hv, Function.update_of_ne (by simp), Function.update_of_ne hjk,
      Function.update_of_ne hjb, Function.update_of_ne hjk]
    exact hin.right
  · rw [hv, Function.update_of_ne (Ne.symm hbk), Function.update_self]

theorem ofNat_add_ofNat (m n : ℕ) : BitVec.ofNat 64 m + BitVec.ofNat 64 n = .ofNat 64 (m + n) :=
  (BitVec.ofNat_add m n).symm

theorem scanBack_eq {c : Cells} (hj : slabOf c j ≠ 0) (hz : ∀ i, j < i → i ≤ k → slabOf c i = 0)
    (hk : j ≤ k) : scanBack c k = some j := by
  induction k
  case zero =>
    cases Nat.le_zero.mp hk
    exact if_pos hj
  case succ k hi =>
    rcases Nat.of_le_succ hk with hlt | rfl
    · refine (if_neg ?_).trans (hi (fun i h₁ h₂ => hz i h₁ (Nat.le_succ_of_le h₂)) hlt)
      exact not_not.mpr (hz (k + 1) (Nat.lt_succ_of_le hlt) (Nat.le_refl _))
    · exact if_pos hj

-- The descriptors once the free pages at `k` have left the list
theorem unlink_free (h : Repr p ⟨l ++ (k, .free n) :: m, lists⟩) :
    ∃ a b, prevOf p.cells (.page k) = some a ∧ nextOf p.cells (.page k) = some b ∧ a ≠ .page k ∧
      ∀ c, c = setPrev b ⟨some a, .page⟩ (setNext a (some b) p.cells) →
        slabOf c = slabOf p.cells ∧ typeOf c = typeOf p.cells ∧
        ∃ lists', Repr { p with cells := c } ⟨l ++ (k, .loose n) :: m, lists'⟩ := by
  have hxm : (k, .free n) ∈ l ++ (k, .free n) :: m := by simp
  have hr := h.records _ hxm
  have ⟨a, b, ha, hb, ham, hbm, hedit⟩ := h.remove (s := .free) rfl
  have hsub := List.cons_subset_cons .free
    (List.erase_subset (a := Ref.page k) (l := lists .free))
  have hak : a ≠ .page k := by
    have hd := (h.lists .free trivial).nodup
    simp only at hd
    grind
  refine ⟨a, b, ha, hb, hak, fun c hc => ?_⟩
  have hn : nextOf c = Function.update (nextOf p.cells) a (some b) := by simp [hc]
  have hv : prevOf c = Function.update (prevOf p.cells) b (some a) := by simp [hc]
  have hcs : slabOf c = slabOf p.cells := by simp [hc]
  have hct : typeOf c = typeOf p.cells := by
    rw [hc, typeOf_setPrev, typeOf_setNext]
    intro j hj
    rw [typeOf_setNext, h.typeOf_of_mem_free hbm j hj]
  refine ⟨hcs, hct, _, hedit (.loose n) { p with cells := c } rfl rfl
    ⟨rfl, rfl, rfl, rfl, ?_, ?_, ?_⟩ ?_ ?_ ?_⟩
  · exact fun j _ => by rw [hcs]
  · exact fun j _ => by rw [hct]
  · exact fun _ _ => rfl
  · intro j h₁ h₂
    simp only [hcs, hct]
    exact hr.right.right j h₁ h₂
  · exact fun r _ => ⟨by rw [hn], by rw [hv]⟩
  · intro q h₁ h₂ hq
    have hq : k < q := by
      have : q ≠ k := fun he => hq he _ rfl
      omega
    rw [Bare, hn, hv,
      Function.update_of_ne (h.ne_of_interior hxm hq h₂ (s := .free) trivial (hsub ham)),
      Function.update_of_ne (h.ne_of_interior hxm hq h₂ (s := .free) trivial (hsub hbm))]
    exact (h.interior hxm hq h₂).right

-- What both merges do: the free pages at `k`, which are linked with `a` and `b`, leave the list,
-- and those at `j` grow.
def absorbed (j k : ℕ) (slab : BitVec 64) (a b : Ref) (c : Cells) : Cells :=
  Function.update (setSlab (.page j) slab (setPrev b ⟨some a, .page⟩ (setNext a (some b) c)))
    (.page k) zeroPage

theorem absorb (h : Repr p ⟨l ++ (j, .free i) :: (k, .free n) :: m, lists⟩) :
    ∃ a b, prevOf p.cells (.page k) = some a ∧ nextOf p.cells (.page k) = some b ∧ a ≠ .page k ∧
      ∃ lists', Repr { p with cells := absorbed j k (.ofNat 64 (i + n)) a b p.cells }
        ⟨l ++ (j, .free (i + n)) :: m, lists'⟩ := by
  have hxm : (k, .free n) ∈ l ++ (j, .free i) :: (k, .free n) :: m := by simp
  have hym : (j, .free i) ∈ l ++ (j, .free i) :: (k, .free n) :: m := by simp
  have hr := (h.records _ hxm).right.right
  have hr' := h.records _ hym
  have hjk : j + i = k := h.tiles_split.right.right.left.symm
  have hl := (h.tiles.bounds hxm).right.left
  have hl' := (h.tiles.bounds hym).right.left
  simp only [Span.len] at hl hl'
  rw [show l ++ (j, .free i) :: (k, .free n) :: m = (l ++ [(j, .free i)]) ++ (k, .free n) :: m by
    simp] at h
  obtain ⟨a, b, ha, hb, hak, hloose⟩ := h.unlink_free
  obtain ⟨hs, ht, _, hloose⟩ := hloose _ rfl
  obtain ⟨c, hc⟩ : ∃ c, c = absorbed j k (.ofNat 64 (i + n)) a b p.cells := ⟨_, rfl⟩
  rw [List.append_assoc, List.singleton_append] at hloose
  refine ⟨a, b, ha, hb, hak, ?_⟩
  rw [← hc]
  rw [absorbed] at hc
  refine ⟨_, hloose.merge ⟨rfl, rfl, rfl, rfl, ?_, ?_, fun _ _ => rfl⟩ ⟨?_, ?_, ?_⟩ ?_ ?_⟩
  · intro q hq
    rw [hc, slabOf_update, slabOf_setSlab, Function.update_of_ne (by omega),
      Function.update_of_ne (by omega)]
  · intro q hq
    rw [hc, typeOf_update, typeOf_setSlab, Function.update_of_ne (by omega)]
  · rw [hc, slabOf_update, slabOf_setSlab, Function.update_of_ne (by omega), Function.update_self]
  · rw [hc, typeOf_update, typeOf_setSlab, Function.update_of_ne (by omega), ht]
    exact hr'.right.left
  · intro q h₁ h₂
    rw [hc, slabOf_update, typeOf_update, slabOf_setSlab, typeOf_setSlab, hs, ht]
    by_cases hq : q = k
    case pos =>
      rw [hq, Function.update_self, Function.update_self]
      exact ⟨rfl, rfl⟩
    case neg =>
      rw [Function.update_of_ne hq, Function.update_of_ne hq, Function.update_of_ne (by omega)]
      by_cases hlt : q < k
      · exact hr'.right.right q h₁ (by omega)
      · exact hr q (by omega) (by omega)
  · rw [hc, nextOf_update, nextOf_setSlab]
    rfl
  · rw [hc, prevOf_update, prevOf_setSlab]
    rfl

theorem mergePrev_eq {b : Ref} (hk : k ≠ 0) (he : slabEmpty (k - 1) p = some true)
    (hs : scanBack p.cells (k - 1) = some j) (hb : nextOf p.cells (.page k) = some b) :
    mergePrev k n p = some (j, { p with
      cells := absorbed j k (slabOf p.cells j + .ofNat 64 n) .free b p.cells }) := by
  have hn : setNext .free (some b) p.cells (.page k) = p.cells (.page k) :=
    Function.update_of_ne (by simp) ..
  have hj : (setPrev b ⟨some .free, .page⟩ (setNext .free (some b) p.cells) (.page j)).slab =
      slabOf p.cells j := by
    change slabOf _ j = _
    rw [slabOf_setPrev, slabOf_setNext]
  simp only [nextOf] at hb
  simp [mergePrev, absorbed, hk, he, hs, hb, hn, hj]

-- The spans of free pages in `m` are those in front of the free pages at `k`, of which the last
-- ones may have been merged with them.
theorem mergePrev_spec (h : Repr p ⟨l ++ (k, .free n) :: m, lists⟩)
    (hl : ∀ y ∈ l, y.2.Valid p.minShift) (hk : prevOf p.cells (.page k) = some .free) :
    ∃ j c l' i lists', mergePrev k n p = some (j, { p with cells := c }) ∧
      Repr { p with cells := c } ⟨l' ++ (j, .free i) :: m, lists'⟩ ∧
      ((l' = l ∧ ∀ y ∈ l.getLast?, y.2.isFree = false) ∨ ∃ q, l = l' ++ [(j, .free q)]) := by
  have hxm : (k, .free n) ∈ l ++ (k, .free n) :: m := by simp
  have hb := (h.tiles.bounds hxm)
  have hpages := h.pages
  have hpos := hb.right.left
  have hle := hb.right.right
  simp only [Span.len] at hpos hle
  rcases List.eq_nil_or_concat' l with rfl | ⟨l, y, rfl⟩
  case inl =>
    have hk : 0 = k := h.tiles_split.left
    subst hk
    exact ⟨0, p.cells, [], n, lists, rfl, h, .inl ⟨rfl, by simp⟩⟩
  case inr =>
    obtain ⟨j, y⟩ := y
    have hym : (j, y) ∈ l ++ [(j, y)] ++ (k, .free n) :: m := by simp
    have hjk : j + y.len = k := by
      obtain ⟨q, _, he, _, ht⟩ := Tiles.append_iff.mp h.tiles_split.left
      have he : j = q := he
      have ht : q + y.len = k := ht
      omega
    have hyl := (h.tiles.bounds hym).right.left
    simp only at hyl
    have hv := hl (j, y) (by simp)
    have he := h.slabEmpty_eq hym (j := k - 1) (by omega) (by omega) hv
    have hk0 : k ≠ 0 := by omega
    cases hf : y.isFree
    case false =>
      refine ⟨k, p.cells, _, n, lists, ?_, h, .inl ⟨rfl, by simp [hf]⟩⟩
      simp [mergePrev, hk0, he, hf]
    case true =>
      cases y <;> simp [Span.isFree] at hf
      case free i =>
        simp only [Span.len] at hyl hjk
        have hry := h.records _ hym
        have h' := h
        rw [List.append_assoc, List.singleton_append] at h
        obtain ⟨a, b, ha, hb, hak, lists', hrepr⟩ := h.absorb
        cases ha.symm.trans hk
        have hscan : scanBack p.cells (k - 1) = some j := by
          refine scanBack_eq ?_ (fun q h₁ h₂ => ?_) (by omega)
          · rw [hry.left]
            exact ofNat_ne_zero (by omega) hyl
          · exact (hry.right.right q h₁ (by omega)).left
        refine ⟨j, _, l, i + n, lists', ?_, hrepr, .inr ⟨i, rfl⟩⟩
        have hi : slabOf p.cells j = .ofNat 64 i := hry.left
        rw [mergePrev_eq hk0 he hscan hb, hi, ofNat_add_ofNat]

theorem mergeNext_eq {a b : Ref} (hj : k + (slabOf p.cells k).toNat = j)
    (hlt : j < p.realPages)
    (he : slabEmpty j p = some true) (ht : typeOf p.cells j = .page)
    (ha : prevOf p.cells (.page j) = some a) (hb : nextOf p.cells (.page j) = some b)
    (haj : a ≠ .page j) :
    mergeNext k p = some { p with
      cells := absorbed k j (slabOf p.cells k + slabOf p.cells j) a b p.cells } := by
  have hn : setNext a (some b) p.cells (.page j) = p.cells (.page j) :=
    Function.update_of_ne (Ne.symm haj) ..
  have hs (i : ℕ) : (setPrev b ⟨some a, .page⟩ (setNext a (some b) p.cells) (.page i)).slab =
      slabOf p.cells i := by
    change slabOf _ i = _
    rw [slabOf_setPrev, slabOf_setNext]
  have hr := raw_eq ht
  rw [ha] at hr
  have hp : (p.cells (.page j)).prev = ⟨some a, .page⟩ := by
    rw [← ht, ← ha]
    rfl
  simp only [nextOf] at hb
  simp only [slabOf] at hj
  simp [mergeNext, absorbed, hj, hlt, he, hb, hn, hs, hp, Tagged.raw]

theorem mergeNext_spec (h : Repr p ⟨l ++ (k, .free n) :: m, lists⟩)
    (hm : ∀ y ∈ m, y.2.Valid p.minShift) :
    ∃ c m' i lists', mergeNext k p = some { p with cells := c } ∧
      Repr { p with cells := c } ⟨l ++ (k, .free i) :: m', lists'⟩ ∧
      ((m' = m ∧ ∀ y ∈ m.head?, y.2.isFree = false) ∨ ∃ q j, m = (j, .free q) :: m') := by
  have hxm : (k, .free n) ∈ l ++ (k, .free n) :: m := by simp
  have hs : (slabOf p.cells k).toNat = n := h.toNat_slabOf_free hxm
  obtain ⟨_, hpos, ht⟩ := h.tiles_split
  have hpages := h.pages
  simp only [Span.len] at hpos ht
  cases m
  case nil =>
    have ht : k + n = p.realPages := ht
    refine ⟨p.cells, [], n, lists, ?_, h, .inl ⟨rfl, by simp⟩⟩
    simp only [slabOf] at hs
    simp [mergeNext, hs, ht]
  case cons y m =>
    obtain ⟨j, y⟩ := y
    obtain ⟨hj, hy, ht⟩ := ht
    have hj : j = k + n := hj
    subst hj
    have hym : (k + n, y) ∈ l ++ (k, .free n) :: (k + n, y) :: m := by simp
    have hle := (h.tiles.bounds hym).right.right
    simp only at hy hle
    have he := h.slabEmpty_eq hym (Nat.le_refl _) (by omega) (hm (k + n, y) (by simp))
    cases hf : y.isFree
    case false =>
      refine ⟨p.cells, _, n, lists, ?_, h, .inl ⟨rfl, by simp [hf]⟩⟩
      simp only [slabOf] at hs
      simp [mergeNext, hs, he, hf]
    case true =>
      cases y <;> simp [Span.isFree] at hf
      case free i =>
        obtain ⟨a, b, ha, hb, haj, lists', hrepr⟩ := h.absorb
        have hr := h.records _ hxm
        have hr' := h.records _ hym
        refine ⟨_, m, n + i, lists', ?_, hrepr, .inr ⟨i, _, rfl⟩⟩
        have hn : slabOf p.cells k = .ofNat 64 n := hr.left
        have hi : slabOf p.cells (k + n) = .ofNat 64 i := hr'.left
        rw [mergeNext_eq (by rw [hs]) (by omega) he hr'.right.left ha hb haj, hn, hi,
          ofNat_add_ofNat]

-- The pages are free, together with the free ones on both sides.
theorem freePages_spec (h : Repr p ⟨l ++ (k, x) :: m, lists⟩) (hx : ∀ i, x ≠ .loose i)
    (hl : ∀ y ∈ l, y.2.Valid p.minShift) (hm : ∀ y ∈ m, y.2.Valid p.minShift)
    (hlm : Book.Merged l) (hmm : Book.Merged m) :
    ∃ c l' us vs m' j i lists', freePages k x.len p = some { p with cells := c } ∧
      l = l' ++ us ∧ m = vs ++ m' ∧ (∀ y ∈ us ++ vs, y.2.isFree) ∧
      Book.Merged (l' ++ (j, .free i) :: m') ∧
      Repr { p with cells := c } ⟨l' ++ (j, .free i) :: m', lists'⟩ := by
  have ⟨c₁, _, hc₁, h₁⟩ := h.detach_spec hx
  have ⟨c₂, _, hc₂, h₂, hf⟩ := h₁.attach_spec
  have ⟨j, c₃, l', i, _, hc₃, h₃, hl'⟩ := h₂.mergePrev_spec hl hf
  have ⟨c₄, m', i', lists', hc₄, h₄, hm'⟩ := h₃.mergeNext_spec hm
  have hrun : freePages k x.len p = some { p with cells := c₄ } := by
    simp only [freePages, hc₁, bind, Option.bind_some]
    simp only [hc₂, Option.bind_some, hc₃]
    exact hc₄
  have ⟨us, hus, hul, hlf⟩ : ∃ us, l = l' ++ us ∧ (∀ y ∈ us, y.2.isFree) ∧
      Book.Merged l' ∧ ∀ y ∈ l'.getLast?, y.2.isFree = false := by
    rcases hl' with ⟨rfl, hl'⟩ | ⟨q, rfl⟩
    · exact ⟨[], by simp, by simp, hlm, hl'⟩
    · have ⟨h₁, _, h₂⟩ := Book.merged_iff.mp hlm
      exact ⟨_, rfl, by simp [Span.isFree], h₁, (h₂ rfl).left⟩
  have ⟨vs, hvs, hvm, hmf⟩ : ∃ vs, m = vs ++ m' ∧ (∀ y ∈ vs, y.2.isFree) ∧
      Book.Merged m' ∧ ∀ y ∈ m'.head?, y.2.isFree = false := by
    rcases hm' with ⟨rfl, hm'⟩ | ⟨q, j', rfl⟩
    · exact ⟨[], by simp, by simp, hmm, hm'⟩
    · have ⟨_, h₁, h₂⟩ := Book.merged_iff (l := []).mp hmm
      exact ⟨[_], rfl, by simp [Span.isFree], h₁, (h₂ rfl).right⟩
  refine ⟨c₄, l', us, vs, m', j, i', lists', hrun, hus, hvs, ?_, ?_, h₄⟩
  · exact List.forall_mem_append.mpr ⟨hul, hvm⟩
  · exact Book.merged_iff.mpr ⟨hlf.left, hmf.left, fun _ => ⟨hlf.right, hmf.right⟩⟩

end Slab.Repr
