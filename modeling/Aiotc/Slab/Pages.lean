import Aiotc.Slab.Edits
import Mathlib.Data.List.Perm.Subperm

-- What the operations on whole pages do to the book.

open Tiling

namespace Slab

-- The type that the pages of a list have.
def listType (minShift : ℕ) : Ref → SlabType
  | .slot i => slabType (minShift + i)
  | _       => .page

section Links

variable {c : Cells} {k : ℕ} {a b : Ref}

theorem unlink_spec (ha : prevOf c (.page k) = some a) (hb : nextOf c (.page k) = some b)
    (hak : a ≠ .page k) (ht : ∀ j, b = .page j → typeOf c j = typeOf c k) :
    ∃ c', unlink k c = some c' ∧ nextOf c' = Function.update (nextOf c) a (some b) ∧
      prevOf c' = Function.update (prevOf c) b (some a) ∧ slabOf c' = slabOf c ∧
      typeOf c' = typeOf c := by
  have hn : (setNext a (c (.page k)).next c (.page k)) = c (.page k) :=
    Function.update_of_ne (Ne.symm hak) ..
  simp only [prevOf] at ha
  simp only [nextOf] at hb
  rw [hb] at hn
  refine ⟨setPrev b (c (.page k)).prev (setNext a (some b) c), ?_, ?_, ?_, ?_, ?_⟩
  · simp [unlink, ha, hn, hb]
  · simp
  · simp [ha]
  · simp
  · rw [typeOf_setPrev, typeOf_setNext]
    intro j hj
    rw [typeOf_setNext, ht j hj]
    rfl

theorem raw_eq (h : typeOf c k = .page) : (c (.page k)).prev.raw = prevOf c (.page k) :=
  if_pos h

theorem cut_eq_unlink {pages : ℕ} (ht : typeOf c k = .page)
    (hs : ¬pages < (slabOf c k).toNat) : cut k pages c = unlink k c := by
  simp only [slabOf] at hs
  simp only [cut, hs, if_false, raw_eq ht]
  rfl

theorem cut_spec {pages : ℕ} (hs : pages < (slabOf c k).toNat) (hp : 0 < pages)
    (ht : typeOf c k = .page) (ha : prevOf c (.page k) = some a) (hb : nextOf c (.page k) = some b)
    (hak : a ≠ .page k) (htb : ∀ j, b = .page j → typeOf c j = .page) :
    ∃ c', cut k pages c = some c' ∧
      nextOf c' = Function.update (Function.update (nextOf c) (.page (k + pages)) (some b)) a
        (some (.page (k + pages))) ∧
      prevOf c' = Function.update (Function.update (prevOf c) (.page (k + pages)) (some a)) b
        (some (.page (k + pages))) ∧
      slabOf c' = Function.update (slabOf c) (k + pages) (slabOf c k - .ofNat 64 pages) ∧
      typeOf c' = Function.update (typeOf c) (k + pages) .page := by
  have hr := raw_eq ht
  simp only [prevOf] at ha hr
  simp only [nextOf] at hb
  have hc : ∃ c₁, c₁ = Function.update c (.page (k + pages))
      ⟨slabOf c k - .ofNat 64 pages, some b, (c (.page k)).prev⟩ := ⟨_, rfl⟩
  obtain ⟨c₁, hc⟩ := hc
  have hk : setNext a (some (.page (k + pages))) c₁ (.page k) = c (.page k) := by
    have hn : Ref.page k ≠ .page (k + pages) := by
      simp only [ne_eq, Ref.page.injEq]
      omega
    rw [setNext, Function.update_of_ne (Ne.symm hak), hc, Function.update_of_ne hn]
  have ht' : typeOf c₁ = Function.update (typeOf c) (k + pages) .page := by
    rw [hc, typeOf_update]
    exact congrArg _ ht
  refine ⟨setPrev b ⟨some (.page (k + pages)), .page⟩
    (setNext a (some (.page (k + pages))) c₁), ?_, ?_, ?_, ?_, ?_⟩
  · simp only [slabOf] at hs hc
    simp [cut, hs, hr, ha, hb, ← hc, hk]
  · simp [hc]
  · simp [hc, ha]
  · simp [hc]
  · rw [typeOf_setPrev, typeOf_setNext, ht']
    intro j hj
    rw [typeOf_setNext, ht']
    by_cases he : j = k + pages
    · rw [he, Function.update_self]
    · rw [Function.update_of_ne he, htb j hj]

end Links

namespace Repr

variable {p : SlabPool} {v : View} {x : Span} {j k : ℕ} {s q r : Ref}

theorem length_le (h : Repr p v) (hs : Sentinel p.minShift s) :
    (v.lists s).length ≤ p.realPages := by
  have hd := (List.nodup_cons.mp (h.lists s hs).nodup).right
  have hsub : v.lists s ⊆ (List.range p.realPages).map .page := by
    intro r hr
    obtain ⟨k, hk, rfl⟩ := h.exists_page hr
    simpa using hk
  simpa using (List.subperm_of_subset hd hsub).length_le

-- The way back from a page leads to the start of its list.
theorem walkBack_eq (h : Repr p v) (hs : Sentinel p.minShift s) (hr : r ∈ v.lists s) :
    walkBack p.cells (p.realPages + 1) (prevOf p.cells r) = some (some s) := by
  have ⟨i, hi⟩ := List.mem_iff_getElem?.mp hr
  have hl := h.length_le hs
  have hil : i < (v.lists s).length := (List.getElem?_eq_some_iff.mp hi).1
  generalize p.realPages = n at hl
  replace hil : i < n := by omega
  clear hl
  induction i generalizing r n
  case zero =>
    rw [(h.lists s hs).chain.prev_of_getElem? hi]
    cases s
    case free   => rfl
    case slot   => rfl
    case page k => cases hs
  case succ i ih =>
    rw [(h.lists s hs).chain.prev_of_getElem? hi, List.getElem?_cons_succ]
    cases n
    case zero => omega
    case succ n =>
      cases hg : (v.lists s)[i]?
      case none =>
        have := List.getElem?_eq_none_iff.mp hg
        have := (List.getElem?_eq_some_iff.mp hi).1
        omega
      case some q =>
        obtain ⟨k, _, rfl⟩ := h.exists_page (List.mem_of_getElem? hg)
        exact ih (List.mem_of_getElem? hg) hg n (by omega)

theorem typeOf_of_mem (h : Repr p v) (hk : .page k ∈ v.lists s) :
    typeOf p.cells k = listType p.minShift s := by
  have ⟨⟨i, x⟩, hx, hi, hh⟩ := (h.mem s _).mp hk
  cases hi
  have hx := h.records _ hx
  cases x
  case pages => cases hh
  case loose => cases hh
  case free n =>
    cases hh
    exact hx.right.left
  case chunks shift used =>
    have ⟨hs, _, ht, _⟩ := hx
    simp only [Span.home] at hh
    split at hh
    · cases hh
    · cases hh
      rw [ht, listType, Nat.add_sub_cancel' hs]

theorem typeOf_of_mem_cons (h : Repr p v) (hs : Sentinel p.minShift s)
    (hk : .page k ∈ s :: v.lists s) : typeOf p.cells k = listType p.minShift s := by
  rcases List.mem_cons.mp hk with rfl | hk
  · cases hs
  · exact h.typeOf_of_mem hk

-- What is linked in a list has a page before it and one behind it.
theorem exists_links (h : Repr p v) (hk : .page k ∈ v.lists s) :
    ∃ a b, prevOf p.cells (.page k) = some a ∧ nextOf p.cells (.page k) = some b := by
  have ⟨a, b, ha, hb, _⟩ := (h.lists s (h.sentinel hk)).remove hk
  exact ⟨a, b, ha, hb⟩

theorem toNat_ofNat {n : ℕ} (hn : n < 2 ^ 64) : (BitVec.ofNat 64 n).toNat = n := by
  rw [BitVec.toNat_ofNat, Nat.mod_eq_of_lt hn]

theorem ofNat_ne_zero {n : ℕ} (hn : n < 2 ^ 64) (h : 0 < n) : BitVec.ofNat 64 n ≠ 0 := by
  intro hc
  have := toNat_ofNat hn
  rw [hc] at this
  simp only [BitVec.toNat_zero, BitVec.ofNat_eq_ofNat] at this
  omega

theorem ofNat_sub_ofNat {m n : ℕ} (h : m ≤ n) (hn : n < 2 ^ 64) :
    BitVec.ofNat 64 n - BitVec.ofNat 64 m = .ofNat 64 (n - m) := by
  apply BitVec.eq_of_toNat_eq
  rw [BitVec.toNat_sub, toNat_ofNat hn, toNat_ofNat (by omega), toNat_ofNat (by omega)]
  omega

theorem startBit_ne_zero {w : BitVec 64} : w ||| startBit ≠ 0 :=
  ne_zero_iff.mpr ⟨63, by decide, by simp [startBit]⟩

theorem busyMap_ne_zero : busyMap ≠ 0 := by
  decide

theorem chunks_ne_zero {shift : ℕ} {used : Finset ℕ} (hm : 0 < p.minShift)
    (hr : (Span.chunks shift used).Records p k) (hv : (Span.chunks shift used).Valid p.minShift) :
    slabOf p.cells k ≠ 0 := by
  obtain ⟨hs, hs', _, hw, hb⟩ := hr
  simp only [pagesizeShift] at hs'
  simp only [ShiftIs] at hw
  split at hw
  case isTrue =>
    rw [hw]
    exact ofNat_ne_zero (by omega) (by omega)
  case isFalse h₁ =>
    split at hw
    case isTrue h₂ =>
      subst h₂
      obtain ⟨_, _, hu, _, i, hi, _⟩ := hv
      have hi' := Finset.mem_range.mp (hu hi)
      refine ne_zero_iff.mpr ⟨i, hi', ?_⟩
      have := hb i hi'
      simpa [mapBit, exactShift, hi] using this
    case isFalse h₂ =>
      intro hc
      rw [hc] at hw
      exact ofNat_ne_zero (by omega) (by omega) (hw.symm.trans (BitVec.zero_and ..))

theorem slabEmpty_of_zero (h : slabOf p.cells j = 0) : slabEmpty j p = some true :=
  if_pos h

theorem slabEmpty_of_none (h : slabOf p.cells j ≠ 0) (hn : nextOf p.cells (.page j) = none) :
    slabEmpty j p = some false :=
  (if_neg h).trans (if_pos hn)

theorem slabEmpty_of_walk (h : slabOf p.cells j ≠ 0) (hn : nextOf p.cells (.page j) ≠ none)
    (hw : walkBack p.cells (p.realPages + 1) (prevOf p.cells (.page j)) = some (some s)) :
    slabEmpty j p = some (decide (s = .free)) := by
  refine ((if_neg h).trans (if_neg hn)).trans ?_
  simp only [prevOf] at hw
  simp [hw]

-- Which pages take part in a merge: exactly the free ones.
theorem slabEmpty_eq (h : Repr p v) (hx : (k, x) ∈ v.book) (hk : k ≤ j) (hj : j < k + x.len)
    (hv : x.Valid p.minShift) : slabEmpty j p = some x.isFree := by
  have hr := h.records _ hx
  have hb := h.tiles.bounds hx
  have hm := h.shift
  have hp := h.pages
  simp only at hb
  have hlone (hn : x.home p.minShift = none) (hl : ∀ i, x ≠ .loose i) :
      nextOf p.cells (.page j) = none := by
    by_cases he : j = k
    case pos =>
      subst he
      refine (h.lone j (by omega) (fun s => h.not_mem_of_home hx hn) fun i hi => hl i ?_).left
      cases h.tiles.eq_of_start hx hi rfl
      rfl
    case neg => exact (h.interior hx (by omega) hj).right.left
  have hwalk {s : Ref} (hh : x.home p.minShift = some s) (hs : slabOf p.cells k ≠ 0) :
      slabEmpty k p = some (decide (s = .free)) := by
    have hk := h.mem_of_home hx hh
    have ⟨a, b, _, hb⟩ := h.exists_links hk
    exact slabEmpty_of_walk hs (by simp [hb]) (h.walkBack_eq (h.sentinel hk) hk)
  cases x
  case loose  => cases hv
  case free n =>
    obtain ⟨hs, -, hi⟩ := hr
    by_cases he : j = k
    case pos =>
      subst he
      rw [hwalk rfl]
      · rfl
      · rw [hs]
        exact ofNat_ne_zero (by simp only [Span.len] at hb; omega) hb.right.left
    case neg => exact slabEmpty_of_zero (hi j (by omega) hj).left
  case pages n =>
    refine slabEmpty_of_none ?_ (hlone rfl (by simp))
    by_cases he : j = k
    case pos =>
      rw [he, hr.left]
      exact startBit_ne_zero
    case neg =>
      rw [(hr.right.right j (by omega) hj).left]
      exact busyMap_ne_zero
  case chunks shift used =>
    have he : j = k := by
      simp only [Span.len] at hj
      omega
    subst he
    have hn := chunks_ne_zero (by omega) hr hv
    by_cases hf : used = .range (chunkCount shift)
    case pos => exact slabEmpty_of_none hn (hlone (by simp [Span.home, hf]) (by simp))
    case neg =>
      rw [hwalk (s := .slot (shift - p.minShift)) (by simp [Span.home, hf]) hn]
      rfl

-- What the loop over the free pages finds.
theorem firstFit_eq {c : Cells} {a : Ref} {xs : List Ref} {n : ℕ} (pages : ℕ)
    (h : Ring.Chain (nextOf c) (prevOf c) a xs .free) (hx : ∀ r ∈ xs, ∃ k, r = .page k)
    (hn : xs.length ≤ n) :
    ∃ r res, nextOf c a = some r ∧ firstFit pages c n r = some res ∧
      match res with
      | none   => ∀ k, .page k ∈ xs → (slabOf c k).toNat < pages
      | some k => .page k ∈ xs ∧ pages ≤ (slabOf c k).toNat := by
  induction xs generalizing a n
  case nil =>
    refine ⟨.free, none, h, ?_, by simp⟩
    cases n <;> rfl
  case cons r xs hi =>
    obtain ⟨hr, -, h⟩ := h
    obtain ⟨k, rfl⟩ := hx r List.mem_cons_self
    cases n
    case zero => simp at hn
    case succ n =>
      by_cases hf : pages ≤ (slabOf c k).toNat
      case pos => exact ⟨_, some k, hr, if_pos hf, List.mem_cons_self, hf⟩
      case neg =>
        have ⟨r, res, hr', hres, hm⟩ := hi h (fun r hr => hx r (List.mem_cons_of_mem _ hr))
          (Nat.le_of_succ_le_succ hn)
        refine ⟨_, res, hr, ?_, ?_⟩
        · simp only [nextOf] at hr'
          simp only [slabOf] at hf
          simp [firstFit, hf, hr', hres]
        · cases res
          case none =>
            intro j hj
            rcases List.mem_cons.mp hj with hj | hj
            · cases hj
              omega
            · exact hm j hj
          case some => exact ⟨List.mem_cons_of_mem _ hm.left, hm.right⟩

theorem toNat_slabOf_free {n : ℕ} (h : Repr p v) (hx : (k, .free n) ∈ v.book) :
    (slabOf p.cells k).toNat = n := by
  have hb := (h.tiles.bounds hx).right.right
  have := h.pages
  rw [(h.records _ hx).left]
  exact toNat_ofNat (by simp only [Span.len] at hb; omega)

-- What is left of `n` free pages at `k` when `pages` of them are used.
def leftover (k pages n : ℕ) : Book :=
  if pages < n then [(k + pages, .free (n - pages))] else []

-- What `ncx_slab_alloc_pages` makes of the pages that have left the list.
def busyPages (k pages : ℕ) (c : Cells) : Cells :=
  fill busyPage (pages - 1) (k + 1) (Function.update c (.page k)
    { slab := .ofNat 64 pages ||| startBit, next := none, prev := ⟨none, .page⟩ })

section BusyPages

variable {c : Cells} {n : ℕ}

theorem busyPages_of_off (hn : 0 < n) (h : Off k n r) : busyPages k n c r = c r := by
  rw [busyPages, fill_of_off fun j h₁ h₂ => h j (by omega) (by omega),
    Function.update_of_ne (h k (by omega) (by omega))]

theorem slabOf_busyPages (hn : 0 < n) (h : ¬(k ≤ j ∧ j < k + n)) :
    slabOf (busyPages k n c) j = slabOf c j := by
  rw [slabOf, busyPages_of_off hn (off_of_not_mem h)]
  rfl

theorem typeOf_busyPages (hn : 0 < n) (h : ¬(k ≤ j ∧ j < k + n)) :
    typeOf (busyPages k n c) j = typeOf c j := by
  rw [typeOf, busyPages_of_off hn (off_of_not_mem h)]
  rfl

theorem busyPages_self : busyPages k n c (.page k) =
    { slab := .ofNat 64 n ||| startBit, next := none, prev := ⟨none, .page⟩ } := by
  rw [busyPages, fill_of_off (off_of_not_mem (by omega)), Function.update_self]

theorem busyPages_of_mem (h₁ : k < j) (h₂ : j < k + n) :
    busyPages k n c (.page j) = busyPage := by
  rw [busyPages, fill_of_mem h₁ (by omega)]

theorem bare_busyPages (h₁ : k ≤ j) (h₂ : j < k + n) : Bare (busyPages k n c) j := by
  rw [Bare, nextOf, prevOf]
  by_cases he : j = k
  case pos =>
    rw [he, busyPages_self]
    exact ⟨rfl, rfl⟩
  case neg =>
    rw [busyPages_of_mem (by omega) h₂]
    exact ⟨rfl, rfl⟩

theorem records_busyPages : (Span.pages n).Records { p with cells := busyPages k n c } k := by
  simp only [Span.Records, slabOf, typeOf, busyPages_self, true_and]
  intro j h₁ h₂
  rw [busyPages_of_mem h₁ h₂]
  exact ⟨rfl, rfl⟩

end BusyPages

-- The type of what is linked with free pages
theorem typeOf_of_mem_free {lists : Ref → List Ref} {b : Book} (h : Repr p ⟨b, lists⟩)
    (hr : r ∈ .free :: (lists .free).erase q) : ∀ j, r = .page j → typeOf p.cells j = .page := by
  rintro j rfl
  exact h.typeOf_of_mem_cons (s := .free) trivial (List.cons_subset_cons _ List.erase_subset hr)

theorem take_spec {lists : Ref → List Ref} {l m : Book} {n pages : ℕ}
    (h : Repr p ⟨l ++ (k, .free n) :: m, lists⟩) (hp : 0 < pages) (hn : pages ≤ n) :
    ∃ c lists', cut k pages p.cells = some c ∧ (∀ s, s ≠ .free → lists' s = lists s) ∧
      Repr { p with cells := busyPages k pages c }
        ⟨l ++ ((k, .pages pages) :: leftover k pages n) ++ m, lists'⟩ := by
  have hx : (k, .free n) ∈ l ++ (k, .free n) :: m := by simp
  have hb := (h.tiles.bounds hx).right.right
  have hpages := h.pages
  have hs : (slabOf p.cells k).toNat = n := h.toNat_slabOf_free hx
  obtain ⟨hw, ht, hi⟩ := h.records _ hx
  have hne {r : Ref} (hr : r ∈ .free :: (lists .free).erase (.page k)) : r ≠ .page k := by
    have hd := (h.lists .free trivial).nodup
    simp only at hd
    grind
  simp only [Span.len] at hb hw ht hi
  have hoff {n : ℕ} {c : Cells} (h : 0 < n) :
      ∀ r, Off k n r → nextOf (busyPages k n c) r = nextOf c r ∧
        prevOf (busyPages k n c) r = prevOf c r := by
    intro r hr
    simp only [nextOf, prevOf, busyPages_of_off h hr, true_and]
  have hkept {c : Cells} (hs : ∀ j, ¬(k ≤ j ∧ j < k + n) → slabOf c j = slabOf p.cells j)
      (ht : ∀ j, ¬(k ≤ j ∧ j < k + n) → typeOf c j = typeOf p.cells j) :
      Kept k (k + n) p { p with cells := busyPages k pages c } := by
    refine ⟨rfl, rfl, rfl, rfl, fun j hj => ?_, fun j hj => ?_, fun _ _ => rfl⟩
    · rw [← hs j hj, slabOf_busyPages hp (by omega)]
    · rw [← ht j hj, typeOf_busyPages hp (by omega)]
  by_cases hlt : pages < n
  case pos =>
    obtain ⟨a, b, ha, hb, ham, hbm, hedit⟩ := h.split hlt hp
    obtain ⟨c, hc, hcn, hcp, hcs, hct⟩ := Slab.cut_spec (hs.symm ▸ hlt) hp ht ha hb (hne ham)
      (h.typeOf_of_mem_free hbm)
    rw [leftover, if_pos hlt, List.append_assoc]
    have hs (s : Ref) (hs : s ≠ .free) := Function.update_of_ne hs
      ((lists .free).replace (.page k) (.page (k + pages))) lists
    refine ⟨c, _, hc, hs, ?_⟩
    · refine hedit (.pages pages) _ rfl rfl (by simp) (hkept ?_ ?_) records_busyPages ?_ ?_ ?_
      · intro j hj
        rw [hcs, Function.update_of_ne (by omega)]
      · intro j hj
        rw [hct, Function.update_of_ne (by omega)]
      · refine ⟨?_, ?_, fun j h₁ h₂ => ?_⟩
        · rw [slabOf_busyPages hp (by omega), hcs, Function.update_self, hw]
          exact ofNat_sub_ofNat (Nat.le_of_lt hlt) (by omega)
        · rw [typeOf_busyPages hp (by omega), hct, Function.update_self]
        · rw [slabOf_busyPages hp (by omega), typeOf_busyPages hp (by omega), hcs, hct,
            Function.update_of_ne (by omega), Function.update_of_ne (by omega)]
          exact hi j (by omega) (by omega)
      · intro r hr
        rw [(hoff hp r hr).left, (hoff hp r hr).right, hcn, hcp]
        exact ⟨rfl, rfl⟩
      · exact fun j h₁ h₂ => bare_busyPages h₁ h₂
  case neg =>
    have hn : pages = n := by omega
    subst hn
    obtain ⟨a, b, ha, hb, ham, hbm, hedit⟩ := h.remove (s := .free) rfl
    obtain ⟨c, hc, hcn, hcp, hcs, hct⟩ := unlink_spec ha hb (hne ham)
      fun j hj => (h.typeOf_of_mem_free hbm j hj).trans ht.symm
    rw [leftover, if_neg hlt, List.append_assoc]
    have he : cut k pages p.cells = some c := (cut_eq_unlink ht (by omega)).trans hc
    have hs (s : Ref) (hs : s ≠ .free) := Function.update_of_ne hs
      ((lists .free).erase (.page k)) lists
    refine ⟨c, _, he, hs, ?_⟩
    · refine hedit (.pages pages) _ rfl rfl (hkept ?_ ?_) records_busyPages ?_ ?_
      · exact fun j _ => by rw [hcs]
      · exact fun j _ => by rw [hct]
      · intro r hr
        rw [(hoff hp r hr).left, (hoff hp r hr).right, hcn, hcp]
        exact ⟨rfl, rfl⟩
      · exact fun j h₁ h₂ _ => bare_busyPages h₁ h₂

-- The outcome of an allocation of pages: there is none exactly if no free pages are enough.
theorem allocPages_spec {n : ℕ} (h : Repr p v) (hn : 0 < n) :
    ∃ res p', allocPages n p = some (res, p') ∧
      match res with
      | none   => p' = p ∧ ∀ k i, (k, .free i) ∈ v.book → i < n
      | some k => ∃ l m i lists c, p' = { p with cells := c } ∧ v.book = l ++ (k, .free i) :: m ∧
          n ≤ i ∧ (∀ s, s ≠ .free → lists s = v.lists s) ∧
          Repr p' ⟨l ++ ((k, .pages n) :: leftover k n i) ++ m, lists⟩ := by
  have hf := h.lists .free trivial
  obtain ⟨r, res, hr, hres, hm⟩ := firstFit_eq n hf.chain
    (fun r hr => (h.exists_page hr).imp fun _ h => h.right)
    (Nat.le_succ_of_le (h.length_le (s := .free) trivial))
  simp only [nextOf] at hr
  cases res
  case none =>
    refine ⟨none, p, by simp [allocPages, hr, hres], rfl, fun k i hx => ?_⟩
    have := hm k (h.mem_of_home hx rfl)
    rwa [h.toNat_slabOf_free hx] at this
  case some k =>
    obtain ⟨⟨j, x⟩, hx, hj, hh⟩ := (h.mem .free _).mp hm.left
    cases hj
    cases x
    case pages  => cases hh
    case loose  => cases hh
    case chunks =>
      simp only [Span.home] at hh
      split at hh <;> cases hh
    case free i =>
      obtain ⟨l, m, he⟩ := List.append_of_mem hx
      have hle := hm.right
      rw [h.toNat_slabOf_free hx] at hle
      obtain ⟨book, lists⟩ := v
      cases he
      obtain ⟨c, lists', hc, hl, hrepr⟩ := h.take_spec hn hle
      refine ⟨some j, _, ?_, l, m, i, lists', _, rfl, rfl, hle, hl, hrepr⟩
      simp only [allocPages, hr, hres, bind, Option.bind_some, hc]
      rfl

end Repr

end Slab
