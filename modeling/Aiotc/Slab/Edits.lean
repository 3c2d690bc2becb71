import Aiotc.Slab.Repr

-- The ways in which the descriptors of a pool change, each as a change of its book.

open Tiling

namespace Slab.Repr

variable {p p' : SlabPool} {v : View} {lists : Ref → List Ref} {l m : Book} {x x' : Span}
  {a b k n i j : ℕ} {s s' r : Ref}

theorem tiles_split (h : Repr p ⟨l ++ (k, x) :: m, lists⟩) :
    Tiles Span.len 0 l k ∧ 0 < x.len ∧ Tiles Span.len (k + x.len) m p.realPages :=
  h.tiles.split

-- A page that is not the first of its span is in no list.
theorem interior (h : Repr p v) (hx : (k, x) ∈ v.book) (hk : k < j) (hj : j < k + x.len) :
    (∀ s, .page j ∉ v.lists s) ∧ nextOf p.cells (.page j) = none ∧
      prevOf p.cells (.page j) = none := by
  have hn : ∀ y, (j, y) ∉ v.book := by
    intro y hy
    have hp := (h.tiles.bounds hy).right.left
    have he := h.tiles.eq_of_covers hx hy (j := j) ⟨Nat.le_of_lt hk, hj⟩
      ⟨Nat.le_refl _, by simp only at hp ⊢; omega⟩
    have : k = j := congrArg Prod.fst he
    omega
  have hl : ∀ s, .page j ∉ v.lists s := by
    intro s hs
    have ⟨y, hy, he, _⟩ := (h.mem s _).mp hs
    have he : j = y.1 := by simpa using he
    exact hn y.2 (he ▸ hy)
  have := (h.tiles.bounds hx).right.right
  exact ⟨hl, h.lone j (by simp only at this; omega) hl fun n => hn _⟩

theorem ne_of_interior (h : Repr p v) (hx : (k, x) ∈ v.book) (hk : k < j) (hj : j < k + x.len)
    (hs : Sentinel p.minShift s) (hr : r ∈ s :: v.lists s) : .page j ≠ r := by
  rintro rfl
  rcases List.mem_cons.mp hr with rfl | hr
  · exact hs
  · exact (h.interior hx hk hj).left s hr

theorem not_mem_of_home (h : Repr p v) (hx : (k, x) ∈ v.book) (hh : x.home p.minShift = none) :
    .page k ∉ v.lists s := by
  intro hs
  have ⟨y, hy, he, hh'⟩ := (h.mem s _).mp hs
  cases h.tiles.eq_of_start hx hy (by simpa using he)
  cases hh.symm.trans hh'

theorem mem_of_home (h : Repr p v) (hx : (k, x) ∈ v.book) (hh : x.home p.minShift = some s) :
    .page k ∈ v.lists s :=
  (h.mem s _).mpr ⟨_, hx, rfl, hh⟩

theorem sentinel_of_home (h : Repr p v) (hx : (k, x) ∈ v.book)
    (hh : x.home p.minShift = some s) : Sentinel p.minShift s :=
  h.sentinel (h.mem_of_home hx hh)

-- What is linked in one list is not linked in another.
theorem not_mem_of_ne (h : Repr p v) (hs : Sentinel p.minShift s)
    (hs' : Sentinel p.minShift s') (hn : s ≠ s') (hr : r ∈ s :: v.lists s) :
    r ∉ s' :: v.lists s' := by
  intro hr'
  rcases List.mem_cons.mp hr with rfl | hr <;> rcases List.mem_cons.mp hr' with rfl | hr'
  · exact hn rfl
  · exact h.sentinel_not_mem hs hr'
  · exact h.sentinel_not_mem hs' hr
  · exact hn (h.list_unique hr hr')

def Bare (c : Cells) (k : ℕ) : Prop :=
  nextOf c (.page k) = none ∧ prevOf c (.page k) = none

theorem off_of_mem (h : Repr p v) (hx : (k, x) ∈ v.book) (hs : Sentinel p.minShift s)
    (hr : r ∈ s :: v.lists s') (hk : r ≠ .page k) : Off k x.len r := by
  rintro j h₁ h₂ rfl
  rcases List.mem_cons.mp hr with rfl | hr
  · exact hs
  · have hj : j ≠ k := fun hc => hk (by rw [hc])
    exact (h.interior hx (by omega) h₂).left _ hr

-- A span stays in its place, if it has one.
theorem modify (h : Repr p ⟨l ++ (k, x) :: m, lists⟩) (hl : x'.len = x.len)
    (hh : x'.home p.minShift = x.home p.minShift) (hi : ∀ i, x ≠ .loose i)
    (hp : Kept k (k + x.len) p p') (hr : x'.Records p' k)
    (hn : nextOf p'.cells = nextOf p.cells) (hv : prevOf p'.cells = prevOf p.cells) :
    Repr p' ⟨l ++ (k, x') :: m, lists⟩ := by
  have ⟨h₁, hpos, h₂⟩ := h.tiles_split
  have hx : (k, x) ∈ l ++ (k, x) :: m := by simp
  have hb := h
  rw [← List.singleton_append, ← List.append_assoc] at h ⊢
  refine h.reshape h₁ (by simp [hpos]) h₂ (by simp [hl, hpos]) hp (by simpa using hr) ?_ ?_ ?_ ?_
  · rw [hn, hv]
    exact h.lists
  · intro s r
    simp only [List.mem_singleton, forall_eq, exists_eq_left, hh]
    constructor
    · intro hs
      by_cases hk : r = .page k
      · subst hk
        have ⟨y, hy, he, hh'⟩ := (hb.mem s _).mp hs
        cases hb.tiles.eq_of_start hx hy (by simpa using he)
        exact .inr ⟨rfl, hh'⟩
      · exact .inl ⟨hs, hk⟩
    · rintro (⟨hs, -⟩ | ⟨rfl, hs⟩)
      · exact hs
      · exact hb.mem_of_home hx hs
  · exact fun k _ _ => ⟨by rw [hn], by rw [hv]⟩
  · intro j hj hj' hs _
    rw [hn, hv]
    by_cases he : j = k
    case pos =>
      subst he
      have := (hb.tiles.bounds hx).right.right
      refine hb.lone j (by simp only at this; omega) hs fun i hm => hi i ?_
      cases hb.tiles.eq_of_start hx hm rfl
      rfl
    case neg => exact (hb.interior hx (by omega) hj').right

-- A span leaves its list.
theorem remove (h : Repr p ⟨l ++ (k, x) :: m, lists⟩) (hh : x.home p.minShift = some s) :
    ∃ a b, prevOf p.cells (.page k) = some a ∧ nextOf p.cells (.page k) = some b ∧
      a ∈ s :: (lists s).erase (.page k) ∧ b ∈ s :: (lists s).erase (.page k) ∧
      ∀ x' p', x'.len = x.len → x'.home p.minShift = none → Kept k (k + x.len) p p' →
        x'.Records p' k →
        (∀ r, Off k x.len r →
          nextOf p'.cells r = Function.update (nextOf p.cells) a (some b) r ∧
          prevOf p'.cells r = Function.update (prevOf p.cells) b (some a) r) →
        (∀ j, k ≤ j → j < k + x.len → (j = k → ∀ i, x' ≠ .loose i) → Bare p'.cells j) →
        Repr p' ⟨l ++ (k, x') :: m,
          Function.update lists s ((lists s).erase (.page k))⟩ := by
  have ⟨h₁, hpos, h₂⟩ := h.tiles_split
  have hx : (k, x) ∈ l ++ (k, x) :: m := by simp
  have hm : .page k ∈ lists s := h.mem_of_home hx hh
  have hs := h.sentinel_of_home hx hh
  have hd := (h.lists s hs).nodup
  have ⟨a, b, ha, hb, ham, hbm, hring⟩ := (h.lists s hs).remove hm
  refine ⟨a, b, ha, hb, ham, hbm, fun x' p' hl hh' hp hr hn hbare => ?_⟩
  have hsub := List.cons_subset_cons s (List.erase_subset (a := Ref.page k) (l := lists s))
  have hne : ∀ r ∈ s :: (lists s).erase (.page k), r ≠ .page k := by grind
  have hv := h
  rw [← List.singleton_append, ← List.append_assoc] at h ⊢
  refine h.reshape h₁ (by simp [hpos]) h₂ (by simp [hl, hpos]) hp (by simpa using hr) ?_ ?_ ?_ ?_
  · intro s' hs'
    by_cases he : s' = s
    case pos =>
      subst he
      rw [Function.update_self]
      have ho (r : Ref) (hr : r ∈ s' :: (lists s').erase (.page k)) :=
        hn r (hv.off_of_mem hx hs (hsub hr) (hne r hr))
      exact hring.frame (fun r hr => (ho r hr).left)
        fun r hr => (ho r (List.mem_cons_of_mem _ hr)).right
    case neg =>
      rw [Function.update_of_ne he]
      have hno (r : Ref) (hr : r ∈ s' :: lists s') : r ∉ s :: lists s :=
        hv.not_mem_of_ne hs' hs he hr
      have ho (r : Ref) (hr : r ∈ s' :: lists s') := hn r (hv.off_of_mem hx hs' hr
        fun hc => hno r hr (List.mem_cons_of_mem _ (hc ▸ hm)))
      refine (hv.lists s' hs').frame (fun r hr => ?_) fun r hr => ?_
      · rw [(ho r hr).left, Function.update_of_ne]
        exact fun hc => hno r hr (hc ▸ hsub ham)
      · have hr := List.mem_cons_of_mem s' hr
        rw [(ho r hr).right, Function.update_of_ne]
        exact fun hc => hno r hr (hc ▸ hsub hbm)
  · intro s' r
    simp only [List.mem_singleton, forall_eq, exists_eq_left]
    rw [hh']
    by_cases he : s' = s
    case pos =>
      subst he
      rw [Function.update_self, List.Nodup.mem_erase_iff (List.nodup_cons.mp hd).right]
      simp [and_comm]
    case neg =>
      rw [Function.update_of_ne he]
      simp only [reduceCtorEq, and_false, or_false, iff_self_and]
      rintro hr rfl
      exact he (hv.list_unique hr hm)
  · intro j hj hnl
    have hno : ∀ r ∈ s :: (lists s).erase (.page k), .page j ≠ r := by
      rintro r hr rfl
      rcases List.mem_cons.mp (hsub hr) with rfl | hr
      · exact hs
      · exact hnl s hr
    have ho := hn (.page j) (off_of_not_mem hj)
    rw [ho.left, ho.right, Function.update_of_ne (hno a ham), Function.update_of_ne (hno b hbm)]
    exact ⟨rfl, rfl⟩
  · intro j hj hj' _ hi
    refine hbare j hj hj' ?_
    rintro rfl i rfl
    exact hi i (by simp)

-- A span without a place in a list gets the first place of one.
theorem push (h : Repr p ⟨l ++ (k, x) :: m, lists⟩) (hh : x.home p.minShift = none)
    (hs : Sentinel p.minShift s) :
    ∃ b, nextOf p.cells s = some b ∧ b ∈ s :: lists s ∧
      ∀ x' p', x'.len = x.len → x'.home p.minShift = some s → Kept k (k + x.len) p p' →
        x'.Records p' k →
        (∀ r, Off (k + 1) (x.len - 1) r →
          nextOf p'.cells r =
            Function.update (Function.update (nextOf p.cells) (.page k) (some b)) s
              (some (.page k)) r ∧
          (r ≠ s → prevOf p'.cells r =
            Function.update (Function.update (prevOf p.cells) (.page k) (some s)) b
              (some (.page k)) r)) →
        (∀ j, k < j → j < k + x.len → Bare p'.cells j) →
        Repr p' ⟨l ++ (k, x') :: m, Function.update lists s (.page k :: lists s)⟩ := by
  have ⟨h₁, hpos, h₂⟩ := h.tiles_split
  have hx : (k, x) ∈ l ++ (k, x) :: m := by simp
  have hk (s' : Ref) : .page k ∉ lists s' := h.not_mem_of_home hx hh
  have hks : .page k ∉ s :: lists s := by
    rintro (_ | ⟨_, hc⟩)
    · exact hs
    · exact hk s hc
  have ⟨b, hb, hbm, hring⟩ := (h.lists s hs).push hks
  refine ⟨b, hb, hbm, fun x' p' hl hh' hp hr hn hbare => ?_⟩
  have hoff (s' : Ref) (hs' : Sentinel p.minShift s') (r : Ref) (hr : r ∈ s' :: lists s') :
      r ≠ .page k ∧ Off (k + 1) (x.len - 1) r := by
    have hne : r ≠ .page k := by
      rintro rfl
      rcases List.mem_cons.mp hr with rfl | hr
      · exact hs'
      · exact hk s' hr
    exact ⟨hne, fun j h₁ h₂ => h.off_of_mem hx hs' hr hne j (by omega) (by omega)⟩
  have hv := h
  rw [← List.singleton_append, ← List.append_assoc] at h ⊢
  refine h.reshape h₁ (by simp [hpos]) h₂ (by simp [hl, hpos]) hp (by simpa using hr) ?_ ?_ ?_ ?_
  · intro s' hs'
    by_cases he : s' = s
    case pos =>
      subst he
      rw [Function.update_self]
      have ho : ∀ r ∈ s' :: .page k :: lists s', Off (k + 1) (x.len - 1) r := by
        intro r hr
        simp only [List.mem_cons] at hr
        rcases hr with rfl | rfl | hr
        · exact (hoff _ hs' _ List.mem_cons_self).right
        · exact off_of_not_mem (by omega)
        · exact (hoff _ hs' _ (List.mem_cons_of_mem _ hr)).right
      have hns : ∀ r ∈ .page k :: lists s', r ≠ s' := by
        rintro r hr rfl
        exact (List.nodup_cons.mp hring.nodup).left hr
      exact hring.frame (fun r hr => (hn r (ho r hr)).left)
        fun r hr => (hn r (ho r (List.mem_cons_of_mem _ hr))).right (hns r hr)
    case neg =>
      rw [Function.update_of_ne he]
      have hno (r : Ref) (hr : r ∈ s' :: lists s') : r ∉ s :: lists s :=
        hv.not_mem_of_ne hs' hs he hr
      have ho (r : Ref) (hr : r ∈ s' :: lists s') := hn r (hoff s' hs' r hr).right
      have hns : ∀ r ∈ s' :: lists s', r ≠ s :=
        fun r hr hc => hno r hr (hc ▸ List.mem_cons_self)
      refine (hv.lists s' hs').frame (fun r hr => ?_) fun r hr => ?_
      · rw [(ho r hr).left, Function.update_of_ne, Function.update_of_ne (hoff s' hs' r hr).left]
        exact fun hc => hno r hr (hc ▸ List.mem_cons_self)
      · have hr := List.mem_cons_of_mem s' hr
        rw [(ho r hr).right (hns r hr), Function.update_of_ne,
          Function.update_of_ne (hoff s' hs' r hr).left]
        exact fun hc => hno r hr (hc ▸ hbm)
  · intro s' r
    simp only [List.mem_singleton, forall_eq, exists_eq_left]
    rw [hh']
    have hr : r ∈ lists s' → r ≠ .page k := fun hr hc => hk s' (hc ▸ hr)
    by_cases he : s' = s
    case pos =>
      subst he
      rw [Function.update_self, List.mem_cons]
      tauto
    case neg =>
      rw [Function.update_of_ne he]
      have : some s ≠ some s' := by simpa [eq_comm] using he
      tauto
  · intro j hj hnl
    have ho := hn (.page j) (off_of_not_mem (by omega))
    have hjk : Ref.page j ≠ .page k := by
      simp only [ne_eq, Ref.page.injEq]
      omega
    have hjs : ∀ r ∈ s :: lists s, Ref.page j ≠ r := by
      rintro r hr rfl
      rcases List.mem_cons.mp hr with rfl | hr
      · exact hs
      · exact hnl s hr
    have hs := hjs s List.mem_cons_self
    rw [ho.left, ho.right hs, Function.update_of_ne hs, Function.update_of_ne hjk,
      Function.update_of_ne (hjs b hbm), Function.update_of_ne hjk]
    exact ⟨rfl, rfl⟩
  · intro j hj hj' hnl _
    by_cases he : j = k
    case pos => exact absurd (by simp [he]) (hnl s)
    case neg => exact hbare j (by omega) hj'

-- Free pages grow by those behind them.
theorem merge (h : Repr p ⟨l ++ (j, .free i) :: (k, .loose n) :: m, lists⟩)
    (hp : Kept j (k + n) p p') (hr : (Span.free (i + n)).Records p' j)
    (hn : nextOf p'.cells = Function.update (nextOf p.cells) (.page k) none)
    (hv : prevOf p'.cells = Function.update (prevOf p.cells) (.page k) none) :
    Repr p' ⟨l ++ (j, .free (i + n)) :: m, lists⟩ := by
  obtain ⟨h₁, hpos, rfl, hpos', h₂⟩ := h.tiles_split
  simp only [Span.len] at hpos hpos' h₁ h₂ hp hr hn hv h ⊢
  have hx : (j + i, .loose n) ∈ l ++ (j, .free i) :: (j + i, .loose n) :: m := by simp
  have hk (s : Ref) : .page (j + i) ∉ lists s := h.not_mem_of_home hx (by rfl)
  have hj : (j, .free i) ∈ l ++ (j, .free i) :: (j + i, .loose n) :: m := by simp
  have hne (r : Ref) (s : Ref) (hs : Sentinel p.minShift s) (hr : r ∈ s :: lists s) :
      r ≠ .page (j + i) := by
    rintro rfl
    rcases List.mem_cons.mp hr with rfl | hr
    · exact hs
    · exact hk s hr
  have hb := h
  rw [show l ++ (j, .free i) :: (j + i, .loose n) :: m =
    l ++ [(j, .free i), (j + i, .loose n)] ++ m by simp] at h
  rw [show l ++ (j, .free (i + n)) :: m = l ++ [(j, .free (i + n))] ++ m by simp]
  refine h.reshape h₁ (show Tiles Span.len j _ (j + i + n) by simp [hpos, hpos', Span.len]) h₂ ?_ hp
    (by simpa using hr) ?_ ?_ ?_ ?_
  · simp only [Tiles.cons_iff, Tiles.nil_iff, Span.len, true_and]
    omega
  · intro s hs
    rw [hn, hv]
    refine (hb.lists s hs).frame (fun r hr => Function.update_of_ne (hne r s hs hr) ..)
      fun r hr => Function.update_of_ne (hne r s hs (List.mem_cons_of_mem _ hr)) ..
  · intro s r
    have hjm (hr : r ∈ lists s) : r = .page j → s = .free := by
      rintro rfl
      exact hb.list_unique hr (hb.mem_of_home hj rfl)
    have hkm (hr : r ∈ lists s) : r ≠ .page (j + i) := by
      rintro rfl
      exact hk s hr
    have hjf : .page j ∈ lists .free := hb.mem_of_home hj rfl
    simp only [List.mem_cons, List.not_mem_nil, or_false, forall_eq_or_imp, forall_eq,
      exists_eq_left, Span.home_free, Option.some.injEq]
    constructor
    · intro hr
      by_cases he : r = .page j
      · exact .inr ⟨he, (hjm hr he).symm⟩
      · exact .inl ⟨hr, he, hkm hr⟩
    · rintro (⟨hr, -⟩ | ⟨rfl, rfl⟩)
      · exact hr
      · exact hjf
  · intro k hk _
    have : Ref.page k ≠ .page (j + i) := by
      simp only [ne_eq, Ref.page.injEq]
      omega
    rw [hn, hv, Function.update_of_ne this, Function.update_of_ne this]
    exact ⟨rfl, rfl⟩
  · intro k hk hk' hs _
    rw [hn, hv]
    by_cases he : k = j + i
    case pos => simp [he]
    case neg =>
      rw [Function.update_of_ne (by simpa using he), Function.update_of_ne (by simpa using he)]
      by_cases hlt : k < j + i
      case neg => exact (hb.interior hx (by omega) (by simp only [Span.len]; omega)).right
      case pos =>
        by_cases hkj : k = j
        · exact absurd (hkj ▸ hb.mem_of_home hj rfl) (hs .free)
        · exact (hb.interior hj (by omega) (by simp only [Span.len]; omega)).right

-- Free pages are used from their start, and what is left takes their place.
theorem split (h : Repr p ⟨l ++ (k, .free i) :: m, lists⟩) (hn : n < i) (hpos : 0 < n) :
    ∃ a b, prevOf p.cells (.page k) = some a ∧ nextOf p.cells (.page k) = some b ∧
      a ∈ .free :: (lists .free).erase (.page k) ∧ b ∈ .free :: (lists .free).erase (.page k) ∧
      ∀ x' p', x'.len = n → x'.home p.minShift = none → (∀ i, x' ≠ .loose i) →
        Kept k (k + i) p p' → x'.Records p' k → (Span.free (i - n)).Records p' (k + n) →
        (∀ r, Off k n r →
          nextOf p'.cells r = Function.update (Function.update (nextOf p.cells) (.page (k + n))
            (some b)) a (some (.page (k + n))) r ∧
          prevOf p'.cells r = Function.update (Function.update (prevOf p.cells) (.page (k + n))
            (some a)) b (some (.page (k + n))) r) →
        (∀ j, k ≤ j → j < k + n → Bare p'.cells j) →
        Repr p' ⟨l ++ (k, x') :: (k + n, .free (i - n)) :: m,
          Function.update lists .free ((lists .free).replace (.page k) (.page (k + n)))⟩ := by
  have ⟨h₁, hi, h₂⟩ := h.tiles_split
  have hx : (k, .free i) ∈ l ++ (k, .free i) :: m := by simp
  have hk : .page k ∈ lists .free := h.mem_of_home hx rfl
  have hf : Ring.Linked (nextOf p.cells) (prevOf p.cells) .free (lists .free) :=
    h.lists .free trivial
  have hd := hf.nodup
  have hin := h.interior hx (j := k + n) (by omega) (by simp only [Span.len]; omega)
  have hkn : .page (k + n) ∉ .free :: lists .free := by simpa using hin.left .free
  have ⟨a, b, ha, hb, ham, hbm, hring⟩ := hf.replace hk hkn
  refine ⟨a, b, ha, hb, ham, hbm, fun x' p' hl hh' hx' hp hr hr' hlinks hbare => ?_⟩
  have hsub := List.cons_subset_cons .free
    (List.erase_subset (a := Ref.page k) (l := lists .free))
  -- The page that is new in the list and those of all lists but for the one that leaves
  have hoff (s : Ref) (hs : Sentinel p.minShift s) (r : Ref) (hr : r ∈ s :: lists s)
      (hne : r ≠ .page k) : Off k n r :=
    fun j h₁ h₂ => h.off_of_mem hx hs hr hne j h₁ (by simp only [Span.len]; omega)
  have hmem (r : Ref) : r ∈ (lists .free).replace (.page k) (.page (k + n)) ↔
      (r ∈ lists .free ∧ r ≠ .page k) ∨ r = .page (k + n) := by
    obtain ⟨us, vs, he⟩ := List.append_of_mem hk
    rw [he] at hd ⊢
    rw [show (us ++ Ref.page k :: vs).replace (.page k) (.page (k + n)) =
      us ++ .page (k + n) :: vs by grind]
    grind
  have hv := h
  rw [← List.singleton_append, ← List.append_assoc] at h
  rw [show l ++ (k, x') :: (k + n, .free (i - n)) :: m =
    l ++ [(k, x'), (k + n, .free (i - n))] ++ m by simp]
  simp only [Span.len] at hi h₂
  refine h.reshape h₁ (show Tiles Span.len k _ (k + i) by simp [hi, Span.len]) h₂ ?_ hp
    (by simp [hr, hr']) ?_ ?_ ?_ ?_
  · simp only [Tiles.cons_iff, Tiles.nil_iff, hl, true_and]
    simp only [Span.len]
    omega
  · intro s hs
    by_cases he : s = .free
    case pos =>
      subst he
      rw [Function.update_self]
      have ho : ∀ r ∈ .free :: (lists .free).replace (.page k) (.page (k + n)), Off k n r := by
        intro r hr
        rcases List.mem_cons.mp hr with rfl | hr
        · exact hoff .free trivial _ List.mem_cons_self (by simp)
        · rcases (hmem r).mp hr with ⟨hr, hne⟩ | rfl
          · exact hoff .free trivial _ (List.mem_cons_of_mem _ hr) hne
          · exact off_of_not_mem (by omega)
      exact hring.frame (fun r hr => (hlinks r (ho r hr)).left)
        fun r hr => (hlinks r (ho r (List.mem_cons_of_mem _ hr))).right
    case neg =>
      rw [Function.update_of_ne he]
      have hno (r : Ref) (hr : r ∈ s :: lists s) : r ∉ .free :: lists .free :=
        hv.not_mem_of_ne hs trivial he hr
      have hkn (r : Ref) (hr : r ∈ s :: lists s) : r ≠ .page (k + n) := by
        rintro rfl
        rcases List.mem_cons.mp hr with rfl | hr
        · exact hs
        · exact hin.left s hr
      have ho (r : Ref) (hr : r ∈ s :: lists s) := hlinks r (hoff s hs r hr
        fun hc => hno r hr (List.mem_cons_of_mem _ (hc ▸ hk)))
      refine (hv.lists s hs).frame (fun r hr => ?_) fun r hr => ?_
      · rw [(ho r hr).left, Function.update_of_ne, Function.update_of_ne (hkn r hr)]
        exact fun hc => hno r hr (hc ▸ hsub ham)
      · have hr := List.mem_cons_of_mem s hr
        rw [(ho r hr).right, Function.update_of_ne, Function.update_of_ne (hkn r hr)]
        exact fun hc => hno r hr (hc ▸ hsub hbm)
  · intro s r
    simp only [forall_eq, List.mem_cons, List.not_mem_nil, or_false, exists_eq_or_imp,
      exists_eq_left, hh', reduceCtorEq, and_false, false_or, Span.home_free, Option.some.injEq]
    by_cases he : s = .free
    case pos =>
      subst he
      rw [Function.update_self, hmem]
      simp
    case neg =>
      rw [Function.update_of_ne he]
      have : .free ≠ s := fun hc => he hc.symm
      simp only [this, and_false, or_false, iff_self_and]
      rintro hr rfl
      exact he (hv.list_unique hr hk)
  · intro j hj hnl
    have hno : ∀ r ∈ .free :: (lists .free).erase (.page k), Ref.page j ≠ r := by
      rintro r hr rfl
      exact hnl .free (by simpa using hsub hr)
    have hjn : Ref.page j ≠ .page (k + n) := by
      simp only [ne_eq, Ref.page.injEq]
      omega
    have ho := hlinks (.page j) (off_of_not_mem (by omega))
    rw [ho.left, ho.right, Function.update_of_ne (hno a ham), Function.update_of_ne (hno b hbm),
      Function.update_of_ne hjn, Function.update_of_ne hjn]
    exact ⟨rfl, rfl⟩
  · intro j hj hj' hnl _
    by_cases hlt : j < k + n
    case pos => exact hbare j hj hlt
    case neg =>
      have hjn : Ref.page j ≠ .page (k + n) := by
        intro hc
        refine hnl .free ?_
        rw [Function.update_self, hmem]
        exact .inr hc
      have hin := hv.interior hx (j := j) (by omega) hj'
      have hno : ∀ r ∈ .free :: (lists .free).erase (.page k), Ref.page j ≠ r := by
        rintro r hr rfl
        exact hin.left .free (by simpa using hsub hr)
      have ho := hlinks (.page j) (off_of_not_mem (by omega))
      rw [ho.left, ho.right, Function.update_of_ne (hno a ham),
        Function.update_of_ne (hno b hbm), Function.update_of_ne hjn, Function.update_of_ne hjn]
      exact hin.right

end Slab.Repr
