import Mathlib.Data.List.DropRight
import Aiotc.Json.Parse

-- What is printed is read back.

open Reader

namespace JsonText

variable {D : Type} [Double D] {item : Item D} {child : List (Item D)}
  {members : List (CStr × Item D)} {fmt : Bool} {depth n : ℕ} {ts : List CStr}
  {xs : List (CStr × CStr)} {t w s value rest : CStr} {c : Char}

-- What may be skipped
def Blank (w : CStr) : Prop :=
  ∀ c ∈ w, c.toNat ≤ 32

theorem skip_append (hw : Blank w) : skip (w ++ s) = skip s :=
  List.dropWhile_append_of_pos (by simpa [Blank] using hw)

theorem skip_cons (hc : 32 < c.toNat) : skip (c :: s) = c :: s :=
  List.dropWhile_cons_of_neg (by simpa using hc)

theorem not_prefix {d : Char} (hc : d ≠ c) : ¬d :: w <+: c :: value := by
  rintro ⟨s, hs⟩
  exact hc (List.cons.inj hs).left

-- The first character tells how a value is read.
theorem parseValue_cons (h₁ : 'n' ≠ c) (h₂ : 'f' ≠ c) (h₃ : 't' ≠ c) :
    (parseValue (n + 1) (c :: value) : Parsed (Item D)) =
      if c = '"' then
        (parseString (c :: value)).bind fun s rest => .ok (.string s) rest
      else if startsNumber c then
        let ((i, d), rest) := parseNumber (c :: value)
        .ok (.number i d) rest
      else if c = '[' then
        if (skip value).head? = some ']' then
          .ok (.array []) (skip value).tail
        else
          (sepBy (fun value => (parseValue n (skip value)).bind fun item value =>
            .ok item (skip value)) ',' ']' id n (skip value)).bind fun child rest =>
              .ok (.array child) rest
      else if c = '{' then
        if (skip value).head? = some '}' then
          .ok (.object []) (skip value).tail
        else
          (sepBy (parseMember (parseValue n)) ',' '}' id n (skip value)).bind fun child rest =>
            .ok (.object child) rest
      else
        .error (c :: value) := by
  have h₁ : ¬"null".toList <+: c :: value := not_prefix h₁
  have h₂ : ¬"false".toList <+: c :: value := not_prefix h₂
  have h₃ : ¬"true".toList <+: c :: value := not_prefix h₃
  rw [parseValue, if_neg h₁, if_neg h₂, if_neg h₃]
  simp only [List.head?_cons, Option.some.injEq, Option.any_some, List.tail_cons]
  rfl

-- `t` is read as `item`, and is neither skipped nor the end of an array or an object.
structure Reads (t : CStr) (item : Item D) : Prop where
  head  : ∃ c t', t = c :: t' ∧ 32 < c.toNat ∧ c ≠ ']' ∧ c ≠ '}'
  parse : ∀ n rest, t.length ≤ n → Follows rest → parseValue n (t ++ rest) = .ok item rest

theorem Reads.ne_nil (h : Reads t item) : t ≠ [] := by
  obtain ⟨c, t', rfl, -⟩ := h.head
  exact List.cons_ne_nil c t'

theorem follows_nil : Follows [] :=
  fun _ h => absurd h (by simp)

theorem follows_cons (hc : c.isDigit = false ∧ c ≠ '.' ∧ c ≠ 'e' ∧ c ≠ 'E') :
    Follows (c :: s) := by
  intro d hd
  rwa [← Option.some.inj hd]

theorem follows_append (hw : Blank w) (hs : Follows s) : Follows (w ++ s) := by
  cases w
  case nil => exact hs
  case cons c w =>
    have hc := hw c List.mem_cons_self
    refine follows_cons ⟨?_, ?_, ?_, ?_⟩
    · refine Bool.eq_false_iff.mpr fun hd => ?_
      have : 48 ≤ c.toNat := le_toNat_of_isDigit hd
      omega
    all_goals
      rintro rfl
      exact absurd hc (by decide)

-- No value is empty.
theorem Reads.of_succ (hc : ∃ c t', t = c :: t' ∧ 32 < c.toNat ∧ c ≠ ']' ∧ c ≠ '}')
    (h : ∀ n rest, t.length ≤ n + 1 → Follows rest →
      parseValue (n + 1) (t ++ rest) = .ok item rest) : Reads t item := by
  refine ⟨hc, fun n rest hn hf => ?_⟩
  cases n
  case succ n => exact h n rest hn hf
  case zero   =>
    obtain ⟨c, t', rfl, -⟩ := hc
    exact absurd hn (Nat.not_succ_le_zero _)

theorem Reads.null : Reads "null" (.null : Item D) := by
  refine .of_succ ⟨'n', _, rfl, by decide, by decide, by decide⟩ fun n rest _ _ => ?_
  have h : "null".toList <+: CStr.ofString "null" ++ rest := List.prefix_append ..
  rw [parseValue, if_pos h]
  rfl

theorem Reads.false : Reads "false" (.false : Item D) := by
  refine .of_succ ⟨'f', _, rfl, by decide, by decide, by decide⟩ fun n rest _ _ => ?_
  have h₁ : ¬"null".toList <+: CStr.ofString "false" ++ rest := not_prefix (by decide)
  have h₂ : "false".toList <+: CStr.ofString "false" ++ rest := List.prefix_append ..
  rw [parseValue, if_neg h₁, if_pos h₂]
  rfl

theorem Reads.true : Reads "true" (.true : Item D) := by
  refine .of_succ ⟨'t', _, rfl, by decide, by decide, by decide⟩ fun n rest _ _ => ?_
  have h₁ : ¬"null".toList <+: CStr.ofString "true" ++ rest := not_prefix (by decide)
  have h₂ : ¬"false".toList <+: CStr.ofString "true" ++ rest := not_prefix (by decide)
  have h₃ : "true".toList <+: CStr.ofString "true" ++ rest := List.prefix_append ..
  rw [parseValue, if_neg h₁, if_neg h₂, if_pos h₃]
  rfl

theorem Reads.string (h : Printable s) : Reads (quote s) (.string s : Item D) := by
  refine .of_succ ⟨'"', _, rfl, by decide, by decide, by decide⟩ fun n rest _ _ => ?_
  have hp := parseString_quote (s := rest) h
  rw [quote, List.cons_append] at hp ⊢
  rw [parseValue_cons (by decide) (by decide) (by decide), if_pos rfl, hp]
  rfl

theorem exists_decimal (v : Int) : ∃ c t, CStr.decimal v = c :: t ∧ startsNumber c := by
  by_cases hv : v < 0
  case pos => exact ⟨'-', Nat.toDigits 10 v.natAbs, by simp [CStr.decimal, hv], rfl⟩
  case neg =>
    cases ht : Nat.toDigits 10 v.natAbs
    case nil => exact absurd ht Nat.toDigits_ne_nil
    case cons c t =>
      have hd : c.isDigit := Nat.isDigit_of_mem_toDigits (b := 10) (n := v.natAbs) (by decide)
        (by decide) (by simp [ht])
      exact ⟨c, t, by simp [CStr.decimal, hv, ht], by simp [startsNumber, hd]⟩

theorem Reads.number [Exact D] {v : Int} (h₁ : INT_MIN ≤ v) (h₂ : v ≤ INT_MAX) :
    Reads (CStr.decimal v) (.number v (ofInt v) : Item D) := by
  have ⟨c, t, ht, hc⟩ := exists_decimal v
  have hne (d : Char) (hd : startsNumber d = Bool.false) : d ≠ c := by
    rintro rfl
    exact absurd hc (by simp [hd])
  refine .of_succ ⟨c, t, ht, ?_, (hne ']' rfl).symm, (hne '}' rfl).symm⟩ fun n rest _ hf => ?_
  · simp only [startsNumber, Bool.or_eq_true, decide_eq_true_eq] at hc
    rcases hc with rfl | hc
    · decide
    · exact Nat.lt_of_lt_of_le (by decide) (le_toNat_of_isDigit hc)
  · have hp := parseNumber_decimal (D := D) h₁ h₂ hf
    rw [ht, List.cons_append] at hp ⊢
    rw [parseValue_cons (hne _ rfl) (hne _ rfl) (hne _ rfl), if_neg (hne '"' rfl).symm, if_pos hc,
      hp]

theorem skip_blank (hw : Blank w) (hc : 32 < c.toNat) : skip (w ++ c :: s) = c :: s := by
  rw [skip_append hw, skip_cons hc]

-- Blanks in front of a value are skipped.
theorem Reads.between (h : Reads t item) (hw : Blank w) (hn : t.length ≤ n) (hs : Blank s)
    (hf : Follows (c :: rest)) :
    parseValue n (skip (w ++ (t ++ (s ++ c :: rest)))) = .ok item (s ++ c :: rest) := by
  obtain ⟨d, t', rfl, hd, -⟩ := h.head
  rw [List.cons_append, skip_blank hw hd, ← List.cons_append,
    h.parse n _ hn (follows_append hs hf)]

-- What is written between two children, and behind the last one

theorem blank_nil : Blank [] :=
  fun _ h => absurd h List.not_mem_nil

theorem Blank.append (hw : Blank w) (hs : Blank s) : Blank (w ++ s) := by
  intro c hc
  rcases List.mem_append.mp hc with hc | hc
  · exact hw c hc
  · exact hs c hc

theorem blank_if (fmt : Bool) (hw : Blank w) : Blank (if fmt then w else []) := by
  cases fmt
  case false => exact blank_nil
  case true  => exact hw

theorem blank_tabs (n : ℕ) : Blank (tabs n) := by
  intro c hc
  rw [tabs, List.mem_replicate] at hc
  rw [hc.right]
  decide

theorem blank_space : Blank [' '] := by
  simp [Blank]

theorem blank_tab : Blank ['\t'] := by
  simp [Blank]

theorem blank_newline : Blank ['\n'] := by
  simp [Blank]

theorem sepBy_array {k : ℕ} (fmt : Bool) (rest : CStr)
    (h : List.Forall₂ Reads ts child) (hne : ts ≠ []) (hw : Blank w)
    (hn : ts.length ≤ n) (hk : ∀ t ∈ ts, t.length ≤ k) :
    sepBy (fun value => (parseValue k (skip value)).bind fun item value =>
      .ok item (skip value)) ',' ']' id n (w ++ (composeArray fmt ts ++ ']' :: rest)) =
        .ok child rest := by
  -- One child with what is in front of it and behind it
  have hone {t : CStr} {x : Item D} {w : CStr} {c : Char} {s : CStr} (hx : Reads t x)
      (hw : Blank w) (hk : t.length ≤ k) (hc : 32 < c.toNat) (hf : Follows (c :: s)) :
      ((parseValue k (skip (w ++ (t ++ c :: s)))).bind fun item value =>
        .ok item (skip value)) = (.ok x (c :: s) : Parsed (Item D)) := by
    have hb := hx.between hw hk blank_nil hf
    rw [List.nil_append] at hb
    rw [hb, Result.ok_bind, skip_cons hc]
  induction h generalizing n w
  case nil => exact absurd rfl hne
  case cons t x ts child hr hs hi =>
    cases n
    case zero => exact absurd hn (Nat.not_succ_le_zero _)
    case succ n =>
      have ht := hk t List.mem_cons_self
      cases hs
      case nil =>
        refine sepBy_last (by decide) ?_
        exact hone hr hw ht (by decide) (follows_cons (by decide))
      case cons t' x' ts child hr' hs =>
        have hi := hi (by simp) (blank_if fmt blank_space) (Nat.le_of_succ_le_succ hn)
          fun t ht => hk t (List.mem_cons_of_mem _ ht)
        refine sepBy_cons ?_ hi
        rw [composeArray_cons_cons, List.append_assoc, List.cons_append, List.append_assoc]
        exact hone hr hw ht (by decide) (follows_cons (by decide))

-- One child of an object with what is in front of it and behind it
theorem parseMember_quote {str : CStr} (hstr : Printable str) (h : Reads t item) (hw : Blank w)
    (hv : Blank value) (hs : Blank s) (hn : t.length ≤ n) (hc : 32 < c.toNat)
    (hf : Follows (c :: rest)) :
    parseMember (parseValue n) (w ++ (quote str ++ ':' :: (value ++ (t ++ (s ++ c :: rest))))) =
      .ok (str, item) (c :: rest) := by
  have hq : skip (w ++ (quote str ++ ':' :: (value ++ (t ++ (s ++ c :: rest))))) =
      quote str ++ ':' :: (value ++ (t ++ (s ++ c :: rest))) :=
    skip_blank hw (by decide)
  rw [parseMember, hq, parseString_quote hstr, Result.ok_bind, skip_cons (by decide)]
  simp only [List.head?_cons, List.tail_cons, if_true]
  rw [h.between hv hn hs hf, Result.ok_bind, skip_blank hs hc]

theorem sepBy_object {k : ℕ} (fmt : Bool) (depth : ℕ) (rest : CStr)
    (h : List.Forall₂ (fun e x => Printable x.1 ∧ e.1 = quote x.1 ∧ Reads e.2 x.2) xs members)
    (hne : xs ≠ []) (hw : Blank w) (hs : Blank s) (hn : xs.length ≤ n)
    (hk : ∀ e ∈ xs, e.2.length ≤ k) :
    sepBy (parseMember (parseValue k)) ',' '}' id n
      (w ++ (composeObject fmt depth xs ++ (s ++ '}' :: rest))) = .ok members rest := by
  induction h generalizing n w
  case nil => exact absurd rfl hne
  case cons e x xs members hx hxs hi =>
    obtain ⟨str, item⟩ := x
    obtain ⟨e, t⟩ := e
    obtain ⟨hstr, rfl, hr⟩ := hx
    cases n
    case zero => exact absurd hn (Nat.not_succ_le_zero _)
    case succ n =>
      have ht := hk _ List.mem_cons_self
      have hw₁ : Blank (w ++ if fmt then tabs depth else []) :=
        hw.append (blank_if fmt (blank_tabs _))
      cases hxs
      case nil =>
        refine sepBy_last (by decide) ?_
        have := parseMember_quote hstr hr hw₁ (blank_if fmt blank_tab)
          ((blank_if fmt blank_newline).append hs) ht (by decide)
          (follows_cons (c := '}') (s := rest) (by decide))
        simpa [composeObject] using this
      case cons e' x' xs members hx' hxs =>
        have hi := hi (by simp) (blank_if fmt blank_newline)
          (Nat.le_of_succ_le_succ hn) fun t ht => hk t (List.mem_cons_of_mem _ ht)
        refine sepBy_cons ?_ hi
        have := parseMember_quote hstr hr hw₁ (blank_if fmt blank_tab) blank_nil ht
          (by decide) (follows_cons (c := ',') (s := (if fmt then ['\n'] else []) ++
            (composeObject fmt depth (e' :: xs) ++ (s ++ '}' :: rest))) (by decide))
        simpa [composeObject] using this

-- There is enough text for the children, and for each of them.

theorem length_le_composeArray (fmt : Bool) (h : ∀ t ∈ ts, t ≠ []) :
    ts.length ≤ (composeArray fmt ts).length ∧
      ∀ t ∈ ts, t.length ≤ (composeArray fmt ts).length := by
  induction ts
  case nil => simp
  case cons t ts hi =>
    have ht := List.length_pos_of_ne_nil (h t List.mem_cons_self)
    obtain ⟨h₁, h₂⟩ := hi fun t ht => h t (List.mem_cons_of_mem _ ht)
    cases ts
    case nil =>
      simp only [composeArray, List.length_cons, List.length_nil, List.mem_singleton]
      exact ⟨by omega, fun _ hm => by rw [hm]⟩
    case cons t' ts =>
      rw [composeArray_cons_cons]
      simp only [List.length_append, List.length_cons] at h₁ ⊢
      refine ⟨by omega, ?_⟩
      rintro u (_ | ⟨_, hu⟩)
      · omega
      · have := h₂ u hu
        omega

theorem length_le_composeObject (fmt : Bool) (depth : ℕ) (xs : List (CStr × CStr)) :
    xs.length ≤ (composeObject fmt depth xs).length ∧
      ∀ e ∈ xs, e.2.length ≤ (composeObject fmt depth xs).length := by
  induction xs
  case nil => simp
  case cons e xs hi =>
    obtain ⟨h₁, h₂⟩ := hi
    simp only [composeObject, List.length_append, List.length_cons]
    refine ⟨by omega, ?_⟩
    rintro e' (_ | ⟨_, he⟩)
    · omega
    · have := h₂ e' he
      omega

theorem skip_skip : skip (skip s) = skip s :=
  List.dropWhile_idempotent _ s

-- The children are read from behind the blanks.
theorem sepBy_skip {α : Type} {f : CStr → Parsed α} {g : CStr → CStr} {p q : Char}
    (h : ∀ s, f (skip s) = f s) : sepBy f p q g n (skip s) = sepBy f p q g n s :=
  sepBy_congr (h s)

theorem Reads.array (h : List.Forall₂ Reads ts child) (hne : ts ≠ []) :
    Reads ('[' :: composeArray fmt ts ++ [']']) (.array child) := by
  refine .of_succ ⟨'[', _, rfl, by decide, by decide, by decide⟩ fun n rest hn _ => ?_
  have ht : ∀ t ∈ ts, t ≠ [] := by
    have := h.imp fun t x hx => And.intro hx.ne_nil hx
    exact ((List.forall₂_and_left _ _).mp this).left
  obtain ⟨h₁, h₂⟩ := length_le_composeArray fmt ht
  simp only [List.cons_append, List.length_cons, List.length_append] at hn
  have hs := sepBy_array (n := n) (k := n) fmt rest h hne blank_nil
    (by omega) fun t ht => Nat.le_trans (h₂ t ht) (by omega)
  rw [List.nil_append] at hs
  -- The first child does not look like the end of the array.
  have hf : (skip (composeArray fmt ts ++ ']' :: rest)).head? ≠ some ']' := by
    cases h
    case nil => exact absurd rfl hne
    case cons t x ts child hr _ =>
      obtain ⟨c, t', rfl, hc, hb, -⟩ := hr.head
      cases ts
      case nil          => simpa [composeArray, skip_cons hc] using hb
      case cons t'' ts' => simpa [composeArray, skip_cons hc] using hb
  rw [List.cons_append, List.cons_append,
    parseValue_cons (by decide) (by decide) (by decide), if_neg (by decide),
    if_neg (by decide), if_pos rfl, List.append_assoc, List.cons_append, List.nil_append,
    if_neg hf, sepBy_skip fun s => by rw [skip_skip], hs]
  rfl

theorem Reads.object
    (h : List.Forall₂ (fun e x => Printable x.1 ∧ e.1 = quote x.1 ∧ Reads e.2 x.2) xs members)
    (hne : xs ≠ []) (hs : Blank s) :
    Reads ('{' :: (if fmt then ['\n'] else []) ++ composeObject fmt depth xs ++ s ++ ['}'])
      (.object members) := by
  refine .of_succ ⟨'{', _, rfl, by decide, by decide, by decide⟩ fun n rest hn _ => ?_
  obtain ⟨h₁, h₂⟩ := length_le_composeObject fmt depth xs
  simp only [List.cons_append, List.length_cons, List.length_append] at hn
  have hp := sepBy_object (n := n) (k := n) fmt depth rest h hne
    (blank_if fmt blank_newline) hs (by omega) fun t ht => Nat.le_trans (h₂ t ht) (by omega)
  -- Nor does the name of the first child look like the end of the object.
  have hf : (skip ((if fmt then ['\n'] else []) ++
      (composeObject fmt depth xs ++ (s ++ '}' :: rest)))).head? ≠ some '}' := by
    cases h
    case nil => exact absurd rfl hne
    case cons e x xs members hx _ =>
      obtain ⟨e, t⟩ := e
      obtain ⟨-, rfl, -⟩ := hx
      have hb := (blank_if fmt blank_newline).append (blank_if fmt (blank_tabs depth))
      rw [composeObject, quote]
      simp only [List.append_assoc, List.cons_append]
      rw [← List.append_assoc, skip_blank hb (by decide)]
      simp
  simp only [List.cons_append, List.append_assoc, List.nil_append]
  rw [parseValue_cons (by decide) (by decide) (by decide), if_neg (by decide),
    if_neg (by decide), if_neg (by decide), if_pos rfl, if_neg hf,
    sepBy_skip fun s => by rw [parseMember, parseMember, skip_skip], hp]
  rfl

theorem Reads.emptyArray : Reads "[]" (.array [] : Item D) := by
  refine .of_succ ⟨'[', _, rfl, by decide, by decide, by decide⟩ fun n rest _ _ => ?_
  have hv : CStr.ofString "[]" ++ rest = '[' :: ']' :: rest := rfl
  have hs : skip (']' :: rest) = ']' :: rest := skip_cons (by decide)
  rw [hv, parseValue_cons (by decide) (by decide) (by decide), if_neg (by decide),
    if_neg (by decide), if_pos rfl, hs]
  rfl

theorem Reads.emptyObject (hs : Blank s) : Reads ('{' :: s ++ ['}']) (.object [] : Item D) := by
  refine .of_succ ⟨'{', _, rfl, by decide, by decide, by decide⟩ fun n rest _ _ => ?_
  simp only [List.cons_append, List.append_assoc, List.nil_append]
  rw [parseValue_cons (by decide) (by decide) (by decide), if_neg (by decide),
    if_neg (by decide), if_neg (by decide), if_pos rfl, skip_blank hs (by decide)]
  rfl

-- The numbers that are printed as an int, and are the int
def Whole (i : Int) (d : D) : Prop :=
  INT_MIN ≤ i ∧ i ≤ INT_MAX ∧ d = ofInt i

theorem printValue_reads [Exact D] (h : Plain Whole item) (fmt : Bool) (depth : ℕ)
    (hr : item.room depth < 2 ^ 31) :
    ∃ t, printValue fmt depth item = some t ∧ t.length < item.room depth ∧ Reads t item := by
  induction h generalizing depth
  case null           => exact ⟨_, rfl, Nat.lt_succ_self _, .null⟩
  case false          => exact ⟨_, rfl, Nat.lt_succ_self _, .false⟩
  case true           => exact ⟨_, rfl, Nat.lt_succ_self _, .true⟩
  case string s h     =>
    exact ⟨_, printString_eq ⟨h, hr⟩, Nat.lt_of_succ_le (length_quote h).le, .string ⟨h, hr⟩⟩
  case number i d h   =>
    obtain ⟨h₁, h₂, rfl⟩ := h
    have ht := printNumber_ofInt (D := D) h₁ h₂
    exact ⟨_, ht, length_printNumber ht, .number h₁ h₂⟩
  case array child h hi =>
    cases child
    case nil            => exact ⟨_, rfl, length_emptyArray, .emptyArray⟩
    case cons x child =>
      rw [Item.room] at hr
      obtain ⟨ts, hts, hf⟩ := printEntries_some
        (R := fun t y => Reads t y ∧ t.length < y.room (depth + 1)) fun y hy => by
          have hle := Item.room_le_entriesRoom (depth + 1) hy
          obtain ⟨t, ht, hl, hc⟩ := hi y hy (depth + 1) (by omega)
          exact ⟨t, ht, hc, hl⟩
      obtain ⟨hp, hl⟩ := printValue_array (by simp) hts (hf.imp fun _ _ h => h.right) hr
      refine ⟨_, hp, hl, .array (hf.imp fun _ _ h => h.left) ?_⟩
      rintro rfl
      cases hf
  case object members hn h hi =>
    cases members
    case nil            =>
      obtain ⟨hp, hl⟩ := printValue_empty fmt hr
      exact ⟨_, hp, hl, .emptyObject (blank_if fmt (blank_newline.append (blank_tabs _)))⟩
    case cons x members =>
      have hle {y : CStr × Item D} (hy : y ∈ x :: members) :=
        Item.room_le_membersRoom (depth + 1) hy
      rw [Item.room] at hr
      obtain ⟨xs, hxs, hf⟩ := printMembers_some
        (R := fun t y => t.length < y.room (depth + 1) ∧ Reads t y)
        (fun y hy => ⟨hn y hy, by have := hle hy; omega⟩)
        fun y hy => hi y hy (depth + 1) (by have := hle hy; omega)
      obtain ⟨hp, hl⟩ := printValue_object (by simp) hxs
        (hf.imp fun _ _ h => ⟨h.left, h.right.left, h.right.right.left⟩) hr
      refine ⟨_, hp, hl, .object (hf.imp fun _ _ h => ⟨h.left, h.right.left, h.right.right.right⟩)
        ?_ (blank_if fmt (blank_tabs _))⟩
      rintro rfl
      cases hf

theorem Reads.cJSON_Parse (h : Reads t item) (hw : Blank w) (hf : Follows rest) :
    cJSON_Parse (w ++ (t ++ rest)) = .ok item rest := by
  obtain ⟨c, t', rfl, hc, -⟩ := h.head
  rw [JsonText.cJSON_Parse, List.cons_append, skip_blank hw hc, ← List.cons_append]
  refine h.parse _ rest ?_ hf
  simp only [List.length_append]
  omega

-- What is printed is a C string, and is read back. It does not matter how it is printed, or what
-- stands around it.
theorem printValue_cJSON_Parse [Exact D] (h : Plain Whole item) (fmt : Bool)
    (hr : item.room 0 < 2 ^ 31) : ∃ t, printValue fmt 0 item = some t ∧ Closed t ∧
      ∀ w rest, Blank w → Follows rest → cJSON_Parse (w ++ (t ++ rest)) = .ok item rest := by
  have hN (i : Int) (d : D) (hi : Whole i d) : ∃ t, printNumber i d = some t ∧ Bare t := by
    obtain ⟨h₁, h₂, rfl⟩ := hi
    exact ⟨_, printNumber_ofInt h₁ h₂, bare_decimal i⟩
  obtain ⟨t, ht, -, hread⟩ := printValue_reads h fmt 0 hr
  obtain ⟨t', ht', -, h₀⟩ := printValue_some h hN fmt 0 hr
  rw [ht', Option.some.injEq] at ht
  exact ⟨t, ht ▸ ht', ht ▸ h₀, fun w rest hw hf => hread.cJSON_Parse hw hf⟩

def answer : Item ℚ :=
  .object [("id", .number (-7) (ofInt (-7))), ("name", .string "a\n")]

theorem whole_answer : Plain Whole answer := by
  refine .object (by decide) ?_
  rintro x (_ | ⟨_, _ | ⟨_, hx⟩⟩)
  · exact .number ⟨by decide, by decide, rfl⟩
  · exact .string (by decide)
  · exact absurd hx List.not_mem_nil

theorem printValue_cJSON_Parse_answer : ∃ t, printValue true 0 answer = some t ∧ Closed t ∧
    ∀ w rest, Blank w → Follows rest → cJSON_Parse (w ++ (t ++ rest)) = .ok answer rest :=
  printValue_cJSON_Parse whole_answer true (by decide)

end JsonText
