import Mathlib.Data.List.Forall2
import Aiotc.Json.Escapes

-- cJSON.c: how trees are printed.

namespace JsonText

-- A cJSON, with what `child` points to. `D` is the type of doubles.
inductive Item (D : Type)
  | null
  | false
  | true
  | number (valueint : Int) (valuedouble : D)
  | string (valuestring : CStr)
  | array (child : List (Item D))
  | object (child : List (CStr × Item D))

variable {D : Type}

-- How the children of an item go into its text. The last one has no comma behind it.
def tabs (n : ℕ) : CStr :=
  List.replicate n '\t'

def composeArray (fmt : Bool) : List CStr → CStr
  | []                        => []
  | [entry]                   => entry
  | entry :: entries => entry ++ ',' :: ((if fmt then [' '] else []) ++ composeArray fmt entries)

def composeObject (fmt : Bool) (depth : ℕ) : List (CStr × CStr) → CStr
  | []                   => []
  | (name, entry) :: xs =>
    (if fmt then tabs depth else []) ++ name ++ ':' :: ((if fmt then ['\t'] else []) ++ entry ++
      (if xs = [] then [] else [',']) ++ (if fmt then ['\n'] else []) ++ composeObject fmt depth xs)

section

variable [Double D] (fmt : Bool)

mutual

-- The text and the members of an item. `none` where a block is too small for what is written to it,
-- or its size is no int.
def printValue (depth : ℕ) : Item D → Option CStr
  | .null         => some "null"
  | .false        => some "false"
  | .true         => some "true"
  | .number i d   => printNumber i d
  | .string s     => printString s
  | .array []     => block 3 "[]"
  | .array child => do
    let entries ← printEntries (depth + 1) child
    let len := 5 + (entries.map fun ret => ret.length + 2 + if fmt then 1 else 0).sum
    lenBlock len ('[' :: composeArray fmt entries ++ [']'])
  | .object []    =>
    block (if fmt then depth + 4 else 3)
      ('{' :: (if fmt then '\n' :: tabs (depth - 1) else []) ++ ['}'])
  | .object child => do
    let depth := depth + 1
    let entries ← printMembers depth child
    let len := 7 + (if fmt then depth else 0) + (entries.map fun (str, ret) =>
      ret.length + str.length + 2 + if fmt then 2 + depth else 0).sum
    lenBlock len ('{' :: (if fmt then ['\n'] else []) ++ composeObject fmt depth entries ++
      (if fmt then tabs (depth - 1) else []) ++ ['}'])

def printEntries (depth : ℕ) : List (Item D) → Option (List CStr)
  | []            => some []
  | item :: child => do
    let ret ← printValue depth item
    return ret :: (← printEntries depth child)

def printMembers (depth : ℕ) : List (CStr × Item D) → Option (List (CStr × CStr))
  | []                      => some []
  | (string, item) :: child => do
    let str ← printString string
    let ret ← printValue depth item
    return (str, ret) :: (← printMembers depth child)

end

-- `cJSON_Print`
def cJSON_Print (item : Item D) : Option CStr :=
  printValue true 0 item

def cJSON_PrintUnformatted (item : Item D) : Option CStr :=
  printValue false 0 item

end

-- The strings and names of an item are C strings, and its numbers have `N`.
inductive Plain (N : Int → D → Prop) : Item D → Prop
  | null                                                       : Plain N .null
  | false                                                      : Plain N .false
  | true                                                       : Plain N .true
  | number {i : Int} {d : D}           : N i d → Plain N (.number i d)
  | string {s : CStr}                  : '\x00' ∉ s → Plain N (.string s)
  | array {child : List (Item D)}      : (∀ x ∈ child, Plain N x) → Plain N (.array child)
  | object {child : List (CStr × Item D)} :
    (∀ x ∈ child, '\x00' ∉ x.1) → (∀ x ∈ child, Plain N x.2) → Plain N (.object child)

namespace Item

mutual

-- What the blocks for the text of an item take. None of them is larger.
def room (depth : ℕ) : Item D → ℕ
  | null         => 5
  | false        => 6
  | true         => 5
  | number _ _   => 64
  | string s     => stringRoom s
  | array child  => 5 + entriesRoom (depth + 1) child
  | object child => 8 + depth + membersRoom (depth + 1) child

def entriesRoom (depth : ℕ) : List (Item D) → ℕ
  | []            => 0
  | item :: child => item.room depth + 2 + entriesRoom depth child

def membersRoom (depth : ℕ) : List (CStr × Item D) → ℕ
  | []                    => 0
  | (name, item) :: child =>
    stringRoom name + item.room depth + 2 + depth + membersRoom depth child

end

variable {depth : ℕ} {child : List (Item D)} {members : List (CStr × Item D)}

theorem room_le_entriesRoom {x : Item D} (depth : ℕ) (hx : x ∈ child) :
    x.room depth ≤ entriesRoom depth child := by
  induction hx
  case head         => simp only [entriesRoom]; omega
  case tail hx hi => simp only [entriesRoom]; omega

theorem room_le_membersRoom {x : CStr × Item D} (depth : ℕ) (hx : x ∈ members) :
    stringRoom x.1 + x.2.room depth ≤ membersRoom depth members := by
  induction hx
  case head         => simp only [membersRoom]; omega
  case tail hx hi => simp only [membersRoom]; omega

end Item

section

variable {fmt : Bool} {depth : ℕ} {ts : List CStr} {xs : List (CStr × CStr)} {w s : CStr}
  {child : List (Item D)} {members : List (CStr × Item D)}

theorem composeArray_cons_cons (t t' : CStr) :
    composeArray fmt (t :: t' :: ts) =
      t ++ ',' :: ((if fmt then [' '] else []) ++ composeArray fmt (t' :: ts)) := rfl

theorem length_composeArray (fmt : Bool) (ts : List CStr) :
    (composeArray fmt ts).length ≤
      (ts.map fun ret => ret.length + 2 + if fmt then 1 else 0).sum := by
  induction ts
  case nil => exact Nat.le_refl _
  case cons t ts hi =>
    cases ts
    case nil => simp [composeArray]; omega
    case cons t' ts =>
      rw [List.map_cons, List.sum_cons]
      simp only [composeArray, List.length_append, List.length_cons]
      cases fmt <;> simp at hi ⊢ <;> omega

theorem length_composeObject (fmt : Bool) (depth : ℕ) (xs : List (CStr × CStr)) :
    (composeObject fmt depth xs).length ≤ (xs.map fun (str, ret) =>
      ret.length + str.length + 2 + if fmt then 2 + depth else 0).sum := by
  induction xs
  case nil => exact Nat.le_refl _
  case cons x xs hi =>
    cases xs
    case nil => cases fmt <;> simp [composeObject, tabs] <;> omega
    case cons x' xs =>
      rw [List.map_cons, List.sum_cons, composeObject]
      simp only [List.length_append, List.length_cons]
      cases fmt <;> simp [tabs] at hi ⊢ <;> omega

-- The children of an item fit in its block.

theorem entries_le (fmt : Bool)
    (h : List.Forall₂ (fun t x => t.length < Item.room depth x) ts child) :
    (ts.map fun ret => ret.length + 2 + if fmt then 1 else 0).sum ≤
      Item.entriesRoom depth child := by
  induction h
  case nil                 => exact Nat.le_refl _
  case cons t x ts child ht hs hi =>
    rw [List.map_cons, List.sum_cons, Item.entriesRoom]
    cases fmt <;> simp at hi ⊢ <;> omega

theorem members_le (fmt : Bool) (h : List.Forall₂ (fun e x => Printable x.1 ∧ e.1 = quote x.1 ∧
      e.2.length < Item.room depth x.2) xs members) :
    (xs.map fun (str, ret) => ret.length + str.length + 2 + if fmt then 2 + depth else 0).sum ≤
      Item.membersRoom depth members := by
  induction h
  case nil => exact Nat.le_refl _
  case cons e x xs members hx hs hi =>
    obtain ⟨str, ret⟩ := e
    obtain ⟨hp, rfl, hl⟩ := hx
    have hq := length_quote hp.noNul
    rw [List.map_cons, List.sum_cons, Item.membersRoom]
    simp only at hl
    cases fmt <;> simp at hi ⊢ <;> omega

theorem length_emptyArray : (CStr.ofString "[]").length < (Item.array [] : Item D).room depth := by
  rw [Item.room]
  exact Nat.lt_add_right _ (by decide)

end

-- A text that ends outside of a string, as it began
structure Closed (t : CStr) : Prop where
  noNul   : '\x00' ∉ t
  escapes : ∀ s, wholeEscapes false (t ++ s) = wholeEscapes false s

-- A text without a string that is cut off inside of an escape
structure Legible (s : CStr) : Prop where
  escapes : wholeEscapes false s
  noNul   : '\x00' ∉ s
  short   : s.length < 2 ^ 31

namespace Closed

variable {t s str : CStr} {c : Char} {ts : List CStr} {xs : List (CStr × CStr)}

theorem legible (h : Closed t) (hn : t.length < 2 ^ 31) : Legible t where
  escapes := by
    have := h.escapes []
    rwa [List.append_nil] at this
  noNul   := h.noNul
  short   := hn

theorem nil : Closed [] where
  noNul     := List.not_mem_nil
  escapes _ := rfl

theorem append (ht : Closed t) (hs : Closed s) : Closed (t ++ s) where
  noNul     := by simp [ht.noNul, hs.noNul]
  escapes u := by rw [List.append_assoc, ht.escapes, hs.escapes]

theorem cons (hc : c ≠ '\x00' ∧ c ≠ '"') (ht : Closed t) : Closed (c :: t) where
  noNul     := by simp [hc.left.symm, ht.noNul]
  escapes u := by
    rw [List.cons_append, wholeEscapes, decide_eq_false hc.right, ht.escapes]

theorem bare (h : Bare t) : Closed t := by
  induction t
  case nil         => exact nil
  case cons c t hi =>
    exact cons (h c List.mem_cons_self) (hi fun c hc => h c (List.mem_cons_of_mem _ hc))

theorem ite (fmt : Bool) (h : Closed t) : Closed (if fmt then t else []) := by
  cases fmt
  case false => exact nil
  case true  => exact h

theorem tabs (n : ℕ) : Closed (tabs n) := by
  refine bare fun c hc => ?_
  rw [(List.mem_replicate.mp hc).right]
  decide

-- In a string, a printed character leaves the text inside of it.
theorem escapes_printChar (hc : c ≠ '\x00') :
    wholeEscapes true (printChar c ++ s) = wholeEscapes true s := by
  rcases printChar_cases hc with ⟨_, h₁, h₂, _, hp⟩ | ⟨_, x, hp, he⟩ | ⟨_, hn, _, hp⟩
  · rw [hp]
    refine wholeEscapes_append fun d hd => ?_
    rw [List.mem_singleton.mp hd]
    exact ⟨h₁, h₂⟩
  · have hx : x ≠ 'u' := by
      rintro rfl
      have hu : escape 'u' [] = none := rfl
      exact absurd (hu.symm.trans (he [])) (by simp)
    rw [hp, List.cons_append, List.singleton_append, wholeEscapes]
    exact fun h => hx h
  · have hd (d : Char) (hd : d ∈ hex4 c.toNat) : (hexDigit d).isSome :=
      hexDigit_of_mem_hex4 (by omega) hd
    have hl : (hex4 c.toNat).length = 4 := length_hex4 (by omega)
    rw [hp, List.cons_append, List.cons_append, wholeEscapes, List.take_left' hl,
      wholeEscapes_append fun d hm => plain_of_hexDigit (hd d hm), List.length_append, hl,
      List.all_eq_true.mpr hd]
    simp

theorem quote (h : '\x00' ∉ str) : Closed (quote str) := by
  have hne : ∀ c ∈ str, c ≠ '\x00' := by
    rintro c hc rfl
    exact h hc
  constructor
  · have hc : ∀ c ∈ str, '\x00' ∉ printChar c := by
      intro c hc hm
      rcases printChar_cases (hne c hc) with ⟨_, _, _, _, hp⟩ | ⟨_, x, hp, he⟩ | ⟨_, hn, _, hp⟩
      · rw [hp, List.mem_singleton] at hm
        exact hne c hc hm.symm
      · simp only [hp, List.mem_cons, List.not_mem_nil, or_false, Char.reduceEq, false_or] at hm
        subst hm
        have he : some (['\x00'], []) = some ([c], []) := he []
        simp only [Option.some.injEq, Prod.mk.injEq, List.cons.injEq, and_true] at he
        exact hne c hc he.symm
      · simp only [hp, List.mem_cons, Char.reduceEq, false_or] at hm
        exact absurd (hexDigit_of_mem_hex4 (by omega) hm) (by decide)
    simpa [JsonText.quote] using hc
  · intro s
    rw [JsonText.quote, List.cons_append, wholeEscapes, decide_eq_true rfl, List.append_assoc]
    clear h
    induction str
    case nil          => rfl
    case cons c str hi =>
      rw [List.flatMap_cons, List.append_assoc, escapes_printChar (hne c List.mem_cons_self)]
      exact hi fun c hc => hne c (List.mem_cons_of_mem _ hc)

theorem composeArray (fmt : Bool) (h : ∀ t ∈ ts, Closed t) : Closed (composeArray fmt ts) := by
  induction ts
  case nil => exact nil
  case cons t ts hi =>
    have hi := hi fun t ht => h t (List.mem_cons_of_mem _ ht)
    have ht := h t List.mem_cons_self
    cases ts
    case nil          => exact ht
    case cons t' ts =>
      rw [composeArray_cons_cons]
      exact ht.append (cons (by decide) ((ite fmt (cons (by decide) nil)).append hi))

theorem composeObject (fmt : Bool) (depth : ℕ) (h : ∀ x ∈ xs, Closed x.1 ∧ Closed x.2) :
    Closed (composeObject fmt depth xs) := by
  induction xs
  case nil => exact nil
  case cons x xs hi =>
    have hi := hi fun x hx => h x (List.mem_cons_of_mem _ hx)
    obtain ⟨hn, ht⟩ := h x List.mem_cons_self
    have hc : Closed (if xs = [] then [] else [',']) := by
      split
      case isTrue  => exact nil
      case isFalse => exact cons (by decide) nil
    have htail := ((ite fmt (cons (by decide) nil : Closed ['\t'])).append ht).append hc
    exact ((ite fmt (tabs depth)).append hn).append (cons (by decide)
      ((htail.append (ite fmt (cons (by decide) nil))).append hi))

end Closed

section

variable [Double D] {N : Int → D → Prop} {item : Item D} {child : List (Item D)}
  {members : List (CStr × Item D)} {fmt : Bool} {depth n : ℕ} {ts : List CStr}
  {xs : List (CStr × CStr)} {t w s : CStr}

theorem printEntries_some {R : CStr → Item D → Prop}
    (h : ∀ x ∈ child, ∃ t, printValue fmt depth x = some t ∧ R t x) :
    ∃ ts, printEntries fmt depth child = some ts ∧ List.Forall₂ R ts child := by
  induction child
  case nil => exact ⟨[], rfl, .nil⟩
  case cons x child hi =>
    have ⟨t, ht, hr⟩ := h x List.mem_cons_self
    have ⟨ts, hts, hrs⟩ := hi fun y hy => h y (List.mem_cons_of_mem _ hy)
    refine ⟨t :: ts, ?_, .cons hr hrs⟩
    rw [printEntries, ht, hts]
    rfl

theorem printMembers_some {R : CStr → Item D → Prop} (hn : ∀ x ∈ members, Printable x.1)
    (h : ∀ x ∈ members, ∃ t, printValue fmt depth x.2 = some t ∧ R t x.2) :
    ∃ xs, printMembers fmt depth members = some xs ∧
      List.Forall₂ (fun e x => Printable x.1 ∧ e.1 = quote x.1 ∧ R e.2 x.2) xs members := by
  induction members
  case nil => exact ⟨[], rfl, .nil⟩
  case cons x members hi =>
    have ⟨t, ht, hr⟩ := h x List.mem_cons_self
    have ⟨xs, hxs, hrs⟩ := hi (fun y hy => hn y (List.mem_cons_of_mem _ hy))
      fun y hy => h y (List.mem_cons_of_mem _ hy)
    have hx := hn x List.mem_cons_self
    refine ⟨(quote x.1, t) :: xs, ?_, .cons ⟨hx, rfl, hr⟩ hrs⟩
    rw [printMembers, printString_eq hx, ht, hxs]
    rfl

-- The text of an item with children

theorem printValue_array (hc : child ≠ []) (h : printEntries fmt (depth + 1) child = some ts)
    (hl : List.Forall₂ (fun t x => t.length < Item.room (depth + 1) x) ts child)
    (hr : (Item.array child).room depth < 2 ^ 31) :
    printValue fmt depth (.array child) = some ('[' :: composeArray fmt ts ++ [']']) ∧
      ('[' :: composeArray fmt ts ++ [']']).length < (Item.array child).room depth := by
  have hs := entries_le fmt hl
  have hn := length_composeArray fmt ts
  rw [Item.room] at hr ⊢
  simp only [List.length_append, List.length_cons, List.length_nil]
  refine ⟨?_, by omega⟩
  rw [printValue, h]
  · refine lenBlock_some ?_ (by omega)
    simp only [List.length_append, List.length_cons, List.length_nil]
    omega
  · exact hc

theorem printValue_object (hc : members ≠ [])
    (h : printMembers fmt (depth + 1) members = some xs)
    (hl : List.Forall₂ (fun e x => Printable x.1 ∧ e.1 = quote x.1 ∧
      e.2.length < Item.room (depth + 1) x.2) xs members)
    (hr : (Item.object members).room depth < 2 ^ 31) :
    printValue fmt depth (.object members) =
      some ('{' :: (if fmt then ['\n'] else []) ++ composeObject fmt (depth + 1) xs ++
        (if fmt then tabs depth else []) ++ ['}']) ∧
      ('{' :: (if fmt then ['\n'] else []) ++ composeObject fmt (depth + 1) xs ++
        (if fmt then tabs depth else []) ++ ['}']).length < (Item.object members).room depth := by
  have hs := members_le fmt hl
  have hn := length_composeObject fmt (depth + 1) xs
  have ht : (if fmt then tabs depth else []).length = if fmt then depth else 0 := by
    cases fmt <;> simp [tabs]
  have ht₁ : (if fmt then ['\n'] else []).length = if fmt then 1 else 0 := by
    cases fmt <;> rfl
  have hlen : ('{' :: (if fmt then ['\n'] else []) ++ composeObject fmt (depth + 1) xs ++
      (if fmt then tabs depth else []) ++ ['}']).length <
        7 + (if fmt then depth + 1 else 0) + (xs.map fun (str, ret) =>
          ret.length + str.length + 2 + if fmt then 2 + (depth + 1) else 0).sum := by
    simp only [List.length_append, List.length_cons, List.length_nil, ht, ht₁]
    cases fmt <;> simp at hn ⊢ <;> omega
  have hle : (if fmt then depth + 1 else 0) ≤ depth + 1 := by
    split <;> omega
  rw [Item.room] at hr ⊢
  refine ⟨?_, by omega⟩
  rw [printValue, h]
  · exact lenBlock_some hlen (by omega)
  · exact hc

theorem printValue_empty (fmt : Bool) (hr : (Item.object [] : Item D).room depth < 2 ^ 31) :
    printValue fmt depth (.object [] : Item D) =
      some ('{' :: (if fmt then '\n' :: tabs (depth - 1) else []) ++ ['}']) ∧
      ('{' :: (if fmt then '\n' :: tabs (depth - 1) else []) ++ ['}']).length <
        (Item.object [] : Item D).room depth := by
  rw [Item.room] at hr ⊢
  rw [printValue]
  cases fmt
  case false => exact ⟨rfl, by simp; omega⟩
  case true  =>
    simp only [if_true, tabs, List.length_append, List.length_cons, List.length_nil,
      List.length_replicate]
    refine ⟨if_pos ?_, by omega⟩
    simp only [List.length_append, List.length_cons, List.length_nil, List.length_replicate]
    omega

-- Whatever is printed fits in the blocks that are allocated for it.
theorem printValue_some (h : Plain N item)
    (hN : ∀ i d, N i d → ∃ t, printNumber i d = some t ∧ Bare t) (fmt : Bool) (depth : ℕ)
    (hr : item.room depth < 2 ^ 31) :
    ∃ t, printValue fmt depth item = some t ∧ t.length < item.room depth ∧ Closed t := by
  induction h generalizing depth
  case null         => exact ⟨_, rfl, Nat.lt_succ_self _, .bare (by simp [Bare, CStr.ofString])⟩
  case false        => exact ⟨_, rfl, Nat.lt_succ_self _, .bare (by simp [Bare, CStr.ofString])⟩
  case true         => exact ⟨_, rfl, Nat.lt_succ_self _, .bare (by simp [Bare, CStr.ofString])⟩
  case string s h   =>
    exact ⟨_, printString_eq ⟨h, hr⟩, Nat.lt_of_succ_le (length_quote h).le, .quote h⟩
  case number i d h =>
    obtain ⟨t, ht, hb⟩ := hN i d h
    exact ⟨t, ht, length_printNumber ht, .bare hb⟩
  case array child h hi =>
    cases child
    case nil => exact ⟨_, rfl, length_emptyArray, .bare (by simp [Bare, CStr.ofString])⟩
    case cons x child =>
      obtain ⟨ts, hts, hf⟩ := printEntries_some
        (R := fun t y => Closed t ∧ t.length < y.room (depth + 1)) fun y hy => by
          have hle := Item.room_le_entriesRoom (depth + 1) hy
          obtain ⟨t, ht, hl, hc⟩ := hi y hy (depth + 1) (by rw [Item.room] at hr; omega)
          exact ⟨t, ht, hc, hl⟩
      have hc := Closed.composeArray fmt ((List.forall₂_and_left _ _).mp hf).left
      obtain ⟨hp, hl⟩ := printValue_array (by simp) hts ((List.forall₂_and_left _ _).mp hf).right hr
      exact ⟨_, hp, hl, (hc.cons (by decide)).append (.cons (by decide) .nil)⟩
  case object members hn h hi =>
    cases members
    case nil =>
      have hb := Closed.ite fmt (.cons (by decide : '\n' ≠ _ ∧ _) (.tabs (depth - 1)))
      obtain ⟨hp, hl⟩ := printValue_empty fmt hr
      exact ⟨_, hp, hl, (hb.cons (by decide)).append (.cons (by decide) .nil)⟩
    case cons x members =>
      have hle {y : CStr × Item D} (hy : y ∈ x :: members) :=
        Item.room_le_membersRoom (depth + 1) hy
      rw [Item.room] at hr
      obtain ⟨xs, hxs, hf⟩ := printMembers_some
        (R := fun t y => t.length < y.room (depth + 1) ∧ Closed t)
        (fun y hy => ⟨hn y hy, by have := hle hy; omega⟩)
        fun y hy => hi y hy (depth + 1) (by have := hle hy; omega)
      have hcl : List.Forall₂ (fun e _ => (Closed e.1 ∧ Closed e.2) ∧ True) xs (x :: members) :=
        hf.imp fun e y he =>
          ⟨⟨he.right.left ▸ .quote he.left.noNul, he.right.right.right⟩, trivial⟩
      have hc := Closed.composeObject fmt (depth + 1) ((List.forall₂_and_left _ _).mp hcl).left
      have ho := (Closed.ite fmt (.cons (by decide : '\n' ≠ _ ∧ _) .nil)).append hc
      have ht := ho.append (.ite fmt (.tabs depth))
      obtain ⟨hp, hl⟩ := printValue_object (by simp) hxs
        (hf.imp fun e y he => ⟨he.left, he.right.left, he.right.right.left⟩) hr
      exact ⟨_, hp, hl, (ht.cons (by decide)).append (.cons (by decide) .nil)⟩

end

end JsonText
