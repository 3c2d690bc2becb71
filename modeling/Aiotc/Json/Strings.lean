import Mathlib.Algebra.Group.Nat.Defs
import Mathlib.Algebra.BigOperators.Group.List.Basic
import Mathlib.Tactic.IntervalCases
import Aiotc.Json.Number
import Aiotc.Library.Reader

-- cJSON.c: how strings are read and printed.

open Reader

namespace JsonText

-- A text that is read, and where `ep` points to when that fails
abbrev Parsed (α : Type) := Result Char CStr α

-- `ptr += n`. The NUL may be reached.
def advance (n : ℕ) (ptr : CStr) : Option CStr :=
  if n ≤ ptr.length then some (ptr.drop n) else none

def hexDigit (c : Char) : Option ℕ :=
  if '0' ≤ c ∧ c ≤ '9' then
    some (c.toNat - '0'.toNat)
  else if 'A' ≤ c ∧ c ≤ 'F' then
    some (10 + (c.toNat - 'A'.toNat))
  else if 'a' ≤ c ∧ c ≤ 'f' then
    some (10 + (c.toNat - 'a'.toNat))
  else
    none

-- The first character that is no digit ends it.
def parseHex4 : CStr → ℕ
  | a :: b :: c :: d :: _ =>
    let h := do
      let h ← hexDigit a
      let h := h <<< 4 + (← hexDigit b)
      let h := h <<< 4 + (← hexDigit c)
      return h <<< 4 + (← hexDigit d)
    h.getD 0
  | _ => 0

def firstByteMark : ℕ → ℕ
  | 2 => 0xC0
  | 3 => 0xE0
  | 4 => 0xF0
  | _ => 0x00

def utf8Len (uc : ℕ) : ℕ :=
  if uc < 0x80 then 1 else if uc < 0x800 then 2 else if uc < 0x10000 then 3 else 4

-- The cases of the switch, from the last byte to the first
def utf8Fill (len : ℕ) : ℕ → ℕ → CStr → CStr
  | 0, _, out      => out
  | 1, uc, out     => Char.ofNat (uc ||| firstByteMark len) :: out
  | n + 2, uc, out =>
    utf8Fill len (n + 1) (uc >>> 6) (Char.ofNat ((uc ||| 0x80) &&& 0xBF) :: out)

def utf8 (uc : ℕ) : CStr :=
  utf8Fill (utf8Len uc) (utf8Len uc) uc []

-- `ptr` is behind the 'u'. What is written, and where `ptr` is afterwards. No character is written
-- for half a surrogate pair and for a text that is no number.
def utf16 (ptr : CStr) : Option (CStr × CStr) :=
  let uc := parseHex4 ptr
  if 0xDC00 ≤ uc ∧ uc ≤ 0xDFFF ∨ uc = 0 then
    return ([], ← advance 4 ptr)
  else if 0xD800 ≤ uc ∧ uc ≤ 0xDBFF then
    match ptr.drop 4 with
    | '\\' :: 'u' :: s =>
      let uc2 := parseHex4 s
      if uc2 < 0xDC00 ∨ 0xDFFF < uc2 then
        return ([], ← advance 10 ptr)
      else
        let uc := 0x10000 + (((uc &&& 0x3FF) <<< 10) ||| (uc2 &&& 0x3FF))
        return (utf8 uc, ← advance 10 ptr)
    | _ => return ([], ← advance 4 ptr)
  else
    return (utf8 uc, ← advance 4 ptr)

def escape (c : Char) (ptr : CStr) : Option (CStr × CStr) :=
  match c with
  | 'b' => some (['\x08'], ptr)
  | 'f' => some (['\x0c'], ptr)
  | 'n' => some (['\n'], ptr)
  | 'r' => some (['\r'], ptr)
  | 't' => some (['\t'], ptr)
  | 'u' => utf16 ptr
  | c   => some ([c], ptr)

-- The first loop of `parse_string`: the room that is made for the string.
def stringLen : CStr → Option ℕ
  | []             => some 0
  | '"' :: _       => some 0
  | ['\\']         => none
  | '\\' :: _ :: s => (stringLen s).map (· + 1)
  | _ :: s         => (stringLen s).map (· + 1)

-- The second loop: what is written, and the text behind the closing quote.
def unescape : ℕ → CStr → Option (CStr × CStr)
  | 0, _              => none
  | _ + 1, []         => some ([], [])
  | _ + 1, '"' :: ptr => some ([], ptr)
  | _ + 1, ['\\']     => none
  | n + 1, '\\' :: c :: ptr => do
    let (w, ptr) ← escape c ptr
    let (out, ptr) ← unescape n ptr
    return (w ++ out, ptr)
  | n + 1, c :: ptr => do
    let (out, ptr) ← unescape n ptr
    return (c :: out, ptr)

-- The block has `len + 1` bytes, and `len` is an int.
def parseString (str : CStr) : Parsed CStr :=
  match str with
  | '"' :: ptr =>
    match stringLen ptr, unescape (ptr.length + 1) ptr with
    | some len, some (out, ptr) =>
      if out.length ≤ len ∧ len + 1 < 2 ^ 31 then .ok out ptr else .fault
    | _, _                      => .fault
  | _ => .error str

-- "%04x"
def hex4 (n : ℕ) : CStr :=
  List.replicate (4 - (Nat.toDigits 16 n).length) '0' ++ Nat.toDigits 16 n

def printChar (token : Char) : CStr :=
  if 31 < token.toNat ∧ token ≠ '"' ∧ token ≠ '\\' then
    [token]
  else
    '\\' ::
      match token with
      | '\\'   => ['\\']
      | '"'    => ['"']
      | '\x08' => ['b']
      | '\x0c' => ['f']
      | '\n'   => ['n']
      | '\r'   => ['r']
      | '\t'   => ['t']
      | _      => 'u' :: hex4 token.toNat

def printLen (token : Char) : ℕ :=
  1 + if token ∈ ['"', '\\', '\x08', '\x0c', '\n', '\r', '\t'] then 1
    else if token.toNat < 32 then 5 else 0

-- A block whose size is counted in an int. `none` is also an int that is too small.
def lenBlock (len : ℕ) (s : CStr) : Option CStr :=
  if len < 2 ^ 31 then block len s else none

def printString (str : CStr) : Option CStr :=
  if str.any fun c => 0 < c.toNat ∧ c.toNat < 32 ∨ c = '"' ∨ c = '\\' then
    lenBlock ((str.map printLen).sum + 3) ('"' :: str.flatMap printChar ++ ['"'])
  else
    lenBlock (str.length + 3) ('"' :: str ++ ['"'])

-- The size of the block for a string
def stringRoom (str : CStr) : ℕ :=
  (str.map printLen).sum + 3

structure Printable (str : CStr) : Prop where
  noNul : '\x00' ∉ str
  room  : stringRoom str < 2 ^ 31

section Printing

variable {c : Char} {str ptr w s : CStr} {n len : ℕ}

theorem advance_append (h : w.length = n) : advance n (w ++ s) = some s := by
  subst h
  simp [advance]

theorem utf8_of_lt (h : n < 0x80) : utf8 n = [Char.ofNat n] := by
  simp [utf8, utf8Len, h, utf8Fill, firstByteMark]

theorem unescape_escape :
    unescape (n + 1) ('\\' :: c :: ptr) = (escape c ptr).bind fun x =>
      (unescape n x.2).map fun y => (x.1 ++ y.1, y.2) := by
  simp only [unescape, bind, Option.map_eq_bind]
  rfl

theorem unescape_plain (h₁ : c ≠ '"') (h₂ : c ≠ '\\') :
    unescape (n + 1) (c :: ptr) = (unescape n ptr).map fun y => (c :: y.1, y.2) := by
  rw [unescape, Option.map_eq_bind]
  · rfl
  · exact h₁
  · exact fun h => absurd h h₂
  · exact fun _ _ h => absurd h h₂

theorem stringLen_plain (h₁ : c ≠ '"') (h₂ : c ≠ '\\') :
    stringLen (c :: ptr) = (stringLen ptr).map (· + 1) := by
  rw [stringLen]
  · exact h₁
  · exact fun h => absurd h h₂
  · exact fun _ _ h => absurd h h₂

-- The ways in which a character is printed
theorem printChar_cases (hc : c ≠ '\x00') :
    (31 < c.toNat ∧ c ≠ '"' ∧ c ≠ '\\' ∧ printLen c = 1 ∧ printChar c = [c]) ∨
    (printLen c = 2 ∧ ∃ x, printChar c = ['\\', x] ∧ ∀ ptr, escape x ptr = some ([c], ptr)) ∨
    (0 < c.toNat ∧ c.toNat < 32 ∧ printLen c = 6 ∧ printChar c = '\\' :: 'u' :: hex4 c.toNat) := by
  by_cases hlt : c.toNat < 32
  case pos =>
    have hn := Char.ofNat_toNat c
    generalize c.toNat = n at hn hlt
    subst hn
    interval_cases n
    all_goals first
      | exact absurd rfl hc
      | exact .inr (.inl ⟨rfl, _, rfl, fun _ => rfl⟩)
      | exact .inr (.inr ⟨by decide, by decide, rfl, rfl⟩)
  case neg =>
    by_cases hq : c = '"' ∨ c = '\\'
    case pos => rcases hq with rfl | rfl <;> exact .inr (.inl ⟨rfl, _, rfl, fun _ => rfl⟩)
    case neg =>
      have ⟨h₁, h₂⟩ := not_or.mp hq
      refine .inl ⟨by omega, h₁, h₂, ?_, if_pos ⟨by omega, h₁, h₂⟩⟩
      have hn : c ∉ ['"', '\\', '\x08', '\x0c', '\n', '\r', '\t'] := by
        simp only [List.mem_cons, List.not_mem_nil, or_false, not_or]
        refine ⟨h₁, h₂, ?_, ?_, ?_, ?_, ?_⟩ <;>
          · rintro rfl
            exact hlt (by decide)
      rw [printLen, if_neg hn, if_neg hlt]

-- As `str` stands in a text
def quote (str : CStr) : CStr :=
  '"' :: (str.flatMap printChar ++ ['"'])

theorem length_flatMap_printChar (h : '\x00' ∉ str) :
    (str.flatMap printChar).length = (str.map printLen).sum := by
  rw [List.length_flatMap]
  refine congrArg List.sum (List.map_congr_left fun c hc => ?_)
  have h₀ : c ≠ '\x00' := by
    rintro rfl
    exact h hc
  rcases printChar_cases h₀ with ⟨_, _, _, hl, hp⟩ | ⟨hl, x, hp, _⟩ | ⟨_, hn, hl, hp⟩
  · rw [hp, hl]
    rfl
  · rw [hp, hl]
    rfl
  · rw [hp, hl]
    generalize c.toNat = n at hn
    interval_cases n <;> rfl

theorem length_quote (h : '\x00' ∉ str) : (quote str).length + 1 = stringRoom str := by
  simp [quote, stringRoom, length_flatMap_printChar h]

theorem lenBlock_some (hs : s.length < n) (hn : n < 2 ^ 31) : lenBlock n s = some s := by
  rw [lenBlock, if_pos hn, block, if_pos hs]

-- What is printed fits exactly in the block that is allocated for it.
theorem printString_eq (h : Printable str) : printString str = some (quote str) := by
  have hl := length_quote h.noNul
  rw [printString]
  split
  case isTrue => exact lenBlock_some (by simp [length_flatMap_printChar h.noNul]) h.room
  case isFalse hf =>
    have hp : str.flatMap printChar = str := by
      have hc : ∀ c ∈ str, printChar c = [c] := by
        intro c hc
        simp only [List.any_eq_true, decide_eq_true_eq, not_exists, not_and] at hf
        have hf := hf c hc
        have h₀ : c.toNat ≠ 0 := by
          intro hz
          have : c = '\x00' := by rw [← Char.ofNat_toNat c, hz]
          exact h.noNul (this ▸ hc)
        exact if_pos (by grind)
      rw [List.flatMap_congr hc, List.flatMap_singleton']
    have hr := h.room
    rw [quote, hp, List.length_cons, List.length_append, List.length_singleton] at hl
    rw [quote, hp]
    exact lenBlock_some (by simp) (by omega)

theorem hex4_eq (h : n < 0x10000) :
    hex4 n = [(n / 4096).digitChar, (n / 256 % 16).digitChar, (n / 16 % 16).digitChar,
      (n % 16).digitChar] := by
  have hd (m : ℕ) (hm : 16 ≤ m) :
      Nat.toDigits 16 m = Nat.toDigits 16 (m / 16) ++ [(m % 16).digitChar] :=
    Nat.toDigits_of_base_le (by decide) hm
  have hs (m : ℕ) (hm : m < 16) : Nat.toDigits 16 m = [m.digitChar] := Nat.toDigits_of_lt_base hm
  have h₂ : n / 16 / 16 = n / 256 := by omega
  have h₃ : n / 256 / 16 = n / 4096 := by omega
  by_cases h₁ : n < 16
  case pos =>
    have : n / 4096 = 0 ∧ n / 256 % 16 = 0 ∧ n / 16 % 16 = 0 ∧ n % 16 = n := by omega
    simp [hex4, hs n h₁, this]
  case neg =>
    by_cases h₁ : n < 256
    case pos =>
      have : n / 4096 = 0 ∧ n / 256 % 16 = 0 ∧ n / 16 % 16 = n / 16 := by omega
      simp [hex4, hd n (by omega), hs (n / 16) (by omega), this]
    case neg =>
      by_cases h₁ : n < 4096
      case pos =>
        have : n / 4096 = 0 ∧ n / 256 % 16 = n / 256 := by omega
        simp [hex4, hd n (by omega), hd (n / 16) (by omega), h₂, hs (n / 256) (by omega), this]
      case neg =>
        simp [hex4, hd n (by omega), hd (n / 16) (by omega), h₂, hd (n / 256) (by omega), h₃,
          hs (n / 4096) (by omega)]

theorem hexDigit_digitChar (h : n < 16) : hexDigit n.digitChar = some n := by
  interval_cases n <;> rfl

theorem parseHex4_hex4 (h : n < 0x10000) : parseHex4 (hex4 n ++ s) = n := by
  rw [hex4_eq h]
  simp only [List.cons_append, List.nil_append, parseHex4, bind, pure,
    hexDigit_digitChar (show n / 4096 < 16 by omega), hexDigit_digitChar (Nat.mod_lt _ (by decide)),
    Option.bind_some, Option.getD_some, Nat.shiftLeft_eq]
  omega

theorem length_hex4 (h : n < 0x10000) : (hex4 n).length = 4 := by
  rw [hex4_eq h]
  rfl

theorem hexDigit_of_mem_hex4 (h : n < 0x10000) (hc : c ∈ hex4 n) : (hexDigit c).isSome := by
  rw [hex4_eq h] at hc
  simp only [List.mem_cons, List.not_mem_nil, or_false] at hc
  rcases hc with rfl | rfl | rfl | rfl <;> rw [hexDigit_digitChar (by omega)] <;> rfl

-- A hexadecimal digit does not end a string, and starts no escape.
theorem plain_of_hexDigit (h : (hexDigit c).isSome) : c ≠ '"' ∧ c ≠ '\\' := by
  constructor <;>
    · rintro rfl
      exact absurd h (by decide)

theorem stringLen_append (hw : ∀ c ∈ w, c ≠ '"' ∧ c ≠ '\\') :
    stringLen (w ++ s) = (stringLen s).map (· + w.length) := by
  induction w
  case nil => simp
  case cons c w hi =>
    have ⟨h₁, h₂⟩ := hw c List.mem_cons_self
    rw [List.cons_append, stringLen_plain h₁ h₂, hi fun c hc => hw c (List.mem_cons_of_mem _ hc),
      Option.map_map]
    rfl

theorem utf16_hex4 (h₀ : 0 < n) (hn : n < 0x10000) (hs : ¬(0xD800 ≤ n ∧ n ≤ 0xDFFF)) :
    utf16 (hex4 n ++ s) = some (utf8 n, s) := by
  rw [utf16, parseHex4_hex4 hn]
  simp only [advance_append (length_hex4 hn)]
  rw [if_neg (by omega), if_neg (by omega)]
  rfl

-- In front of `s` the piece `p` of a string is read, `w` is written for it, and there is room.
structure Writes (p w s : CStr) : Prop where
  pos      : 0 < p.length
  unescape : ∀ n, unescape (n + 1) (p ++ s) = (unescape n s).map fun x => (w ++ x.1, x.2)
  room     : ∀ len, stringLen s = some len → ∃ k, stringLen (p ++ s) = some k ∧
    len + w.length ≤ k ∧ k ≤ len + p.length

theorem writes_plain (h₁ : c ≠ '"') (h₂ : c ≠ '\\') : Writes [c] [c] s where
  pos        := Nat.zero_lt_one
  unescape _ := unescape_plain h₁ h₂
  room len h := by
    rw [List.singleton_append, stringLen_plain h₁ h₂, h]
    exact ⟨_, rfl, Nat.le_refl _, Nat.le_refl _⟩

theorem writes_escape {x : Char} (h : escape x s = some (w, s)) (hw : w.length ≤ 1) :
    Writes ['\\', x] w s where
  pos        := Nat.zero_lt_two
  unescape n := by
    rw [List.cons_append, List.singleton_append, unescape_escape, h]
    rfl
  room len h := by
    rw [List.cons_append, List.singleton_append, stringLen, h]
    exact ⟨_, rfl, Nat.add_le_add_left hw len, Nat.le_succ _⟩

-- Digits behind "\u" are skipped by the first loop one by one.
theorem stringLen_digits (hd : ∀ c ∈ ptr, (hexDigit c).isSome) (h : stringLen s = some len) :
    stringLen ('\\' :: 'u' :: (ptr ++ s)) = some (len + ptr.length + 1) := by
  rw [stringLen, stringLen_append fun c hc => plain_of_hexDigit (hd c hc), h]
  rfl

theorem writes_utf16 (hd : ∀ c ∈ ptr, (hexDigit c).isSome) (h : utf16 (ptr ++ s) = some (w, s))
    (hw : w.length ≤ ptr.length + 1) : Writes ('\\' :: 'u' :: ptr) w s where
  pos        := Nat.succ_pos _
  unescape n := by
    rw [List.cons_append, List.cons_append, unescape_escape, escape, h]
    rfl
  room len hl :=
    ⟨_, stringLen_digits hd hl, by omega, by simp only [List.length_cons]; omega⟩

theorem writes_pair {ptr' : CStr} (hd : ∀ c ∈ ptr, (hexDigit c).isSome)
    (hd' : ∀ c ∈ ptr', (hexDigit c).isSome)
    (h : utf16 (ptr ++ '\\' :: 'u' :: ptr' ++ s) = some (w, s))
    (hw : w.length ≤ ptr.length + ptr'.length + 2) :
    Writes ('\\' :: 'u' :: (ptr ++ '\\' :: 'u' :: ptr')) w s where
  pos        := Nat.succ_pos _
  unescape n := by
    rw [List.cons_append, List.cons_append, unescape_escape, escape, h]
    rfl
  room len hl := by
    rw [List.cons_append, List.cons_append, List.append_assoc, List.cons_append, List.cons_append]
    refine ⟨_, stringLen_digits hd (stringLen_digits hd' hl), by omega, ?_⟩
    simp only [List.length_cons, List.length_append]
    omega

theorem writes_printChar (hc : c ≠ '\x00') : Writes (printChar c) [c] s := by
  rcases printChar_cases hc with ⟨_, h₁, h₂, _, hp⟩ | ⟨_, x, hp, he⟩ | ⟨h₀, hn, _, hp⟩
  · exact hp ▸ writes_plain h₁ h₂
  · exact hp ▸ writes_escape (he s) (Nat.le_refl _)
  · rw [hp]
    refine writes_utf16 (fun x hx => hexDigit_of_mem_hex4 (by omega) hx) ?_ (Nat.succ_pos _)
    rw [utf16_hex4 h₀ (by omega) (by omega), utf8_of_lt (by omega), Char.ofNat_toNat]

-- From `ptr` on `out` is read, and `rest` is left.
structure Body (ptr out rest : CStr) : Prop where
  unescape : ∀ n, ptr.length < n → unescape n ptr = some (out, rest)
  room     : ∃ len, stringLen ptr = some len ∧ out.length ≤ len ∧ len + rest.length ≤ ptr.length

namespace Body

variable {out rest : CStr}

theorem nil : Body [] [] [] where
  unescape
    | _ + 1, _ => rfl
  room := ⟨0, rfl, Nat.le_refl _, Nat.le_refl _⟩

theorem close : Body ('"' :: s) [] s where
  unescape
    | _ + 1, _ => rfl
  room := ⟨0, rfl, Nat.le_refl _, by simp⟩

theorem append (h : Body ptr out rest) (hw : Writes s w ptr) : Body (s ++ ptr) (w ++ out) rest where
  unescape
    | 0, hn     => absurd hn (Nat.not_lt_zero _)
    | n + 1, hn => by
      have hpos := hw.pos
      rw [List.length_append] at hn
      rw [hw.unescape, h.unescape n (by omega)]
      rfl
  room := by
    have ⟨len, hl, hle, hr⟩ := h.room
    have ⟨k, hk, hlt, hks⟩ := hw.room len hl
    refine ⟨k, hk, ?_⟩
    rw [List.length_append, List.length_append]
    omega

theorem flatMap {α : Type} {f g : α → CStr} {l : List α} (h : Body ptr out rest)
    (hw : ∀ x ∈ l, ∀ s, Writes (f x) (g x) s) :
    Body (l.flatMap f ++ ptr) (l.flatMap g ++ out) rest := by
  induction l
  case nil => exact h
  case cons x l hi =>
    rw [List.flatMap_cons, List.flatMap_cons, List.append_assoc, List.append_assoc]
    exact (hi fun y hy => hw y (List.mem_cons_of_mem _ hy)).append (hw x List.mem_cons_self _)

theorem parseString (h : Body ptr out rest) (hn : ptr.length + 1 < rest.length + 2 ^ 31) :
    parseString ('"' :: ptr) = .ok out rest := by
  have ⟨len, hl, hle, hr⟩ := h.room
  rw [JsonText.parseString, hl, h.unescape _ (Nat.lt_succ_self _)]
  exact if_pos ⟨hle, by omega⟩

end Body

-- A string is read back as it is printed.
theorem parseString_quote (h : Printable str) : parseString (quote str ++ s) = .ok str s := by
  have hw : ∀ c ∈ str, ∀ s, Writes (printChar c) [c] s := by
    intro c hc s
    refine writes_printChar ?_
    rintro rfl
    exact h.noNul hc
  have hb := (Body.close (s := s)).flatMap hw
  have hl := length_quote h.noNul
  have hr := h.room
  rw [List.flatMap_singleton', List.append_nil] at hb
  rw [quote, List.length_cons, List.length_append, List.length_singleton] at hl
  rw [quote, List.cons_append, List.append_assoc]
  refine hb.parseString ?_
  rw [List.length_append, List.length_cons]
  omega

end Printing

end JsonText
