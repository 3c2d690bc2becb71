import Mathlib.Data.List.TakeWhile
import Aiotc.Json.Print
import Aiotc.Json.Rational

-- cJSON.c: how trees are read.

open Reader

namespace JsonText

variable {D : Type}

def skip (s : CStr) : CStr :=
  s.dropWhile fun c => c.toNat ≤ 32

-- `c` opens a number.
def startsNumber (c : Char) : Bool :=
  c = '-' || c.isDigit

section

variable [Double D]

-- One child of an object: its name, and what is behind the colon
def parseMember (parseValue : CStr → Parsed (Item D)) (value : CStr) : Parsed (CStr × Item D) :=
  (parseString (skip value)).bind fun string value =>
    let value := skip value
    if value.head? = some ':' then
      (parseValue (skip value.tail)).bind fun item value => .ok (string, item) (skip value)
    else
      .error value

-- `n` bounds how deep the items are nested, and how many children one has.
def parseValue : ℕ → CStr → Parsed (Item D)
  | 0, _ => .fault
  | n + 1, value =>
    if "null".toList <+: value then
      .ok .null (value.drop 4)
    else if "false".toList <+: value then
      .ok .false (value.drop 5)
    else if "true".toList <+: value then
      .ok .true (value.drop 4)
    else if value.head? = some '"' then
      (parseString value).bind fun s value => .ok (.string s) value
    else if value.head?.any startsNumber then
      let ((i, d), value) := parseNumber value
      .ok (.number i d) value
    else if value.head? = some '[' then
      let value := skip value.tail
      if value.head? = some ']' then
        .ok (.array []) value.tail
      else
        let item value := (parseValue n (skip value)).bind fun item value => .ok item (skip value)
        (sepBy item ',' ']' id n value).bind fun child value => .ok (.array child) value
    else if value.head? = some '{' then
      let value := skip value.tail
      if value.head? = some '}' then
        .ok (.object []) value.tail
      else
        (sepBy (parseMember (parseValue n)) ',' '}' id n value).bind fun child value =>
          .ok (.object child) value
    else
      .error value

-- `cJSON_Parse`. What is behind the value is not looked at.
def cJSON_Parse (value : CStr) : Parsed (Item D) :=
  parseValue (value.length + 1) (skip value)

end

-- `t` is behind some characters of `s` that are no quotes.
def Past (s t : CStr) : Prop :=
  ∃ w, '"' ∉ w ∧ s = w ++ t

def Bounded (valueint : Int) (_ : D) : Prop :=
  INT_MIN ≤ valueint ∧ valueint ≤ INT_MAX

section

variable {s t u w value : CStr} {n : ℕ} {p : Char → Bool}

namespace Past

theorem refl (s : CStr) : Past s s :=
  ⟨[], List.not_mem_nil, rfl⟩

theorem trans (h : Past s t) (h' : Past t u) : Past s u := by
  obtain ⟨w, hw, rfl⟩ := h
  obtain ⟨w', hw', rfl⟩ := h'
  exact ⟨w ++ w', by simp [hw, hw'], (List.append_assoc ..).symm⟩

theorem length_le (h : Past s t) : t.length ≤ s.length := by
  obtain ⟨w, -, rfl⟩ := h
  rw [List.length_append]
  exact Nat.le_add_left ..

theorem legible (h : Past s t) (hs : Legible s) : Legible t := by
  obtain ⟨w, hw, rfl⟩ := h
  have hn := hs.short
  rw [List.length_append] at hn
  refine ⟨?_, fun hc => hs.noNul (List.mem_append_right w hc), by omega⟩
  have he := hs.escapes
  clear hs hn
  induction w
  case nil => exact he
  case cons c w hi =>
    rw [List.mem_cons, not_or] at hw
    rw [List.cons_append, wholeEscapes, decide_eq_false (Ne.symm hw.left)] at he
    exact hi hw.right he

theorem tail (hs : s.head? ≠ some '"') : Past s s.tail := by
  cases s
  case nil      => exact refl []
  case cons c s => exact ⟨[c], by simpa [eq_comm] using hs, rfl⟩

theorem dropWhile (hp : p '"' = false) : Past s (s.dropWhile p) := by
  refine ⟨s.takeWhile p, fun hq => ?_, List.takeWhile_append_dropWhile.symm⟩
  exact Bool.false_ne_true (hp.symm.trans (List.mem_takeWhile_imp hq))

theorem drop (h : w <+: s) (hw : '"' ∉ w) : Past s (s.drop w.length) := by
  obtain ⟨t, rfl⟩ := h
  exact ⟨w, hw, by rw [List.drop_left]⟩

theorem skip : Past s (skip s) :=
  dropWhile rfl

-- The parts of a number

theorem spanDigits : Past s (spanDigits s).2 :=
  dropWhile rfl

theorem scanSign : Past s (scanSign s).2 := by
  rw [JsonText.scanSign]
  split
  case isTrue h  => exact tail (by simp [h])
  case isFalse h => exact refl s

theorem scanDigits : Past s (scanDigits s).2 := by
  have h₀ : Past s (if s.head? = some '0' then s.tail else s) := by
    split
    case isTrue h  => exact tail (by simp [h])
    case isFalse h => exact refl s
  simp only [JsonText.scanDigits]
  generalize (if s.head? = some '0' then s.tail else s) = num at h₀
  split
  case isTrue h  => exact h₀.trans spanDigits
  case isFalse h => exact h₀

theorem scanFraction : Past s (scanFraction s).2 := by
  rw [JsonText.scanFraction]
  split
  case isTrue h  => exact (tail (by simp [h.left])).trans spanDigits
  case isFalse h => exact refl s

theorem scanExponent : Past s (scanExponent s).2 := by
  rw [JsonText.scanExponent]
  split
  case isFalse h => exact refl s
  case isTrue h  =>
    have h₁ : Past s s.tail := by
      refine tail ?_
      rcases h with h | h <;> simp [h]
    refine h₁.trans (Past.trans ?_ spanDigits)
    split
    case isTrue h  => exact tail (by simp [h])
    case isFalse h => exact scanSign

theorem parseNumber [Double D] : Past s (parseNumber s : (Int × D) × CStr).2 :=
  scanSign.trans (scanDigits.trans (scanFraction.trans scanExponent))

end Past

-- What is behind the bracket that opens an array or an object
theorem children_sound {α : Type} {item : CStr → Parsed α} {stop : Char} {f : List α → Item D}
    {P : α → Prop} (hstop : stop ≠ '"') (ht : Legible t) (hn : t.length < n)
    (hf : ∀ child, (∀ x ∈ child, P x) → Plain Bounded (f child))
    (hitem : ∀ u, Legible u → u.length ≤ t.length → (item u).Sound fun x rest =>
      P x ∧ Legible rest ∧ rest.length ≤ u.length) :
    (if t.head? = some stop then .ok (f []) t.tail else
      (sepBy item ',' stop id n t).bind fun child rest => .ok (f child) rest).Sound fun item rest =>
        Plain Bounded item ∧ Legible rest ∧ rest.length ≤ t.length := by
  have htail {c : Char} {u : CStr} (hc : c ≠ '"') (hu : Legible (c :: u)) : Legible u :=
    (Past.tail (by simpa using hc)).legible hu
  split
  case isTrue hc =>
    have hp : Past t t.tail := Past.tail (by simpa [hc] using hstop)
    exact ⟨hf [] (by simp), hp.legible ht, hp.length_le⟩
  case isFalse =>
    refine (sepBy_sound hitem (fun u => htail (by decide)) (fun u => htail hstop) ht hn).bind
      fun child rest h => ?_
    exact ⟨hf child h.left, h.right.left, h.right.right.le⟩

variable [Double D]

theorem parseMember_sound (h : Legible value) (hn : value.length ≤ n)
    (hi : ∀ s, Legible s → s.length < n → (parseValue n s : Parsed (Item D)).Sound
      fun item rest => Plain Bounded item ∧ Legible rest ∧ rest.length ≤ s.length) :
    (parseMember (parseValue n) value : Parsed (CStr × Item D)).Sound fun x rest =>
      ('\x00' ∉ x.1 ∧ Plain Bounded x.2) ∧ Legible rest ∧ rest.length ≤ value.length := by
  have hs := Past.skip.legible h
  have hsl := (Past.skip (s := value)).length_le
  have hstring := parseString_sound hs.escapes hs.noNul hs.short
  refine hstring.bind fun string t ⟨h₀, hsuf, hlt, he⟩ => ?_
  have ht : Legible t := ⟨he, fun hc => hs.noNul (hsuf.mem hc), hlt.trans hs.short⟩
  have hv := Past.skip.legible ht
  have hvl := (Past.skip (s := t)).length_le
  simp only
  split
  case isFalse => trivial
  case isTrue hc =>
    have hp : Past (skip t) (skip (skip t).tail) := (Past.tail (by simp [hc])).trans .skip
    have hpl := hp.length_le
    refine (hi _ (hp.legible hv) (by omega)).bind fun item rest ⟨hitem, hr, hl⟩ => ?_
    have hrl := (Past.skip (s := rest)).length_le
    exact ⟨⟨h₀, hitem⟩, Past.skip.legible hr, by omega⟩

-- Nothing outside of the text is read, and no string is written behind its block. What is found
-- can be printed.
theorem parseValue_sound [Printed D] (h : Legible value) (hn : value.length < n) :
    (parseValue n value : Parsed (Item D)).Sound fun item rest =>
      Plain Bounded item ∧ Legible rest ∧ rest.length ≤ value.length := by
  induction n generalizing value
  case zero => exact absurd hn (Nat.not_lt_zero _)
  case succ n hi =>
    have hword {w : CStr} {item : Item D} (hw : w <+: value) (hq : '"' ∉ w)
        (hitem : Plain Bounded item) : (Result.ok item (value.drop w.length) : Parsed _).Sound
          fun item rest => Plain Bounded item ∧ Legible rest ∧ rest.length ≤ value.length :=
      ⟨hitem, (Past.drop hw hq).legible h, (Past.drop hw hq).length_le⟩
    -- What is in front of the children of an array or an object
    have hopen {c : Char} (hv : value.head? = some c) (hc : c ≠ '"') :
        Legible (skip value.tail) ∧ (skip value.tail).length < value.length := by
      have ht : Past value value.tail := Past.tail (by simpa [hv] using hc)
      have hl : value.tail.length < value.length := by
        cases value
        case nil      => simp at hv
        case cons c s => exact Nat.lt_succ_self _
      exact ⟨(ht.trans .skip).legible h, Nat.lt_of_le_of_lt Past.skip.length_le hl⟩
    have hle {t : CStr} (hl : t.length < value.length) (item : Item D) (rest : CStr)
        (h : Plain Bounded item ∧ Legible rest ∧ rest.length ≤ t.length) :
        Plain Bounded item ∧ Legible rest ∧ rest.length ≤ value.length :=
      ⟨h.left, h.right.left, h.right.right.trans hl.le⟩
    rw [parseValue]
    split
    case isTrue hw => exact hword hw (by decide) .null
    split
    case isTrue hw => exact hword hw (by decide) .false
    split
    case isTrue hw => exact hword hw (by decide) .true
    split
    case isTrue hq =>
      refine (parseString_sound h.escapes h.noNul h.short).bind fun s rest ⟨h₀, hsuf, hlt, he⟩ => ?_
      exact ⟨.string h₀, ⟨he, fun hc => h.noNul (hsuf.mem hc), hlt.trans h.short⟩, hlt.le⟩
    split
    case isTrue hq =>
      have hp := Past.parseNumber (D := D) (s := value)
      exact ⟨.number Printed.cast, hp.legible h, hp.length_le⟩
    split
    case isTrue hv =>
      obtain ⟨ht, hl⟩ := hopen hv (by decide)
      refine (children_sound (f := .array) (by decide) ht (by omega) (fun _ => .array)
        fun u hu hul => ?_).mono (hle hl)
      have hsl := (Past.skip (s := u)).length_le
      refine (hi (Past.skip.legible hu) (by omega)).bind fun item rest hitem => ?_
      have hrl := (Past.skip (s := rest)).length_le
      refine ⟨hitem.left, Past.skip.legible hitem.right.left, ?_⟩
      exact hrl.trans (hitem.right.right.trans hsl)
    split
    case isTrue hv =>
      obtain ⟨ht, hl⟩ := hopen hv (by decide)
      refine (children_sound (f := .object) (P := fun x => '\x00' ∉ x.1 ∧ Plain Bounded x.2)
        (by decide) ht (by omega) (fun child hc => ?_) fun u hu hul => ?_).mono (hle hl)
      · exact .object (fun x hx => (hc x hx).left) fun x hx => (hc x hx).right
      · exact parseMember_sound hu (by omega) fun s hs hn => hi hs hn
    case isFalse => trivial

theorem parse_sound [Printed D] (h : Legible value) :
    (cJSON_Parse value : Parsed (Item D)).Sound fun item rest =>
      Plain Bounded item ∧ Legible rest := by
  have hl := (Past.skip (s := value)).length_le
  refine (parseValue_sound (Past.skip.legible h) (by omega)).mono fun item rest hitem => ?_
  exact ⟨hitem.left, hitem.right.left⟩

-- The recursion ends, no access is outside of the text or of what is allocated for its strings, and
-- whatever is read can be printed into a text that can be read, as far as an int counts its size.
theorem cJSON_Parse_sound [Printed D] (h : Legible value) :
    (cJSON_Parse value : Parsed (Item D)).Sound fun item rest => Legible rest ∧
      Plain Bounded item ∧ ∀ fmt depth, item.room depth < 2 ^ 31 →
        ∃ t, printValue fmt depth item = some t ∧ Legible t := by
  refine (parse_sound h).mono fun item rest ⟨hitem, hr⟩ => ⟨hr, hitem, fun fmt depth hlt => ?_⟩
  obtain ⟨t, ht, hn, hc⟩ := printValue_some hitem
    (fun i d hb => printNumber_some hb.left hb.right d) fmt depth hlt
  exact ⟨t, ht, hc.legible (hn.trans hlt)⟩

end

-- A request of a user
def request : CStr :=
  "\x7b\"id\": 7, \"name\": \"caf\\u00e9\", \"data\": \x7b\"rate\": [0.5, 3e9, true]\x7d\x7d"

theorem legible_request : Legible request :=
  ⟨by decide, by decide, by decide⟩

theorem cJSON_Parse_sound_request :
    (cJSON_Parse request : Parsed (Item ℚ)).Sound fun item rest => Legible rest ∧
      Plain Bounded item ∧ ∀ fmt depth, item.room depth < 2 ^ 31 →
        ∃ t, printValue fmt depth item = some t ∧ Legible t :=
  cJSON_Parse_sound legible_request

end JsonText
