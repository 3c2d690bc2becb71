import Aiotc.Json.Strings

-- Which strings `parse_string` reads within its text and its block, and what escapes of UTF-16 are
-- read as.

open Reader

namespace JsonText

section Utf8

variable {uc n : ℕ} {c : Char} {s : CStr}

-- The bytes of a character in UTF-8
def bytes (c : Char) : CStr :=
  (String.utf8EncodeChar c).map fun b => Char.ofNat b.toNat

-- "\u" and the four digits of each unit of UTF-16
def utf16Escape (c : Char) : CStr :=
  if c.toNat < 0x10000 then
    '\\' :: 'u' :: hex4 c.toNat
  else
    '\\' :: 'u' :: (hex4 (0xD800 + (c.toNat - 0x10000) / 0x400) ++
      '\\' :: 'u' :: hex4 (0xDC00 + (c.toNat - 0x10000) % 0x400))

theorem or_and_tail (n : ℕ) : (n ||| 0x80) &&& 0xBF = n % 64 + 0x80 := by
  have h : ∀ m < 256, (m ||| 0x80) &&& 0xBF = m % 64 + 0x80 := by
    decide +kernel
  have hm : (n ||| 0x80) &&& 0xFF = n % 256 ||| 0x80 := by
    rw [Nat.and_two_pow_sub_one_eq_mod _ 8, Nat.or_mod_two_pow]
  have := h (n % 256) (Nat.mod_lt _ (by decide))
  rw [Nat.mod_mod_of_dvd n (by decide : 64 ∣ 256)] at this
  rw [← this, ← hm, Nat.and_assoc]
  rfl

theorem utf8_toNat (c : Char) : utf8 c.toNat = bytes c := by
  have hc : c.toNat < 0x110000 := by
    rcases c.valid with h | h
    · exact Nat.lt_trans h (by decide)
    · exact h.right
  have h₂ : ∀ n < 32, n ||| 0xC0 = n + 0xC0 := by
    decide +kernel
  have h₃ : ∀ n < 16, n ||| 0xE0 = n + 0xE0 := by
    decide +kernel
  have h₄ : ∀ n < 8, n ||| 0xF0 = n + 0xF0 := by
    decide +kernel
  have hshift (n : ℕ) : n >>> 6 = n / 64 := Nat.shiftRight_eq_div_pow n 6
  have hv : c.val.toNat = c.toNat := rfl
  rw [bytes, String.utf8EncodeChar, hv, utf8, utf8Len]
  generalize c.toNat = n at hc
  have hb (k : ℕ) (hk : k < 256) : Char.ofNat (UInt8.ofNat k).toNat = Char.ofNat k := by
    rw [UInt8.toNat_ofNat', Nat.mod_eq_of_lt hk]
  -- The four lengths
  by_cases h : n < 0x80
  case pos =>
    rw [if_pos h, if_pos (by omega)]
    simp only [utf8Fill, firstByteMark, Nat.or_zero, List.map_cons, List.map_nil, hb n (by omega)]
  case neg =>
    by_cases h' : n < 0x800
    case pos =>
      rw [if_neg h, if_pos h', if_neg (by omega), if_pos (by omega),
        Nat.mod_eq_of_lt (show n / 64 < 0x20 by omega)]
      simp only [utf8Fill, firstByteMark, hshift, or_and_tail, h₂ (n / 64) (by omega),
        List.map_cons, List.map_nil, hb (n / 64 + 0xC0) (by omega), hb (n % 64 + 0x80) (by omega)]
    case neg =>
      have h₆ : n / 64 / 64 = n / 4096 := Nat.div_div_eq_div_mul ..
      by_cases h'' : n < 0x10000
      case pos =>
        rw [if_neg h, if_neg h', if_pos h'', if_neg (by omega), if_neg (by omega),
          if_pos (by omega), Nat.mod_eq_of_lt (show n / 4096 < 0x10 by omega)]
        simp only [utf8Fill, firstByteMark, hshift, or_and_tail, h₆, h₃ (n / 4096) (by omega),
          List.map_cons, List.map_nil, hb (n / 4096 + 0xE0) (by omega),
          hb (n / 64 % 64 + 0x80) (by omega), hb (n % 64 + 0x80) (by omega)]
      case neg =>
        have h₁₂ : n / 4096 / 64 = n / 262144 := Nat.div_div_eq_div_mul ..
        rw [if_neg h, if_neg h', if_neg h'', if_neg (by omega), if_neg (by omega),
          if_neg (by omega), Nat.mod_eq_of_lt (show n / 262144 < 0x08 by omega)]
        simp only [utf8Fill, firstByteMark, hshift, or_and_tail, h₆, h₁₂,
          h₄ (n / 262144) (by omega), List.map_cons, List.map_nil,
          hb (n / 262144 + 0xF0) (by omega), hb (n / 4096 % 64 + 0x80) (by omega),
          hb (n / 64 % 64 + 0x80) (by omega), hb (n % 64 + 0x80) (by omega)]

theorem length_bytes_le (c : Char) : (bytes c).length ≤ 4 := by
  rw [bytes, List.length_map, String.length_utf8EncodeChar]
  exact Char.utf8Size_le_four c

-- Both halves of a surrogate pair are read at once.
theorem utf16_pair (hn : n < 0x100000) :
    utf16 (hex4 (0xD800 + n / 0x400) ++ '\\' :: 'u' :: hex4 (0xDC00 + n % 0x400) ++ s) =
      some (utf8 (0x10000 + n), s) := by
  have h₁ : 0xD800 + n / 0x400 < 0xDC00 := by omega
  have h₂ : 0xDC00 + n % 0x400 < 0xE000 := by omega
  have hand (m : ℕ) : m &&& 0x3FF = m % 0x400 := Nat.and_two_pow_sub_one_eq_mod m 10
  have hor : (n / 0x400) <<< 10 ||| n % 0x400 = n := by
    rw [← Nat.shiftLeft_add_eq_or_of_lt (Nat.mod_lt _ (by decide)), Nat.shiftLeft_eq]
    omega
  have h₁₀ : advance 10
      (hex4 (0xD800 + n / 0x400) ++ '\\' :: 'u' :: hex4 (0xDC00 + n % 0x400) ++ s) = some s := by
    refine advance_append ?_
    simp [length_hex4 (show 0xD800 + n / 0x400 < 0x10000 by omega),
      length_hex4 (show 0xDC00 + n % 0x400 < 0x10000 by omega)]
  rw [utf16, h₁₀, List.append_assoc, parseHex4_hex4 (by omega),
    List.drop_left' (length_hex4 (by omega))]
  simp only [List.cons_append, parseHex4_hex4 (show 0xDC00 + n % 0x400 < 0x10000 by omega)]
  rw [if_neg (by omega), if_pos (by omega), if_neg (by omega), hand, hand,
    show (0xD800 + n / 0x400) % 0x400 = n / 0x400 by omega,
    show (0xDC00 + n % 0x400) % 0x400 = n % 0x400 by omega, hor]
  rfl

theorem writes_utf16Escape (hc : c ≠ '\x00') : Writes (utf16Escape c) (bytes c) s := by
  have hlen := length_bytes_le c
  have h₀ : 0 < c.toNat := by
    refine Nat.pos_of_ne_zero fun h => hc ?_
    rw [← Char.ofNat_toNat c, h]
  have hv := c.valid
  rw [← utf8_toNat] at hlen ⊢
  rw [utf16Escape]
  split
  case isTrue h =>
    have hs : ¬(0xD800 ≤ c.toNat ∧ c.toNat ≤ 0xDFFF) := by
      rcases hv with hv | hv
      · have : c.toNat < 0xD800 := hv
        omega
      · have : 0xDFFF < c.toNat := hv.left
        omega
    refine writes_utf16 (fun x hx => hexDigit_of_mem_hex4 h hx) (utf16_hex4 h₀ h hs) ?_
    rw [length_hex4 h]
    omega
  case isFalse h =>
    have hc : c.toNat - 0x10000 < 0x100000 := by
      rcases hv with hv | hv
      · have : c.toNat < 0xD800 := hv
        omega
      · have : c.toNat < 0x110000 := hv.right
        omega
    have hp := utf16_pair (s := s) hc
    rw [show 0x10000 + (c.toNat - 0x10000) = c.toNat by omega] at hp
    refine writes_pair (fun x hx => hexDigit_of_mem_hex4 ?_ hx)
      (fun x hx => hexDigit_of_mem_hex4 ?_ hx) hp ?_
    · omega
    · omega
    · rw [length_hex4 (by omega), length_hex4 (by omega)]
      omega

-- A text in escapes of UTF-16 is read as its bytes in UTF-8.
theorem parseString_utf16 {cs : List Char} (h : '\x00' ∉ cs)
    (hn : (cs.flatMap utf16Escape).length + 2 < 2 ^ 31) :
    parseString ('"' :: (cs.flatMap utf16Escape ++ '"' :: s)) = .ok (cs.flatMap bytes) s := by
  have hw : ∀ c ∈ cs, ∀ s, Writes (utf16Escape c) (bytes c) s := by
    intro c hc s
    refine writes_utf16Escape ?_
    rintro rfl
    exact h hc
  have hb := (Body.close (s := s)).flatMap hw
  rw [List.append_nil] at hb
  refine hb.parseString ?_
  rw [List.length_append, List.length_cons]
  omega

theorem parseString_utf16_emoji :
    parseString ('"' :: (['a', 'é', '€', '😀'].flatMap utf16Escape ++ ['"'])) =
      .ok (['a', 'é', '€', '😀'].flatMap bytes) [] :=
  parseString_utf16 (by decide) (by decide)

end Utf8

-- Outside of a string, or inside: behind each backslash is a character, and behind each "\u" are
-- four digits.
def wholeEscapes : Bool → CStr → Bool
  | _, []                  => true
  | false, c :: s          => wholeEscapes (c = '"') s
  | true, '"' :: s         => wholeEscapes false s
  | true, ['\\']           => false
  | true, '\\' :: 'u' :: s =>
    4 ≤ s.length && (s.take 4).all (fun c => (hexDigit c).isSome) && wholeEscapes true s
  | true, '\\' :: _ :: s   => wholeEscapes true s
  | true, _ :: s           => wholeEscapes true s

section Safety

variable {c : Char} {s w ptr : CStr} {n uc : ℕ}

theorem wholeEscapes_append (hw : ∀ c ∈ w, c ≠ '"' ∧ c ≠ '\\') :
    wholeEscapes true (w ++ s) = wholeEscapes true s := by
  induction w
  case nil => rfl
  case cons c w hi =>
    have ⟨h₁, h₂⟩ := hw c List.mem_cons_self
    rw [List.cons_append, wholeEscapes, hi fun c hc => hw c (List.mem_cons_of_mem _ hc)]
    · exact h₁
    · exact fun h => absurd h h₂
    · exact fun _ h => absurd h h₂
    · exact fun _ _ h => absurd h h₂

theorem ofNat_ne_nul (h₀ : 0 < n) (hn : n < 0xD800) : Char.ofNat n ≠ '\x00' := by
  intro h
  have := congrArg Char.toNat h
  rw [Char.ofNat, dif_pos (.inl hn)] at this
  exact Nat.ne_of_gt h₀ this

theorem hexDigit_lt (h : hexDigit c = some n) : n < 16 := by
  simp only [hexDigit, Char.le_def, UInt32.le_iff_toNat_le] at h
  change (if '0'.toNat ≤ c.toNat ∧ c.toNat ≤ '9'.toNat then _ else
    if 'A'.toNat ≤ c.toNat ∧ c.toNat ≤ 'F'.toNat then _ else
    if 'a'.toNat ≤ c.toNat ∧ c.toNat ≤ 'f'.toNat then _ else _) = _ at h
  simp only [Char.reduceToNat] at h
  grind

theorem parseHex4_lt (s : CStr) : parseHex4 s < 0x10000 := by
  have h₀ : 0 < 0x10000 := by decide
  rw [parseHex4.eq_def]
  split
  case h_2 => exact h₀
  case h_1 a b c d _ =>
    cases ha : hexDigit a
    case none => exact h₀
    case some a =>
      cases hb : hexDigit b
      case none => exact h₀
      case some b =>
        cases hc : hexDigit c
        case none => exact h₀
        case some c =>
          cases hd : hexDigit d
          case none => exact h₀
          case some d =>
            have := hexDigit_lt ha
            have := hexDigit_lt hb
            have := hexDigit_lt hc
            have := hexDigit_lt hd
            simp only [bind, Option.bind_some, pure, Option.getD_some, Nat.shiftLeft_eq]
            omega

-- Four digits behind "\u" are read whatever is behind them.
theorem exists_digits (h : wholeEscapes true ('\\' :: 'u' :: s)) :
    ∃ w t, s = w ++ t ∧ w.length = 4 ∧ (∀ c ∈ w, (hexDigit c).isSome) ∧ wholeEscapes true t := by
  simp only [wholeEscapes, Bool.and_eq_true, decide_eq_true_eq, List.all_eq_true] at h
  obtain ⟨⟨hl, hd⟩, h⟩ := h
  refine ⟨s.take 4, s.drop 4, (List.take_append_drop 4 s).symm, by simp [hl], hd, ?_⟩
  rwa [← List.take_append_drop 4 s,
    wholeEscapes_append fun c hc => plain_of_hexDigit (hd c hc)] at h

theorem not_mem_utf8 (h₀ : 0 < uc) (hn : uc < 0x110000) : '\x00' ∉ utf8 uc := by
  have htail (n : ℕ) : '\x00' ≠ Char.ofNat ((n ||| 0x80) &&& 0xBF) := by
    rw [or_and_tail]
    exact (ofNat_ne_nul (by omega) (by omega)).symm
  have hhead (n k : ℕ) (hn : n < 0x80) (hk : k < 0x100) (h₀ : 0 < n ||| k) :
      '\x00' ≠ Char.ofNat (n ||| k) := by
    have : n ||| k < 2 ^ 8 := Nat.or_lt_two_pow (by omega) (by omega)
    exact (ofNat_ne_nul h₀ (by omega)).symm
  have hshift (n : ℕ) : n >>> 6 = n / 64 := Nat.shiftRight_eq_div_pow n 6
  have hpos (n k : ℕ) (hk : 0 < k) : 0 < n ||| k := Nat.lt_of_lt_of_le hk Nat.right_le_or
  rw [utf8, utf8Len]
  split
  case isTrue =>
    simp only [utf8Fill, firstByteMark, Nat.or_zero, List.mem_singleton]
    exact (ofNat_ne_nul h₀ (by omega)).symm
  case isFalse =>
    split
    case isTrue =>
      simp only [utf8Fill, firstByteMark, hshift, List.mem_cons, htail, List.not_mem_nil, or_false]
      exact hhead _ _ (by omega) (by decide) (hpos _ _ (by decide))
    case isFalse =>
      split <;>
        · simp only [utf8Fill, firstByteMark, hshift, List.mem_cons, htail, List.not_mem_nil,
            or_false]
          exact hhead _ _ (by omega) (by decide) (hpos _ _ (by decide))

theorem length_utf8 (uc : ℕ) : (utf8 uc).length ≤ 4 := by
  rw [utf8, utf8Len]
  split
  case isTrue  => exact Nat.le_of_ble_eq_true rfl
  case isFalse =>
    split
    case isTrue  => exact Nat.le_of_ble_eq_true rfl
    case isFalse =>
      split
      case isTrue  => exact Nat.le_of_ble_eq_true rfl
      case isFalse => exact Nat.le_of_ble_eq_true rfl

-- What is put together from two surrogates.
theorem surrogates_lt (x y : ℕ) : ((x &&& 0x3FF) <<< 10) ||| (y &&& 0x3FF) < 2 ^ 20 := by
  have hx : x &&& 0x3FF ≤ 0x3FF := Nat.and_le_right
  have hy : y &&& 0x3FF ≤ 0x3FF := Nat.and_le_right
  refine Nat.or_lt_two_pow ?_ (by omega)
  rw [Nat.shiftLeft_eq]
  omega

-- Behind "\u" one or two units are read.
theorem exists_writes_utf16 (hd : ∀ c ∈ ptr, (hexDigit c).isSome) (hl : ptr.length = 4)
    (h : wholeEscapes true s) : ∃ p w t, '\\' :: 'u' :: (ptr ++ s) = p ++ t ∧ Writes p w t ∧
      '\x00' ∉ w ∧ wholeEscapes true t := by
  have h₄ : advance 4 (ptr ++ s) = some s := advance_append hl
  have hdrop : (ptr ++ s).drop 4 = s := List.drop_left' hl
  have hlt := parseHex4_lt (ptr ++ s)
  -- One unit
  have hone {w : CStr} (hu : utf16 (ptr ++ s) = some (w, s)) (hw : w.length ≤ 4)
      (h₀ : '\x00' ∉ w) : ∃ p w t, '\\' :: 'u' :: (ptr ++ s) = p ++ t ∧ Writes p w t ∧
        '\x00' ∉ w ∧ wholeEscapes true t :=
    ⟨_, w, s, rfl, writes_utf16 hd hu (by omega), h₀, h⟩
  have hnil := List.not_mem_nil (a := '\x00')
  by_cases hz : 0xDC00 ≤ parseHex4 (ptr ++ s) ∧ parseHex4 (ptr ++ s) ≤ 0xDFFF ∨
      parseHex4 (ptr ++ s) = 0
  case pos =>
    refine hone (w := []) ?_ (Nat.zero_le _) hnil
    rw [utf16, if_pos hz, h₄]
    rfl
  case neg =>
    by_cases hs : 0xD800 ≤ parseHex4 (ptr ++ s) ∧ parseHex4 (ptr ++ s) ≤ 0xDBFF
    case neg =>
      refine hone (w := utf8 (parseHex4 (ptr ++ s))) ?_ (length_utf8 _)
        (not_mem_utf8 (by omega) (by omega))
      rw [utf16, if_neg hz, if_neg hs, h₄]
      rfl
    case pos =>
      by_cases hp : ∃ s', s = '\\' :: 'u' :: s'
      case neg =>
        refine hone (w := []) ?_ (Nat.zero_le _) hnil
        rw [utf16, if_neg hz, if_pos hs, hdrop, h₄]
        split
        case h_1 s' => exact absurd ⟨s', rfl⟩ hp
        case h_2 => rfl
      case pos =>
        obtain ⟨s', rfl⟩ := hp
        obtain ⟨ptr', t, rfl, hl', hd', ht⟩ := exists_digits h
        have heq : ptr ++ '\\' :: 'u' :: (ptr' ++ t) = ptr ++ '\\' :: 'u' :: ptr' ++ t := by simp
        have h₁₀ : advance 10 (ptr ++ '\\' :: 'u' :: (ptr' ++ t)) = some t := by
          rw [heq]
          exact advance_append (by simp [hl, hl'])
        have hlt' := parseHex4_lt (ptr' ++ t)
        have hpair {w : CStr} (hu : utf16 (ptr ++ '\\' :: 'u' :: (ptr' ++ t)) = some (w, t))
            (hw : w.length ≤ 4) (h₀ : '\x00' ∉ w) : ∃ p w t', '\\' :: 'u' ::
              (ptr ++ '\\' :: 'u' :: (ptr' ++ t)) = p ++ t' ∧ Writes p w t' ∧ '\x00' ∉ w ∧
              wholeEscapes true t' :=
          ⟨_, w, t, by rw [heq]; rfl, writes_pair hd hd' (heq ▸ hu) (by omega), h₀, ht⟩
        by_cases hu : parseHex4 (ptr' ++ t) < 0xDC00 ∨ 0xDFFF < parseHex4 (ptr' ++ t)
        case pos =>
          refine hpair (w := []) ?_ (Nat.zero_le _) hnil
          rw [utf16, if_neg hz, if_pos hs, hdrop, h₁₀]
          simp only [if_pos hu]
          rfl
        case neg =>
          have := surrogates_lt (parseHex4 (ptr ++ '\\' :: 'u' :: (ptr' ++ t)))
            (parseHex4 (ptr' ++ t))
          generalize huc : ((parseHex4 (ptr ++ '\\' :: 'u' :: (ptr' ++ t)) &&& 0x3FF) <<< 10) |||
            (parseHex4 (ptr' ++ t) &&& 0x3FF) = uc at this
          refine hpair (w := utf8 (0x10000 + uc)) ?_ (length_utf8 _)
            (not_mem_utf8 (by omega) (by omega))
          rw [utf16, if_neg hz, if_pos hs, hdrop, h₁₀]
          simp only [if_neg hu, huc]
          rfl

theorem escape_of_ne (hc : c ≠ 'u') (h₀ : c ≠ '\x00') :
    ∃ x, escape c s = some ([x], s) ∧ x ≠ '\x00' := by
  rw [escape.eq_def]
  split
  case h_6 => exact absurd rfl hc
  case h_7 => exact ⟨c, rfl, h₀⟩
  all_goals exact ⟨_, rfl, by decide⟩

-- The next piece of a string
theorem exists_writes (h : wholeEscapes true ptr) (h₀ : '\x00' ∉ ptr) :
    ptr = [] ∨ (∃ rest, ptr = '"' :: rest ∧ wholeEscapes false rest) ∨
      ∃ p w s, ptr = p ++ s ∧ Writes p w s ∧ '\x00' ∉ w ∧ wholeEscapes true s := by
  match ptr with
  | [] => exact .inl rfl
  | c :: s =>
    by_cases h₁ : c = '"'
    case pos =>
      subst h₁
      exact .inr (.inl ⟨s, rfl, h⟩)
    case neg =>
      by_cases h₂ : c = '\\'
      case neg =>
        have hs : wholeEscapes true ([c] ++ s) = wholeEscapes true s :=
          wholeEscapes_append (by simp [h₁, h₂])
        refine .inr (.inr ⟨[c], [c], s, rfl, writes_plain h₁ h₂, ?_, by rwa [← hs]⟩)
        simp only [List.mem_singleton]
        rintro rfl
        exact h₀ List.mem_cons_self
      case pos =>
        subst h₂
        match s with
        | [] => exact absurd h Bool.false_ne_true
        | x :: s =>
          by_cases hu : x = 'u'
          case pos =>
            subst hu
            obtain ⟨ptr', t, rfl, hl, hd, ht⟩ := exists_digits h
            exact .inr (.inr (exists_writes_utf16 hd hl ht))
          case neg =>
            have hx : x ≠ '\x00' := by
              rintro rfl
              exact h₀ (by simp)
            have ⟨y, he, hy⟩ := escape_of_ne (s := s) hu hx
            have hs : wholeEscapes true ('\\' :: x :: s) = wholeEscapes true s := by
              rw [wholeEscapes]
              exact hu
            refine .inr (.inr ⟨_, [y], s, rfl, writes_escape he (Nat.le_refl _), ?_, hs ▸ h⟩)
            simpa using hy.symm

-- From the inside of a string on a text is read without an access outside of it.
theorem exists_body (h : wholeEscapes true ptr) (h₀ : '\x00' ∉ ptr) :
    ∃ out rest, Body ptr out rest ∧ '\x00' ∉ out ∧ rest <:+ ptr ∧ wholeEscapes false rest := by
  generalize hn : ptr.length = n
  induction n using Nat.strong_induction_on generalizing ptr
  case h n hi =>
    rcases exists_writes h h₀ with rfl | ⟨rest, rfl, hr⟩ | ⟨p, w, s, rfl, hw, hw₀, hs⟩
    · exact ⟨[], [], .nil, List.not_mem_nil, List.suffix_refl _, rfl⟩
    · exact ⟨[], rest, .close, List.not_mem_nil, List.suffix_cons _ _, hr⟩
    · have hpos := hw.pos
      rw [List.length_append] at hn
      have ⟨out, rest, hb, ho, hsuf, hr⟩ := hi _ (by omega) hs
        (fun hc => h₀ (List.mem_append_right _ hc)) rfl
      refine ⟨_, rest, hb.append hw, ?_, hsuf.trans (List.suffix_append _ _), hr⟩
      simp [hw₀, ho]

theorem parseString_sound {str : CStr} (h : wholeEscapes false str) (h₀ : '\x00' ∉ str)
    (hn : str.length < 2 ^ 31) :
    (parseString str).Sound fun out rest =>
      '\x00' ∉ out ∧ rest <:+ str ∧ rest.length < str.length ∧ wholeEscapes false rest := by
  match str with
  | [] => trivial
  | c :: ptr =>
    by_cases hc : c = '"'
    case neg =>
      rw [parseString]
      · trivial
      · exact fun _ hq => hc (List.cons.inj hq).left
    case pos =>
      subst hc
      obtain ⟨out, rest, hb, ho, hsuf, hr⟩ := exists_body h fun hm => h₀ (List.mem_cons_of_mem _ hm)
      rw [List.length_cons] at hn
      rw [hb.parseString (by omega)]
      exact ⟨ho, hsuf.trans (List.suffix_cons _ _), Nat.lt_succ_of_le hsuf.length_le, hr⟩

-- Where the digits are missing the second loop goes on behind the closing quote, and writes to its
-- block what it finds there.
theorem parseString_fault_iff (hs : ∀ c ∈ s, c ≠ '"' ∧ c ≠ '\\') :
    parseString ('"' :: '\\' :: 'u' :: '"' :: s) = .fault ↔ s.length < 3 ∨ 4 < s.length := by
  have hb (w : CStr) (hw : ∀ c ∈ w, c ≠ '"' ∧ c ≠ '\\') : Body w w [] := by
    have := Body.nil.flatMap (f := fun c => [c]) (g := fun c => [c]) (l := w) fun c hc s =>
      writes_plain (hw c hc).left (hw c hc).right
    simpa using this
  have hl : stringLen ('\\' :: 'u' :: '"' :: s) = some 1 := rfl
  have hp : parseHex4 ('"' :: s) = 0 := by
    match s with
    | [] | [_] | [_, _] => rfl
    | _ :: _ :: _ :: _ => rfl
  have hu : utf16 ('"' :: s) = (advance 4 ('"' :: s)).map fun t => ([], t) := by
    rw [utf16, hp]
    cases advance 4 ('"' :: s) <;> rfl
  rw [parseString, hl, unescape_escape, escape, hu, advance]
  by_cases h : s.length < 3
  case pos => simp [h, show ¬3 ≤ s.length by omega]
  case neg =>
    rw [if_pos (by simp; omega), Option.map_some, Option.bind_some, List.drop_succ_cons,
      (hb (s.drop 3) fun c hc => hs c (List.mem_of_mem_drop hc)).unescape _ (by simp; omega)]
    simp only [Option.map_some, List.nil_append, List.length_drop]
    split <;> simp <;> omega

theorem parseString_fault_iff_empty : parseString ['"', '\\', 'u', '"'] = .fault :=
  (parseString_fault_iff (s := []) fun _ hc => absurd hc List.not_mem_nil).mpr
    (.inl (Nat.succ_pos 2))

end Safety

end JsonText
