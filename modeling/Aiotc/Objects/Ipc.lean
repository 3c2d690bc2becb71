import Aiotc.Pids.MsgKey
import Aiotc.Shm.Layout

-- misc.cpp: the message queues that a former run of the program has left behind.

namespace Ipc

-- The parts of the C library that are used, for texts of ASCII characters.

def isspace (c : Char) : Bool :=
  c ∈ [' ', '\t', '\n', Char.ofNat 11, Char.ofNat 12, '\r']

def digits (s : List Char) : Int :=
  Nat.ofDigitChars 10 (s.takeWhile Char.isDigit) 0

def strtol (s : List Char) : Int :=
  clamp <| match s.dropWhile isspace with
    | '-' :: s => -digits s
    | '+' :: s => digits s
    | s        => digits s
where
  clamp (x : Int) : Int := max (-2 ^ 63) (min x (2 ^ 63 - 1))

def atoi (s : List Char) : Int :=
  wrap32 (strtol s)

-- The line that is read, of at most `n` characters, and the rest of the file.
def fgets : ℕ → List Char → List Char × List Char
  | 0, file          => ([], file)
  | _, []            => ([], [])
  | n + 1, c :: file =>
    if c = '\n' then
      ([c], file)
    else
      let (line, file) := fgets n file
      (c :: line, file)

def checkMsgKey (keyStr : List Char) (cfg : ConfigParams) : Bool :=
  let tmp := strtol keyStr - cfg.msgKeyStart
  tmp ≥ 0 ∧ tmp ≤ cfg.msgKeyMax

def checkIsNumStr (str : List Char) : Bool :=
  str.length ≠ 0 ∧ str.all Char.isDigit

-- The text that starts at the index.
def strAt (buffer : List Char) (i : ℕ) : List Char :=
  (buffer.drop i).takeWhile (· ≠ '\x00')

structure Tokens where
  buffer : List Char
  keyStr : Option ℕ
  idStr : Option ℕ

-- The loop of `dealBuffer`. `done` is the buffer up to `p` as the loop has changed it, the last
-- argument the buffer from `p` on. `keyStr` and `idStr` are indices.
def scan (done : List Char) (preflag : Bool) (keyStr idStr : Option ℕ) : List Char → Tokens
  | []        => ⟨done, keyStr, idStr⟩
  | c :: rest =>
    if c = '\x00' ∨ c = '\n' then
      ⟨done ++ c :: rest, keyStr, idStr⟩
    else if ¬c.isAlphanum then
      if preflag then
        let buffer := done ++ '\x00' :: rest
        match keyStr, idStr with
        | some k, _    =>
          if checkIsNumStr (strAt buffer k) then
            scan (done ++ ['\x00']) false keyStr idStr rest
          else
            ⟨buffer, none, idStr⟩
        | none, some i => ⟨buffer, none, if checkIsNumStr (strAt buffer i) then some i else none⟩
        | none, none   => scan (done ++ ['\x00']) false none none rest
      else
        scan (done ++ [c]) false keyStr idStr rest
    else if preflag then
      scan (done ++ [c]) true keyStr idStr rest
    else
      match keyStr, idStr with
      | none, _        => scan (done ++ [c]) true (some done.length) idStr rest
      | some _, none   => scan (done ++ [c]) true keyStr (some done.length) rest
      | some _, some _ => scan (done ++ [c]) true keyStr idStr rest

-- The id that is passed to `msgctl`, if any.
def dealBuffer (cfg : ConfigParams) (buffer : List Char) : Option Int :=
  let s := scan [] false none none buffer
  match s.keyStr, s.idStr with
  | some k, some i =>
    if checkMsgKey (strAt s.buffer k) cfg then some (atoi (strAt s.buffer i)) else none
  | _, _           => none

theorem length_fgets (n : ℕ) (file : List Char) : (fgets n file).2.length ≤ file.length := by
  induction n, file using fgets.induct <;> grind [fgets]

-- What is removed for each line that is read.
def clearSystemIpc (cfg : ConfigParams) : List Char → List (Option Int)
  | []        => []
  | c :: file =>
    let line := fgets 1022 (c :: file)
    dealBuffer cfg (line.1 ++ ['\x00']) :: clearSystemIpc cfg line.2
termination_by file => file.length
decreasing_by
  have := length_fgets 1021 file
  grind [fgets]

section Scan

variable {done done' xs rest : List Char} {keyStr idStr : Option ℕ} {c : Char} {k i : ℕ}

-- What the loop passes over.

theorem scan_blanks (h : ∀ c ∈ xs, c ≠ '\x00' ∧ c ≠ '\n' ∧ c.isAlphanum = false) :
    scan done false keyStr idStr (xs ++ rest) = scan (done ++ xs) false keyStr idStr rest := by
  induction xs generalizing done
  case nil          => simp
  case cons c xs hi =>
    have ⟨hz, hn, ha⟩ := h c List.mem_cons_self
    simp [scan, hz, hn, ha, hi fun c hc => h c (List.mem_cons_of_mem _ hc)]

theorem scan_alnum (h : ∀ c ∈ xs, c.isAlphanum) :
    scan done true keyStr idStr (xs ++ rest) = scan (done ++ xs) true keyStr idStr rest := by
  induction xs generalizing done
  case nil          => simp
  case cons c xs hi =>
    have ha := h c List.mem_cons_self
    have hz : c ≠ '\x00' ∧ c ≠ '\n' := by
      constructor <;> rintro rfl <;> simp at ha
    simp [scan, hz, ha, hi fun c hc => h c (List.mem_cons_of_mem _ hc)]

-- Where a word starts.

theorem scan_keyStr (hx : xs ≠ []) (h : ∀ c ∈ xs, c.isAlphanum) :
    scan done false none none (xs ++ rest) =
      scan (done ++ xs) true (some done.length) none rest := by
  cases xs
  case nil       => contradiction
  case cons c xs =>
    have ha := h c List.mem_cons_self
    have hz : c ≠ '\x00' ∧ c ≠ '\n' := by
      constructor <;> rintro rfl <;> simp at ha
    simp [scan, hz, ha, scan_alnum fun c hc => h c (List.mem_cons_of_mem _ hc)]

theorem scan_idStr (hx : xs ≠ []) (h : ∀ c ∈ xs, c.isAlphanum) :
    scan done false (some k) none (xs ++ rest) =
      scan (done ++ xs) true (some k) (some done.length) rest := by
  cases xs
  case nil       => contradiction
  case cons c xs =>
    have ha := h c List.mem_cons_self
    have hz : c ≠ '\x00' ∧ c ≠ '\n' := by
      constructor <;> rintro rfl <;> simp at ha
    simp [scan, hz, ha, scan_alnum fun c hc => h c (List.mem_cons_of_mem _ hc)]

theorem strAt_append (h : ∀ c ∈ xs, c ≠ '\x00') :
    strAt (done ++ xs ++ rest) done.length = xs ++ rest.takeWhile (· ≠ '\x00') := by
  rw [strAt, List.append_assoc, List.drop_left, List.takeWhile_append_of_pos (by simpa using h)]

-- Where a word ends.
theorem scan_cut (hc : c ≠ '\x00' ∧ c ≠ '\n' ∧ c.isAlphanum = false)
    (h : ∀ c ∈ xs, c ≠ '\x00') :
    scan (done ++ xs) true (some done.length) idStr (c :: rest) =
      if checkIsNumStr xs then
        scan (done ++ xs ++ ['\x00']) false (some done.length) idStr rest
      else
        ⟨done ++ xs ++ '\x00' :: rest, none, idStr⟩ := by
  have ⟨hz, hn, ha⟩ := hc
  have hs : strAt (done ++ xs ++ '\x00' :: rest) done.length = xs := by
    rw [strAt_append h]
    simp
  simp only [List.append_assoc] at hs
  simp [scan, hz, hn, ha, hs]

-- What the loop leaves of the characters that it passes.
def Cut : List Char → List Char → Prop :=
  List.Forall₂ fun c c' => c' = c ∨ (c' = '\x00' ∧ c.isAlphanum = false)

theorem Cut.refl (xs : List Char) : Cut xs xs :=
  List.forall₂_same.mpr fun _ _ => .inl rfl

theorem Cut.head? {rest' : List Char} (h : Cut rest rest')
    (hr : ∀ c ∈ rest.head?, c.isAlphanum = false) :
    ∀ c ∈ (rest'.takeWhile (· ≠ '\x00')).head?, c.isAlphanum = false := by
  cases h
  case nil         => simp
  case cons hc _ =>
    rcases hc with rfl | ⟨rfl, _⟩
    · intro c hc
      simp only [List.takeWhile_cons] at hc
      split at hc
      · exact hr c hc
      · simp at hc
    · simp

-- Once both words have been found, the rest of the line changes nothing of them.
theorem scan_rest (hx : checkIsNumStr xs) (hz : ∀ c ∈ xs, c ≠ '\x00') (preflag : Bool) :
    ∃ rest', Cut rest rest' ∧
      scan (done ++ xs ++ '\x00' :: done') preflag (some done.length) (some i) rest =
        ⟨done ++ xs ++ '\x00' :: done' ++ rest', some done.length, some i⟩ := by
  induction rest generalizing done' preflag
  case nil            => exact ⟨[], .nil, by simp [scan]⟩
  case cons c rest hi =>
    have hs : strAt (done ++ xs ++ '\x00' :: (done' ++ '\x00' :: rest)) done.length = xs := by
      rw [strAt_append hz]
      simp
    by_cases hc : c = '\x00' ∨ c = '\n'
    case pos => exact ⟨c :: rest, .refl _, by simp [scan, hc]⟩
    case neg =>
      -- What the loop makes of `c`.
      have ⟨c', pf, hc', h⟩ : ∃ c' pf, (c' = c ∨ (c' = '\x00' ∧ c.isAlphanum = false)) ∧
          scan (done ++ xs ++ '\x00' :: done') preflag (some done.length) (some i) (c :: rest) =
            scan (done ++ xs ++ '\x00' :: (done' ++ [c'])) pf (some done.length) (some i) rest := by
        simp only [List.append_assoc] at hs
        cases ha : c.isAlphanum <;> cases preflag
        case false.false => exact ⟨c, false, .inl rfl, by simp [scan, hc, ha]⟩
        case false.true  => exact ⟨'\x00', false, .inr ⟨rfl, rfl⟩, by simp [scan, hc, ha, hs, hx]⟩
        all_goals exact ⟨c, true, .inl rfl, by simp [scan, hc, ha]⟩
      have ⟨rest', hr, hi⟩ := @hi (done' ++ [c']) pf
      exact ⟨c' :: rest', .cons hc' hr, by rw [h, hi]; simp⟩

end Scan

section Numbers

variable {xs rest : List Char} {n : ℕ}

theorem isAlphanum_of_isDigit {c : Char} (h : c.isDigit) : c.isAlphanum := by
  simp [Char.isAlphanum, h]

theorem isDigit_toDigits : ∀ c ∈ Nat.toDigits 10 n, c.isDigit :=
  fun _ hc => Nat.isDigit_of_mem_toDigits (by decide) (by decide) hc

theorem ne_nul_of_isAlphanum (h : ∀ c ∈ xs, c.isAlphanum) : ∀ c ∈ xs, c ≠ '\x00' := by
  rintro c hc rfl
  simpa using h _ hc

theorem checkIsNumStr_toDigits : checkIsNumStr (Nat.toDigits 10 n) := by
  simpa [checkIsNumStr] using fun c hc => isDigit_toDigits c hc

-- A number is read up to its last digit.
theorem strtol_toDigits (hr : ∀ c ∈ rest.head?, c.isAlphanum = false) (hn : n < 2 ^ 63) :
    strtol (Nat.toDigits 10 n ++ rest) = n := by
  have hd : digits (Nat.toDigits 10 n ++ rest) = n := by
    have ht : rest.takeWhile Char.isDigit = [] := by
      cases rest
      case nil       => rfl
      case cons c cs =>
        have hc := hr c rfl
        apply List.takeWhile_cons_of_neg
        intro hd
        simp [isAlphanum_of_isDigit hd] at hc
    rw [digits, List.takeWhile_append_of_pos isDigit_toDigits, ht, List.append_nil,
      Nat.ofDigitChars_ten_toDigits]
  have hc : strtol.clamp n = n := by
    simp only [strtol.clamp]
    omega
  have ⟨c, cs, hcs⟩ := List.exists_cons_of_ne_nil (@Nat.toDigits_ne_nil n 10)
  have h := isDigit_toDigits c (hcs ▸ List.mem_cons_self)
  have hw : isspace c = false := by
    by_contra hs
    simp only [isspace, List.mem_cons, List.not_mem_nil, or_false, Bool.not_eq_false,
      decide_eq_true_eq] at hs
    rcases hs with rfl | rfl | rfl | rfl | rfl | rfl <;> exact absurd h (by decide)
  rw [hcs, List.cons_append] at hd ⊢
  rw [strtol, List.dropWhile_cons_of_neg (by simp [hw])]
  split
  case h_1 he => cases he; exact absurd h (by decide)
  case h_2 he => cases he; exact absurd h (by decide)
  case h_3 => rw [hd, hc]

end Numbers

-- A line of /proc/sysvipc/msg. It is not longer than what `fgets` reads at once.
structure Row where
  key : Int
  id : ℕ
  pad : ℕ
  pad' : ℕ
  rest : List Char
  key_lt : -2 ^ 31 ≤ key ∧ key < 2 ^ 31
  id_lt : id < 2 ^ 31
  blank : rest = [] ∨ rest.head? = some ' '
  line : '\n' ∉ rest
  short : pad + pad' + rest.length < 1000

namespace Row

def sign (r : Row) : List Char :=
  if r.key < 0 then ['-'] else []

def text (r : Row) : List Char :=
  (List.replicate r.pad ' ' ++ r.sign) ++ Nat.toDigits 10 r.key.natAbs ++
    ' ' :: List.replicate r.pad' ' ' ++ Nat.toDigits 10 r.id ++ r.rest

variable {r : Row} {cfg : ConfigParams}

-- The line up to the id, as the loop leaves it.
def scanned (r : Row) : List Char :=
  (List.replicate r.pad ' ' ++ r.sign) ++ Nat.toDigits 10 r.key.natAbs ++
    '\x00' :: List.replicate r.pad' ' '

theorem blanks (n : ℕ) :
    ∀ c ∈ List.replicate n ' ', c ≠ '\x00' ∧ c ≠ '\n' ∧ c.isAlphanum = false := by
  intro c hc
  rw [List.eq_of_mem_replicate hc]
  decide

theorem blanks_sign :
    ∀ c ∈ List.replicate r.pad ' ' ++ r.sign, c ≠ '\x00' ∧ c ≠ '\n' ∧ c.isAlphanum = false := by
  intro c hc
  rcases List.mem_append.mp hc with hc | hc
  · exact blanks _ c hc
  · rw [sign] at hc
    split at hc
    · rw [List.mem_singleton.mp hc]
      decide
    · simp at hc

theorem head?_rest (r : Row) : ∀ c ∈ (r.rest ++ ['\n', '\x00']).head?, c.isAlphanum = false := by
  intro c hc
  rcases r.blank with hr | hr <;> simp [hr] at hc <;> subst hc <;> decide

theorem scan_text (r : Row) :
    ∃ rest', Cut (r.rest ++ ['\n', '\x00']) rest' ∧
      scan [] false none none (r.text ++ ['\n', '\x00']) =
        ⟨r.scanned ++ Nat.toDigits 10 r.id ++ rest',
          some (List.replicate r.pad ' ' ++ r.sign).length, some r.scanned.length⟩ := by
  have ha : ∀ n, ∀ c ∈ Nat.toDigits 10 n, c.isAlphanum := fun n c hc =>
    isAlphanum_of_isDigit (isDigit_toDigits c hc)
  have hz : ∀ n, ∀ c ∈ Nat.toDigits 10 n, c ≠ '\x00' := fun n => ne_nul_of_isAlphanum (ha n)
  have ⟨rest', hc, hr⟩ := @scan_rest (List.replicate r.pad ' ' ++ r.sign)
    (List.replicate r.pad' ' ' ++ Nat.toDigits 10 r.id) (Nat.toDigits 10 r.key.natAbs)
    (r.rest ++ ['\n', '\x00']) r.scanned.length checkIsNumStr_toDigits (hz _) true
  have hs : ∀ xs, r.scanned ++ Nat.toDigits 10 r.id ++ xs =
      List.replicate r.pad ' ' ++ r.sign ++ Nat.toDigits 10 r.key.natAbs ++
        '\x00' :: (List.replicate r.pad' ' ' ++ Nat.toDigits 10 r.id) ++ xs := by
    simp [scanned]
  have ht : scan [] false none none (r.text ++ ['\n', '\x00']) =
      scan (r.scanned ++ Nat.toDigits 10 r.id ++ []) true
        (some (List.replicate r.pad ' ' ++ r.sign).length) (some r.scanned.length)
        (r.rest ++ ['\n', '\x00']) := by
    simp only [text, List.append_assoc, List.cons_append]
    rw [← List.append_assoc, scan_blanks blanks_sign, scan_keyStr Nat.toDigits_ne_nil (ha _),
      scan_cut (by decide) (hz _), if_pos checkIsNumStr_toDigits, scan_blanks (blanks _),
      scan_idStr Nat.toDigits_ne_nil (ha _)]
    simp [scanned]
  exact ⟨rest', hc, by rw [ht, hs, List.append_nil, hr, hs]⟩

-- The sign is no part of what is checked.
theorem dealBuffer_text (r : Row) :
    dealBuffer cfg (r.text ++ ['\n', '\x00']) =
      if cfg.msgKeyStart ≤ r.key.natAbs ∧ r.key.natAbs ≤ cfg.msgKeyStart + cfg.msgKeyMax then
        some (r.id : Int)
      else
        none := by
  have ⟨rest', hc, hs⟩ := r.scan_text
  have ha : ∀ n, ∀ c ∈ Nat.toDigits 10 n, c.isAlphanum := fun n c hc =>
    isAlphanum_of_isDigit (isDigit_toDigits c hc)
  have hz : ∀ n, ∀ c ∈ Nat.toDigits 10 n, c ≠ '\x00' := fun n => ne_nul_of_isAlphanum (ha n)
  have hk : strtol (strAt (r.scanned ++ Nat.toDigits 10 r.id ++ rest')
      (List.replicate r.pad ' ' ++ r.sign).length) = r.key.natAbs := by
    have hb : r.scanned ++ Nat.toDigits 10 r.id ++ rest' =
        List.replicate r.pad ' ' ++ r.sign ++ Nat.toDigits 10 r.key.natAbs ++
          '\x00' :: (List.replicate r.pad' ' ' ++ Nat.toDigits 10 r.id ++ rest') := by
      simp [scanned]
    have hl := r.key_lt
    rw [hb, strAt_append (hz _), strtol_toDigits (by simp) (by omega)]
  have hi : atoi (strAt (r.scanned ++ Nat.toDigits 10 r.id ++ rest') r.scanned.length) = r.id := by
    have hl := r.id_lt
    rw [strAt_append (hz _), atoi, strtol_toDigits (hc.head? r.head?_rest) (by omega),
      Shm.Layout.wrap32_of_lt (by omega) (by omega)]
  simp only [dealBuffer, hs, checkMsgKey, hk, hi, decide_eq_true_eq]
  apply if_congr _ rfl rfl
  omega

theorem not_mem_text (r : Row) : '\n' ∉ r.text := by
  have hd : ∀ n, '\n' ∉ Nat.toDigits 10 n := fun n h => absurd (isDigit_toDigits _ h) (by decide)
  have hf : '\n' ∉ List.replicate r.pad ' ' ++ r.sign := fun h => (blanks_sign _ h).right.left rfl
  simp only [text, List.mem_append, List.mem_cons, not_or, List.mem_replicate] at hf ⊢
  exact ⟨⟨⟨⟨hf, hd _⟩, by decide, by simp⟩, hd _⟩, r.line⟩

theorem length_text (r : Row) : r.text.length < 1022 := by
  have hk := r.key_lt
  have hi := r.id_lt
  have hl := r.short
  have h₁ : (Nat.toDigits 10 r.key.natAbs).length ≤ 10 :=
    (Nat.length_toDigits_le_iff (by decide) (by decide)).mpr (by omega)
  have h₂ : (Nat.toDigits 10 r.id).length ≤ 10 :=
    (Nat.length_toDigits_le_iff (by decide) (by decide)).mpr (by omega)
  have h₃ : r.sign.length ≤ 1 := by
    rw [sign]
    split <;> simp
  simp only [text, List.length_append, List.length_replicate, List.length_cons]
  omega

end Row

-- The first line of the file, which names the columns.
structure Header where
  pad : ℕ
  word : List Char
  rest : List Char
  alnum : ∀ c ∈ word, c.isAlphanum
  letter : ∃ c ∈ word, c.isDigit = false
  blank : rest.head? = some ' '
  line : '\n' ∉ rest
  short : pad + word.length + rest.length < 1022

namespace Header

def text (h : Header) : List Char :=
  List.replicate h.pad ' ' ++ h.word ++ h.rest

theorem dealBuffer_text {cfg : ConfigParams} (h : Header) :
    dealBuffer cfg (h.text ++ ['\n', '\x00']) = none := by
  have ⟨c, hc, hd⟩ := h.letter
  have ⟨rest, hr⟩ := List.head?_eq_some_iff.mp h.blank
  have hn : checkIsNumStr h.word = false := by
    simp only [checkIsNumStr, decide_eq_false_iff_not, not_and, Bool.not_eq_true]
    intro _
    exact List.all_eq_false.mpr ⟨c, hc, by simp [hd]⟩
  simp only [dealBuffer, text, hr, List.append_assoc, List.cons_append]
  rw [scan_blanks (Row.blanks _), scan_keyStr (List.ne_nil_of_mem hc) h.alnum,
    scan_cut (by decide) (ne_nul_of_isAlphanum h.alnum), hn]
  rfl

theorem not_mem_text (h : Header) : '\n' ∉ h.text := by
  have hw : '\n' ∉ h.word := fun hm => absurd (h.alnum _ hm) (by decide)
  simp [text, hw, h.line]

theorem length_text (h : Header) : h.text.length < 1022 := by
  have hl := h.short
  simp only [text, List.length_append, List.length_replicate]
  omega

end Header

section File

variable {cfg : ConfigParams} {xs file : List Char} {n : ℕ} {key : Int}

theorem fgets_line (h : '\n' ∉ xs) (hl : xs.length < n) :
    fgets n (xs ++ '\n' :: file) = (xs ++ ['\n'], file) := by
  induction xs generalizing n
  case nil =>
    cases n
    case zero   => simp at hl
    case succ n => simp [fgets]
  case cons c xs hi =>
    cases n
    case zero   => simp at hl
    case succ n =>
      have ⟨hc, hx⟩ := not_or.mp (mt List.mem_cons.mpr h)
      simp [fgets, Ne.symm hc, hi hx (Nat.lt_of_succ_lt_succ hl)]

theorem clearSystemIpc_line (h : '\n' ∉ xs) (hl : xs.length < 1022) :
    clearSystemIpc cfg (xs ++ '\n' :: file) =
      dealBuffer cfg (xs ++ ['\n', '\x00']) :: clearSystemIpc cfg file := by
  have hf : fgets _ (xs ++ '\n' :: file) = _ := fgets_line h hl
  cases hx : xs ++ '\n' :: file
  case nil => simp at hx
  case cons c cs =>
    rw [clearSystemIpc, ← hx, hf]
    simp

-- The content of the file.
def content (header : Header) (rows : List Row) : List Char :=
  header.text ++ '\n' :: rows.flatMap fun r => r.text ++ ['\n']

-- A key the program can use: the one of main, and those that `getMsgKey` can return.
def Usable (cfg : ConfigParams) (key : Int) : Prop :=
  key = cfg.msgKeyStart ∨ key ∈ Pids.msgKeys cfg

instance : Decidable (Usable cfg key) :=
  inferInstanceAs (Decidable (_ ∨ _))

theorem clearSystemIpc_content (header : Header) (rows : List Row) :
    clearSystemIpc cfg (content header rows) =
      none :: rows.map fun r => dealBuffer cfg (r.text ++ ['\n', '\x00']) := by
  rw [content, clearSystemIpc_line header.not_mem_text header.length_text, header.dealBuffer_text]
  congr 1
  induction rows
  case nil          => rw [List.flatMap_nil, clearSystemIpc, List.map_nil]
  case cons r rs hi =>
    rw [List.flatMap_cons, List.append_assoc, List.singleton_append,
      clearSystemIpc_line r.not_mem_text r.length_text, hi, List.map_cons]

-- For each line of a queue that the program can use its id, and for no other line.
def Clears (cfg : ConfigParams) (header : Header) (rows : List Row) : Prop :=
  clearSystemIpc cfg (content header rows) =
    none :: rows.map fun r => if Usable cfg r.key then some (r.id : Int) else none

-- `checkMsgKey` is right about a key: it is not the one that follows the last one of the program,
-- and if it is negative the number without its sign says the same.
structure Told (cfg : ConfigParams) (key : Int) : Prop where
  last  : 0 ≤ key → 0 < cfg.msgKeyMax → key ≠ cfg.msgKeyStart + cfg.msgKeyMax
  start : 0 ≤ key → cfg.msgKeyMax < 0 → key ≠ cfg.msgKeyStart
  sign  : key < 0 →
    (cfg.msgKeyStart ≤ -key ∧ -key ≤ cfg.msgKeyStart + cfg.msgKeyMax ↔ Usable cfg key)

theorem told_iff :
    Told cfg key ↔
      (cfg.msgKeyStart ≤ key.natAbs ∧ key.natAbs ≤ cfg.msgKeyStart + cfg.msgKeyMax ↔
        Usable cfg key) := by
  by_cases h : 0 ≤ key
  case pos =>
    have hk : (key.natAbs : Int) = key := Int.natAbs_of_nonneg h
    rw [hk, Usable, Pids.mem_msgKeys]
    constructor
    case mp =>
      intro ⟨hl, hs, _⟩
      have hl := hl h
      have hs := hs h
      omega
    case mpr =>
      intro hu
      exact ⟨fun _ _ => by omega, fun _ _ => by omega, fun _ => by omega⟩
  case neg =>
    have hk : (key.natAbs : Int) = -key := Int.ofNat_natAbs_of_nonpos (by omega)
    rw [hk]
    constructor
    case mp =>
      intro ⟨_, _, hs⟩
      exact hs (by omega)
    case mpr =>
      intro hu
      exact ⟨fun _ => by omega, fun _ => by omega, fun _ => hu⟩

-- With positive settings no negative key can be used.
theorem told_iff_of_pos (hs : 0 < cfg.msgKeyStart) (hm : 0 < cfg.msgKeyMax) :
    Told cfg key ↔
      key ≠ cfg.msgKeyStart + cfg.msgKeyMax ∧
        ¬(cfg.msgKeyStart ≤ -key ∧ -key ≤ cfg.msgKeyStart + cfg.msgKeyMax) := by
  rw [told_iff, Usable, Pids.mem_msgKeys]
  omega

theorem clears_iff (header : Header) (rows : List Row) :
    Clears cfg header rows ↔ ∀ r ∈ rows, Told cfg r.key := by
  rw [Clears, clearSystemIpc_content, List.cons_inj_right, List.map_inj_left]
  apply forall₂_congr
  intro r _
  rw [r.dealBuffer_text, told_iff]
  by_cases hu : Usable cfg r.key <;> simp [hu]

section

-- The columns of /proc/sysvipc/msg.
def columns : Header where
  pad := 7
  word := "key".toList
  rest := ("      msqid perms      cbytes       qnum lspid lrpid   uid   gid  cuid  cgid" ++
    "      stime      rtime      ctime").toList
  alnum := List.all_eq_true.mp (by decide)
  letter := ⟨'k', by decide⟩
  blank := by decide
  line := by decide
  short := by decide

-- A queue of another application whose key is the negative of one of the program's.
def foreign : Row where
  key := -1050
  id := 7
  pad := 5
  pad' := 9
  rest := "   666           0          0 0 0 0 0 0 0 0 0 0".toList
  key_lt := by decide
  id_lt := by decide
  blank := by decide
  line := by decide
  short := by decide

theorem not_clears : ¬∀ cfg header rows, Clears cfg header rows := by
  intro h
  let cfg : ConfigParams := ⟨0, 100, 100, 1000, 100⟩
  have h := h cfg columns [foreign]
  rw [Clears, clearSystemIpc_content, List.cons_inj_right, List.map_inj_left] at h
  have h := h foreign List.mem_cons_self
  rw [Row.dealBuffer_text] at h
  exact absurd h (by decide)

end

end File

end Ipc
