import Aiotc.Shm.Layout

-- The buffers whose size is a text's length rounded to whole KiB: in share.cpp, work.cpp and
-- db.cpp.

namespace Share.Buffers

def PTRDIFF_MAX : ℕ :=
  2 ^ 63 - 1

-- What `size_t` makes of a number.
def sizeT (x : Int) : ℕ :=
  (x % 2 ^ 64).toNat

-- A text in the memory of a process, whose addresses have 47 bits.
structure Str where
  chars : List UInt8
  lt : chars.length < 2 ^ 47

structure File where
  bytes : List UInt8
  lt : bytes.length < 2 ^ 63

-- A buffer of `size` bytes into which `text` is put, to be followed by its NUL. Nothing is put into
-- a buffer that the allocator refuses as too large.
structure Filled where
  size : ℕ
  text : List UInt8

def Fits (b : Filled) : Prop :=
  PTRDIFF_MAX < b.size ∨ b.text.length + 1 ≤ b.size

def rounded (n : ℕ) : ℕ :=
  n / 1024 * 1024 + 1024

-- The text is copied by `strncpy`, with the `int` that the size was put into.
def copied (len : Int) (s : Str) : Filled where
  size := sizeT len
  text := s.chars.take (sizeT len)

def getStrValFromJson (valTmp : Str) : Filled :=
  copied (wrap32 (rounded (valTmp.chars.length + 1))) valTmp

def copyToMqQueue (json : Str) : Filled :=
  copied (wrap32 (rounded json.chars.length)) json

def readFile2Buf (fp : File) : Filled :=
  let cfgSize := wrap32 fp.bytes.length
  { size := sizeT (wrap32 (cfgSize.tdiv 1024 * 1024 + 1024))
    text := fp.bytes.take (sizeT cfgSize) }

-- {"name":json}
def sprintf (name json : List UInt8) : List UInt8 :=
  [0x7b, 0x22] ++ name ++ [0x22, 0x3a] ++ json ++ [0x7d]

def dbWrite (name json : Str) : Filled where
  size := rounded (json.chars.length + name.chars.length + 1)
  text := sprintf name.chars json.chars

-- `getStr` and `mqQueue` are given any text, `file` any file.
structure AllFit (name json text : Str) (fp : File) : Prop where
  getStr  : Fits (getStrValFromJson text)
  file    : Fits (readFile2Buf fp)
  mqQueue : Fits (copyToMqQueue text)
  dbWrite : Fits (dbWrite name json)

-- The `int` holds the rounded length, or is negative.
def Kept (n : ℕ) : Prop :=
  n < 2 ^ 32 - 1024 ∨ 2 ^ 31 ≤ (n + 1024) % 2 ^ 32

variable {name json text s : Str} {fp : File} {n : ℕ} {x : Int}

theorem wrap32_range (x : Int) : -2 ^ 31 ≤ wrap32 x ∧ wrap32 x < 2 ^ 31 := by
  simp only [wrap32, Int.bmod]
  omega

theorem sizeT_of_nonneg (h : 0 ≤ x) (hx : x < 2 ^ 63) : (sizeT x : Int) = x := by
  simp only [sizeT]
  omega

theorem ptrdiff_lt_sizeT (h : x < 0) (hx : -2 ^ 31 ≤ x) : PTRDIFF_MAX < sizeT x := by
  simp only [sizeT, PTRDIFF_MAX]
  omega

theorem fits_copied (h : -2 ^ 31 ≤ x ∧ x < 2 ^ 31) :
    Fits (copied x s) ↔ x < 0 ∨ s.chars.length < x := by
  by_cases hx : x < 0
  case pos => simp [Fits, copied, hx, ptrdiff_lt_sizeT hx h.left]
  case neg =>
    have hs := sizeT_of_nonneg (x := x) (by omega) (by omega)
    simp only [Fits, copied, PTRDIFF_MAX, List.length_take]
    omega

-- Rounding leaves room for a NUL, as long as the number does not leave its type.
theorem wrap32_rounded (h : s.chars.length ≤ n) (hn : n ≤ s.chars.length + 1) :
    wrap32 (rounded n) < 0 ∨ s.chars.length < wrap32 (rounded n) ↔ Kept n := by
  simp only [wrap32, Int.bmod, rounded, Kept]
  omega

theorem getStrValFromJson_iff : Fits (getStrValFromJson s) ↔ Kept (s.chars.length + 1) :=
  (fits_copied (wrap32_range _)).trans (wrap32_rounded (Nat.le_succ _) (Nat.le_refl _))

theorem copyToMqQueue_iff : Fits (copyToMqQueue s) ↔ Kept s.chars.length :=
  (fits_copied (wrap32_range _)).trans (wrap32_rounded (Nat.le_refl _) (Nat.le_succ _))

-- The size of the file's buffer, for a file whose length is read as `x`.
theorem wrap32_tdiv (h : -2 ^ 31 ≤ x ∧ x < 2 ^ 31) :
    (wrap32 (x.tdiv 1024 * 1024 + 1024) < 0 ↔ x < -2047 ∨ 2 ^ 31 - 1024 ≤ x) ∧
      (0 ≤ x → x < 2 ^ 31 - 1024 → x < wrap32 (x.tdiv 1024 * 1024 + 1024)) ∧
        (-2047 ≤ x → x < 0 → wrap32 (x.tdiv 1024 * 1024 + 1024) ≤ 1024) := by
  by_cases hx : x < 0
  case pos =>
    have ht : x.tdiv 1024 = -(-x / 1024) := by
      rw [← Int.tdiv_eq_ediv_of_nonneg (by omega), Int.neg_tdiv, Int.neg_neg]
    simp only [wrap32, Int.bmod, ht]
    omega
  case neg =>
    rw [Int.tdiv_eq_ediv_of_nonneg (Int.not_lt.mp hx)]
    simp only [wrap32, Int.bmod]
    omega

theorem readFile2Buf_iff :
    Fits (readFile2Buf fp) ↔ fp.bytes.length % 2 ^ 32 < 2 ^ 32 - 2047 := by
  have hl := fp.lt
  simp only [Fits, readFile2Buf, List.length_take]
  have hc : wrap32 fp.bytes.length = fp.bytes.length % 2 ^ 32 ∨
      wrap32 fp.bytes.length = fp.bytes.length % 2 ^ 32 - 2 ^ 32 := by
    simp only [wrap32, Int.bmod]
    omega
  have hr := wrap32_range fp.bytes.length
  generalize wrap32 fp.bytes.length = x at hc hr
  obtain ⟨hn, hp, hz⟩ := wrap32_tdiv hr
  have hs := wrap32_range (x.tdiv 1024 * 1024 + 1024)
  generalize wrap32 (x.tdiv 1024 * 1024 + 1024) = y at hn hp hz hs
  simp only [sizeT, PTRDIFF_MAX]
  omega

theorem dbWrite_iff :
    Fits (dbWrite name json) ↔ (json.chars.length + name.chars.length + 1) % 1024 < 1020 := by
  have hn := name.lt
  have hj := json.lt
  simp only [Fits, dbWrite, sprintf, rounded, PTRDIFF_MAX, List.length_append, List.length_cons,
    List.length_nil]
  omega

theorem allFit_iff :
    AllFit name json text fp ↔ Kept (text.chars.length + 1) ∧ Kept text.chars.length ∧
      fp.bytes.length % 2 ^ 32 < 2 ^ 32 - 2047 ∧
        (json.chars.length + name.chars.length + 1) % 1024 < 1020 := by
  rw [← getStrValFromJson_iff, ← copyToMqQueue_iff, ← readFile2Buf_iff, ← dbWrite_iff]
  constructor
  case mp =>
    intro h
    exact ⟨h.getStr, h.mqQueue, h.file, h.dbWrite⟩
  case mpr =>
    intro ⟨hs, hm, hf, hd⟩
    exact ⟨hs, hf, hm, hd⟩

-- Three of the buffers are large enough below 2 GiB.
theorem fits_of_lt (ht : text.chars.length < 2 ^ 31) (hf : fp.bytes.length < 2 ^ 31) :
    Fits (getStrValFromJson text) ∧ Fits (copyToMqQueue text) ∧ Fits (readFile2Buf fp) := by
  rw [getStrValFromJson_iff, copyToMqQueue_iff, readFile2Buf_iff, Kept, Kept]
  omega

def Str.replicate (n : ℕ) (b : UInt8) (h : n < 2 ^ 47) : Str where
  chars := List.replicate n b
  lt := List.length_replicate.symm ▸ h

-- A document of 1011 bytes under the name "original".
theorem not_allFit : ¬∀ name json text fp, AllFit name json text fp := by
  intro h
  let name := Str.replicate 8 0x61 (by decide)
  let json := Str.replicate 1011 0x20 (by decide)
  have hd := dbWrite_iff.mp (h name json name ⟨[], by decide⟩).dbWrite
  rw [show json.chars.length = 1011 from List.length_replicate,
    show name.chars.length = 8 from List.length_replicate] at hd
  exact absurd hd (by decide)

end Share.Buffers
