import Aiotc.Library.Run
import Aiotc.Library.Sweep
import Aiotc.Objects.Ipc
import Aiotc.Share.Json

-- hls.cpp: how a preview removes the segments that its playlist does not list any more.

namespace OldTs

-- What is in the file at a path.
abbrev Files := CStr → Option (List Char)

-- What the paths of a stream are made of.
structure Stream where
  workdir : CStr
  id : Int

-- The files, and of `previewParams` what is kept about the last segment.
structure State where
  files : Files
  lastTsNum : Int := 0
  lastTsSameCnt : Int := 0

def hlsListNum : Int :=
  2

def sizeofTsFile : ℕ :=
  256

namespace Stream

def dir (c : Stream) : CStr :=
  c.workdir ++ ("/webpages/m3u8/stream" : CStr) ++ CStr.decimal c.id

def playlist (c : Stream) : CStr :=
  c.dir ++ ("/play.m3u8" : CStr)

def segment (c : Stream) (n : Int) : CStr :=
  c.dir ++ ("/play" : CStr) ++ CStr.decimal n ++ (".ts" : CStr)

-- What `snprintf` leaves of the paths.
def m3u8File (c : Stream) : CStr :=
  c.playlist.take (sizeofTsFile - 1)

def tsFile (c : Stream) (n : Int) : CStr :=
  (c.segment n).take (sizeofTsFile - 1)

end Stream

-- Where the line starts that `p1` is in. It is looked for in at most `tryCnt` characters.
def lineStart (buf : List Char) (p1 : ℕ) : (tryCnt : ℕ) → Option ℕ
  | 0          => none
  | tryCnt + 1 =>
    if buf[p1]? = some '\r' ∨ buf[p1]? = some '\n' then
      some (p1 + 1)
    else
      lineStart buf (p1 - 1) tryCnt

def strstr (needle : CStr) : List Char → Option ℕ
  | []     => none
  | c :: s =>
    if needle.isPrefixOf (c :: s) then
      some 0
    else if c = '\x00' then
      none
    else
      (strstr needle s).map (· + 1)

def readLatestNum (buf : List Char) (len : ℕ) : Option Int := do
  let p1 ← lineStart buf (len - 2) 48
  let p2 := p1 + ("play" : CStr).length
  let p3 ← strstr ".ts" (buf.drop p2)
  return Ipc.atoi ((buf.drop p2).take p3)

def remove (path : CStr) (files : Files) : Files :=
  if (files path).isSome then Function.update files path none else files

-- The loop over `j`.
def removeOld (c : Stream) (latestNum : Int) : List Int → Files → Files
  | [], files      => files
  | j :: js, files =>
    let tsNum := latestNum - hlsListNum - j
    if tsNum ≥ 0 then removeOld c latestNum js (remove (c.tsFile tsNum) files) else files

def fileSize (data : List Char) : Int :=
  wrap32 data.length

def removeLarge (path : CStr) (files : Files) : Files :=
  if (files path).any (fileSize · > 20000000) then remove path files else files

-- The loops over `k`.
def checkSizes (c : Stream) (latestNum : Int) (files : Files) : Files :=
  [0, 1, 2].foldl (fun files k => removeLarge (c.tsFile (wrap32 (latestNum + k))) files) files

def checkSame (c : Stream) (latestNum : Int) (s : State) : State :=
  if latestNum ≠ s.lastTsNum then
    { s with lastTsNum := latestNum, lastTsSameCnt := 0 }
  else
    let lastTsSameCnt := s.lastTsSameCnt + 1
    if lastTsSameCnt > 60 then
      { s with files := remove c.m3u8File s.files, lastTsSameCnt := 0 }
    else
      { s with lastTsSameCnt := lastTsSameCnt }

-- `behind` is what the memory holds behind the text that was read.
def delOldTs (c : Stream) (fopen : Bool) (behind : List Char) (s : State) : State :=
  match s.files c.m3u8File with
  | none      => { s with files := checkSizes c 0 s.files }
  | some text =>
    let buf := text.take 512
    if fopen ∧ buf.length > 64 then
      match readLatestNum (buf ++ behind) buf.length with
      | none           => s
      | some latestNum =>
        let files :=
          if latestNum > 5 then removeOld c latestNum [1, 2, 3, 4, 5] s.files else s.files
        let s := checkSame c latestNum { s with files := files }
        { s with files := checkSizes c latestNum s.files }
    else
      s

-- The file does not count as too large.
def Small (files : Files) (path : CStr) : Prop :=
  ∀ data, files path = some data → data.length ≤ 20000000

section

variable {c : Stream} {s : State} {files : Files} {path : CStr} {buf : List Char} {n m : ℕ}

namespace Stream

theorem segment_eq (c : Stream) (n : ℕ) : c.segment n =
    c.dir ++ ("/play" : CStr) ++ Nat.toDigits 10 n ++ (".ts" : CStr) := by
  rw [segment, CStr.decimal_natCast]

theorem segment_inj : c.segment n = c.segment m ↔ n = m := by
  refine ⟨fun h => ?_, fun h => h ▸ rfl⟩
  rw [segment_eq, segment_eq, List.append_left_inj, List.append_right_inj] at h
  have hd := congrArg (Nat.ofDigitChars 10 · 0) h
  simpa only [Nat.ofDigitChars_ten_toDigits] using hd

-- Behind `play` there is a dot in the one and a digit in the other.
theorem playlist_ne_segment : c.playlist ≠ c.segment n := by
  intro h
  have hp : c.playlist = c.dir ++ ("/play" : CStr) ++ (".m3u8" : CStr) := by
    simp [playlist, CStr.ofString]
  rw [hp, segment_eq, List.append_assoc (c.dir ++ _), List.append_right_inj] at h
  have ⟨d, ds, hd⟩ := List.exists_cons_of_ne_nil (@Nat.toDigits_ne_nil n 10)
  have hc : d.isDigit := Ipc.isDigit_toDigits d (hd ▸ List.mem_cons_self)
  have he : '.' = d := by simpa [hd, CStr.ofString] using congrArg List.head? h
  exact absurd hc (he ▸ by decide)

theorem length_segment_le (h : m ≤ n) : (c.segment m).length ≤ (c.segment n).length := by
  have hn : (Nat.toDigits 10 m).length ≤ (Nat.toDigits 10 n).length := by
    have hk := Nat.length_toDigits_pos (b := 10) (n := n)
    rw [Nat.length_toDigits_le_iff (by decide) hk]
    exact Nat.lt_of_le_of_lt h ((Nat.length_toDigits_le_iff (by decide) hk).mp (Nat.le_refl _))
  simp only [segment_eq, List.length_append]
  omega

theorem tsFile_eq (h : (c.segment n).length < sizeofTsFile) (hm : m ≤ n) :
    c.tsFile m = c.segment m :=
  List.take_of_length_le (Nat.le_sub_one_of_lt (Nat.lt_of_le_of_lt (length_segment_le hm) h))

theorem m3u8File_eq (h : c.playlist.length < sizeofTsFile) : c.m3u8File = c.playlist :=
  List.take_of_length_le (Nat.le_sub_one_of_lt h)

end Stream

-- From the end of a line to its start.
theorem lineStart_eq {p k t : ℕ} (hp : buf[p]? = some '\n')
    (hb : ∀ i, p < i → i ≤ p + k → ∀ a, buf[i]? = some a → a ≠ '\r' ∧ a ≠ '\n') (hk : k < t) :
    lineStart buf (p + k) t = some (p + 1) := by
  obtain ⟨t, rfl⟩ := Nat.exists_eq_add_of_lt hk
  induction k
  case zero       => simp [lineStart, hp]
  case succ k hi =>
    have hn : ¬(buf[p + (k + 1)]? = some '\r' ∨ buf[p + (k + 1)]? = some '\n') := by
      rintro (h | h)
      case inl => exact (hb _ (by omega) (Nat.le_refl _) _ h).left rfl
      case inr => exact (hb _ (by omega) (Nat.le_refl _) _ h).right rfl
    have ht : k + 1 + t + 1 = (k + t + 1) + 1 := by omega
    rw [ht, lineStart, if_neg hn]
    exact hi (fun i hl hu => hb i hl (by omega)) (by omega)

-- Digits do not begin the text that is looked for.
theorem strstr_append {digits rest : List Char} (h : ∀ a ∈ digits, a.isDigit) :
    strstr ".ts" (digits ++ (".ts" : CStr) ++ rest) = some digits.length := by
  induction digits
  case nil              => rfl
  case cons a digits hi =>
    have ha := h a List.mem_cons_self
    have hd : ('.' == a) = false := by
      rw [beq_eq_false_iff_ne]
      rintro rfl
      exact absurd ha (by decide)
    have hz : a ≠ '\x00' := by
      rintro rfl
      exact absurd ha (by decide)
    have hp : (".ts" : CStr).isPrefixOf (a :: (digits ++ (".ts" : CStr) ++ rest)) = false := by
      simp [CStr.ofString, List.isPrefixOf, hd]
    rw [List.cons_append, List.cons_append, strstr, hp, if_neg Bool.false_ne_true, if_neg hz,
      hi fun b hb => h b (.tail _ hb)]
    rfl

theorem remove_apply (path p : CStr) (files : Files) :
    remove path files p = if p = path then none else files p := by
  rw [remove]
  split
  case isTrue  => exact Function.update_apply ..
  case isFalse h =>
    split
    case isTrue hp => simpa [hp] using h
    case isFalse   => rfl

-- A file is removed if its number is in the window. The numbers fall from one to the next.
theorem removeOld_apply (c : Stream) (latestNum : Int) {js : List Int} (hj : js.Pairwise (· ≤ ·))
    (files : Files) (p : CStr) : removeOld c latestNum js files p =
      if ∃ j ∈ js, 0 ≤ latestNum - hlsListNum - j ∧ p = c.tsFile (latestNum - hlsListNum - j) then
        none
      else
        files p := by
  induction js generalizing files
  case nil          => simp [removeOld]
  case cons j js hi =>
    have ⟨hle, hj⟩ := List.pairwise_cons.mp hj
    simp only [removeOld]
    split
    case isTrue hn =>
      rw [hi hj, remove_apply]
      by_cases hp : p = c.tsFile (latestNum - hlsListNum - j)
      case pos => rw [if_pos hp, ite_self, if_pos ⟨j, List.mem_cons_self, hn, hp⟩]
      case neg => simp [hp]
    case isFalse hn =>
      rw [if_neg]
      rintro ⟨i, hi, h, -⟩
      rcases List.mem_cons.mp hi with rfl | hi
      case inl => exact hn h
      case inr =>
        have := hle i hi
        omega

theorem Small.removeLarge (h : Small files path) (p : CStr) :
    removeLarge p files path = files path := by
  rw [OldTs.removeLarge]
  split
  case isFalse   => rfl
  case isTrue hs =>
    rw [remove_apply, if_neg]
    rintro rfl
    obtain ⟨data, hd, hl⟩ := (Option.any_eq_true _ _).mp hs
    have hd := h data hd
    rw [fileSize, Shm.Layout.wrap32_of_lt (by omega) (by omega), decide_eq_true_eq] at hl
    omega

theorem Small.checkSizes (h : Small files path) (c : Stream) (latestNum : Int) :
    checkSizes c latestNum files path = files path := by
  rw [OldTs.checkSizes]
  generalize ([0, 1, 2] : List Int) = ks
  induction ks generalizing files
  case nil          => rfl
  case cons k ks hi =>
    have hr := h.removeLarge (c.tsFile (wrap32 (latestNum + k)))
    rw [List.foldl_cons, hi (fun data hd => h data (hr ▸ hd)), hr]

theorem checkSame_apply (h : path ≠ c.m3u8File) (latestNum : Int) :
    (checkSame c latestNum s).files path = s.files path := by
  simp only [checkSame]
  split
  case isTrue => rfl
  case isFalse =>
    split
    case isTrue  => exact (remove_apply ..).trans (if_neg h)
    case isFalse => rfl

end
namespace Watch

-- `last` is the number that the last check has read.
structure State extends OldTs.State where
  last : Option ℕ := none

-- A check that misses does not see the playlist.
inductive Label
  | segment (n : ℕ) (data : List Char)
  | playlist (text : List Char)
  | check (n : ℕ) (behind : List Char)
  | miss (fopen : Bool) (behind : List Char)

def line (n : ℕ) : List Char :=
  ("play" : CStr) ++ CStr.decimal n ++ (".ts" : CStr)

-- The last line is that of segment `n`.
structure Playlist (text : List Char) (n : ℕ) : Prop where
  long  : 64 < text.length
  short : text.length ≤ 512
  line  : ∃ lines eol, (eol = [] ∨ eol = ['\n']) ∧ text = lines ++ '\n' :: (line n ++ eol)

def State.write (path : CStr) (data : List Char) (s : State) : State :=
  { s with files := Function.update s.files path (some data) }

-- The segments that are written are those that the last check has found in the playlist, and
-- later ones.
def Step (c : Stream) (s : State) : Label → State → Prop
  | .segment n data, s'    =>
    (∀ m, s.last = some m → m - hlsListNum ≤ n) ∧ data.length ≤ 20000000 ∧
      s' = s.write (c.segment n) data
  | .playlist text, s'     => s' = s.write c.playlist text
  | .check n behind, s'    =>
    (∃ text, s.files c.playlist = some text ∧ Playlist text n) ∧
      (s.last = none → n ≤ 5) ∧ (∀ m, s.last = some m → m ≤ n ∧ n ≤ m + 5) ∧
      s' = { delOldTs c true behind s.toState with last := some n }
  | .miss fopen behind, s' =>
    (s.files c.playlist = none ∨ fopen = false) ∧
      s' = { s with toState := delOldTs c fopen behind s.toState }

def Sized (c : Stream) (s : OldTs.State) : Prop :=
  ∀ n : ℕ, Small s.files (c.segment n)

structure Start (c : Stream) (s : State) : Prop where
  last  : s.last = none
  sized : Sized c s.toState

-- What a check that has read `n` has to leave.
structure Retained (c : Stream) (n : ℕ) (s s' : State) : Prop where
  removed : 5 < n → ∀ m : ℕ, m ≤ n - hlsListNum - 1 → s'.files (c.segment m) = none
  kept    : ∀ m : ℕ, n - hlsListNum ≤ m → s'.files (c.segment m) = s.files (c.segment m)

-- No check goes from at most 5 to more than 7, and the paths fit into their arrays.
def Near (c : Stream) (s : State) : Label → Prop
  | .check n _ =>
    (∀ m, s.last = some m → m ≤ 5 → n ≤ 7) ∧ n < 2 ^ 31 ∧ c.playlist.length < sizeofTsFile ∧
      (c.segment n).length < sizeofTsFile
  | .miss _ _  => c.playlist.length < sizeofTsFile
  | _          => True

section

variable {c : Stream} {text behind : List Char} {n m : ℕ}

theorem isDigit_decimal {a : Char} (ha : a ∈ CStr.decimal n) : a.isDigit :=
  Ipc.isDigit_toDigits a (CStr.decimal_natCast n ▸ ha)

theorem length_line (n : ℕ) : (line n).length = (CStr.decimal n).length + 7 := by
  have hp : ("play" : CStr).length = 4 := rfl
  have ht : (".ts" : CStr).length = 3 := rfl
  simp only [line, List.length_append, hp, ht]
  omega

theorem ne_newline_of_mem_line {a : Char} (ha : a ∈ line n) : a ≠ '\r' ∧ a ≠ '\n' := by
  have hp : ∀ a ∈ ("play" : CStr), a ≠ '\r' ∧ a ≠ '\n' := by simp [CStr.ofString]
  have ht : ∀ a ∈ (".ts" : CStr), a ≠ '\r' ∧ a ≠ '\n' := by simp [CStr.ofString]
  simp only [line, List.mem_append] at ha
  obtain (ha | ha) | ha := ha
  case inl.inl => exact hp a ha
  case inr     => exact ht a ha
  case inl.inr =>
    have hd := isDigit_decimal ha
    constructor <;> rintro rfl <;> exact absurd hd (by decide)

-- Any character of the last line leads to its start.
theorem lineStart_line {lines rest : List Char} {k t : ℕ} (hk : k ≤ (line n).length) (ht : k < t) :
    lineStart (lines ++ '\n' :: (line n ++ rest)) (lines.length + k) t =
      some (lines.length + 1) := by
  apply lineStart_eq (by simp) _ ht
  intro i hlo hhi a ha
  have hi : i = lines.length + (i - lines.length - 1 + 1) := by omega
  rw [hi, List.getElem?_append_right (Nat.le_add_right _ _), Nat.add_sub_cancel_left,
    List.getElem?_cons_succ, List.getElem?_append_left (by omega)] at ha
  exact ne_newline_of_mem_line (List.mem_of_getElem? ha)

theorem drop_line (lines rest : List Char) : (lines ++ '\n' :: (line n ++ rest)).drop
    (lines.length + 1 + ("play" : CStr).length) = CStr.decimal n ++ (".ts" : CStr) ++ rest := by
  have hs : lines ++ '\n' :: (line n ++ rest) =
      (lines ++ '\n' :: ("play" : CStr)) ++ (CStr.decimal n ++ (".ts" : CStr) ++ rest) := by
    simp [line]
  rw [hs]
  refine List.drop_left' ?_
  rw [List.length_append, List.length_cons]
  omega

theorem atoi_decimal (hn : n < 2 ^ 31) : Ipc.atoi (CStr.decimal n) = n := by
  have hs : Ipc.strtol (Nat.toDigits 10 n ++ []) = n := Ipc.strtol_toDigits nofun (by omega)
  rw [List.append_nil] at hs
  rw [CStr.decimal_natCast, Ipc.atoi, hs]
  exact Shm.Layout.wrap32_of_lt (by omega) (by omega)

theorem readLatestNum_eq (h : Playlist text n) (hn : n < 2 ^ 31) (behind : List Char) :
    readLatestNum (text ++ behind) text.length = some (n : Int) := by
  obtain ⟨lines, eol, he, ht⟩ := h.line
  have hd : (CStr.decimal n).length ≤ 10 := by
    rw [CStr.decimal_natCast]
    exact (Nat.length_toDigits_le_iff (by decide) (by decide)).mpr (by omega)
  have hl := length_line n
  have heol : eol.length ≤ 1 := by rcases he with rfl | rfl <;> simp
  have hlen : text.length - 2 = lines.length + ((line n).length + eol.length - 1) := by
    simp only [ht, List.length_append, List.length_cons]
    omega
  have hbuf : text ++ behind = lines ++ '\n' :: (line n ++ (eol ++ behind)) := by simp [ht]
  rw [hbuf, readLatestNum, hlen, lineStart_line (by omega) (by omega)]
  simp only [Option.bind_eq_bind, Option.bind_some, drop_line,
    strstr_append fun _ => isDigit_decimal]
  rw [List.append_assoc, List.take_left, atoi_decimal hn]
  rfl

-- The numbers of the segments that a check which has read `n` removes.
def window (n : ℕ) : Set ℕ :=
  { m | 5 < n ∧ n ≤ m + 7 ∧ m + 3 ≤ n }

instance (n m : ℕ) : Decidable (m ∈ window n) :=
  inferInstanceAs (Decidable (5 < n ∧ n ≤ m + 7 ∧ m + 3 ≤ n))

variable {s : OldTs.State} {files : Files}

theorem removeOld_segment (hn : 5 < n) (hl : (c.segment n).length < sizeofTsFile) (m : ℕ) :
    removeOld c n [1, 2, 3, 4, 5] files (c.segment m) =
      if m ∈ window n then none else files (c.segment m) := by
  rw [removeOld_apply c n (by decide)]
  refine if_congr ⟨?_, fun hm => ⟨n - hlsListNum - m, ?_, ?_, ?_⟩⟩ rfl rfl
  case refine_1 =>
    rintro ⟨j, hj, hk, he⟩
    obtain ⟨k, hk⟩ := Int.eq_ofNat_of_zero_le hk
    simp only [hlsListNum, List.mem_cons, List.not_mem_nil, or_false] at hj hk
    rw [hlsListNum, hk, Stream.tsFile_eq hl (by omega), Stream.segment_inj] at he
    exact ⟨hn, by omega, by omega⟩
  all_goals
    obtain ⟨-, hlo, hhi⟩ := hm
    simp only [hlsListNum, List.mem_cons, List.not_mem_nil, or_false, sub_sub_cancel]
  case refine_2 => omega
  case refine_3 => omega
  case refine_4 => rw [Stream.tsFile_eq hl (by omega)]

theorem check_segment (hp : s.files c.playlist = some text) (h : Playlist text n)
    (hn : n < 2 ^ 31) (hl : c.playlist.length < sizeofTsFile)
    (hs : (c.segment n).length < sizeofTsFile) (hm : Small s.files (c.segment m)) :
    (delOldTs c true behind s).files (c.segment m) =
      if m ∈ window n then none else s.files (c.segment m) := by
  have hf := Stream.m3u8File_eq hl
  have ht : text.take 512 = text := List.take_of_length_le h.short
  have hne : c.segment m ≠ c.m3u8File := hf ▸ Ne.symm Stream.playlist_ne_segment
  have hlong := h.long
  let files := if (n : Int) > 5 then removeOld c n [1, 2, 3, 4, 5] s.files else s.files
  have hfiles : files (c.segment m) = if m ∈ window n then none else s.files (c.segment m) := by
    by_cases h5 : 5 < n
    case pos =>
      rw [← removeOld_segment h5 hs]
      simp [files, h5]
    case neg => simp [files, window, h5]
  have hsmall : Small (checkSame c n { s with files := files }).files (c.segment m) := by
    intro data hd
    replace hd := (checkSame_apply hne n).symm.trans hd
    replace hd := hfiles.symm.trans hd
    split at hd
    case isTrue  => cases hd
    case isFalse => exact hm data hd
  simp only [delOldTs, hf, hp, ht, readLatestNum_eq h hn, hlong, and_self, if_true]
  rw [hsmall.checkSizes, checkSame_apply hne]
  exact hfiles

theorem miss_segment {fopen : Bool} (hp : s.files c.playlist = none ∨ fopen = false)
    (hl : c.playlist.length < sizeofTsFile) (hm : Small s.files (c.segment m)) :
    (delOldTs c fopen behind s).files (c.segment m) = s.files (c.segment m) := by
  rw [delOldTs, Stream.m3u8File_eq hl]
  split
  case h_1         => exact hm.checkSizes c 0
  case h_2 text ht => simp [hp.resolve_left (by simp [ht])]

end

section

variable {c : Stream} {n : ℕ} {behind : List Char} {s s' s₀ : State} {l : Label}
  {tr : List (State × Label)}

-- What a step makes of the file of segment `m`, and of `last`.
def Label.file (m : ℕ) (file : Option (List Char)) : Label → Option (List Char)
  | .segment n data         => if m = n then some data else file
  | .check n _              => if m ∈ window n then none else file
  | .playlist _ | .miss _ _ => file

def Label.last (last : Option ℕ) : Label → Option ℕ
  | .check n _                             => some n
  | .segment _ _ | .playlist _ | .miss _ _ => last

theorem Step.last_eq (e : Step c s l s') : s'.last = l.last s.last := by
  cases l
  case segment  => exact e.right.right ▸ rfl
  case playlist => exact e ▸ rfl
  case check    => exact e.right.right.right ▸ rfl
  case miss     => exact e.right ▸ rfl

theorem Step.file_eq (e : Step c s l s') (hn : Near c s l) (hs : Sized c s.toState) (m : ℕ) :
    s'.files (c.segment m) = l.file m (s.files (c.segment m)) := by
  cases l
  case segment k data =>
    rw [e.right.right, State.write]
    simp only [Function.update_apply, Stream.segment_inj, Label.file]
  case playlist text =>
    rw [e]
    exact Function.update_of_ne (Ne.symm Stream.playlist_ne_segment) ..
  case check k behind =>
    obtain ⟨⟨text, hp, ht⟩, -, -, rfl⟩ := e
    obtain ⟨-, hk, hl, hsl⟩ := hn
    exact check_segment hp ht hk hl hsl (hs m)
  case miss fopen behind =>
    obtain ⟨hp, rfl⟩ := e
    exact miss_segment hp hn (hs m)

theorem Step.sized (e : Step c s l s') (hn : Near c s l) (hs : Sized c s.toState) :
    Sized c s'.toState := by
  intro m data hd
  rw [e.file_eq hn hs] at hd
  cases l
  case segment k data' =>
    rw [Label.file] at hd
    split at hd
    case isTrue  => exact Option.some.inj hd ▸ e.right.left
    case isFalse => exact hs m data hd
  case check k behind =>
    rw [Label.file] at hd
    split at hd
    case isTrue  => cases hd
    case isFalse => exact hs m data hd
  all_goals exact hs m data hd

-- A check that is not past the guard has nothing behind it.
def front : Option ℕ → ℕ
  | none   => 0
  | some n => if 5 < n then n - 2 else 0

-- A stream as a store of segments.
def abs (c : Stream) (s : State) : Sweep.State ℕ where
  live := { m | s.files (c.segment m) ≠ none }
  front := front s.last

-- Two windows that follow each other leave no gap.
theorem Ico_subset_window (hn : s.last = none → n ≤ 5)
    (hg : ∀ m, s.last = some m → m ≤ n ∧ n ≤ m + 5) (h7 : ∀ m, s.last = some m → m ≤ 5 → n ≤ 7) :
    Set.Ico (front s.last) (front (some n)) ⊆ window n := by
  rintro m ⟨hlo, hhi⟩
  simp only [front] at hhi
  cases hl : s.last <;> rw [hl] at hlo
  case none =>
    have := hn hl
    split at hhi <;> omega
  case some k =>
    have := hg k hl
    have := h7 k hl
    simp only [front] at hlo
    refine ⟨?_, ?_, ?_⟩ <;> split at hhi <;> split at hlo <;> omega

theorem window_subset_Iio (n : ℕ) : window n ⊆ Set.Iio (front (some n)) := by
  rintro m ⟨h5, -, hm⟩
  simp only [front, if_pos h5, Set.mem_Iio]
  omega

-- What was written by the muxer is not behind the front.
theorem front_le (h : ∀ m, s.last = some m → m - hlsListNum ≤ n) : front s.last ≤ n := by
  cases hl : s.last
  case none   => exact Nat.zero_le n
  case some m =>
    have hm := h m hl
    rw [hlsListNum] at hm
    rw [front]
    split <;> omega

-- Each step is one of the store.
theorem Step.sweep (e : Step c s l s') (hn : Near c s l) (hs : Sized c s.toState) :
    Sweep.Step (abs c s) (abs c s') := by
  have ha : abs c s' =
      ⟨{ m | l.file m (s.files (c.segment m)) ≠ none }, front (l.last s.last)⟩ := by
    simp only [abs, e.file_eq hn hs, e.last_eq]
  cases l
  case segment k data =>
    have hi : abs c s' = { abs c s with live := insert k (abs c s).live } := by
      rw [ha]
      congr 1
      ext m
      by_cases hm : m = k <;> simp [abs, Label.file, hm]
    rw [hi]
    exact .add k (front_le e.left)
  case check k behind =>
    have hi : abs c s' = ⟨(abs c s).live \ window k, front (some k)⟩ := by
      rw [ha]
      congr 1
      ext m
      by_cases hm : m ∈ window k <;> simp [abs, Label.file, hm]
    rw [hi]
    exact .sweep _ _ (Ico_subset_window e.right.left e.right.right.left hn.left)
      (window_subset_Iio k)
  all_goals
    rw [ha]
    exact .skip

structure Tidy (c : Stream) (s : State) : Prop where
  cleared : Sweep.Cleared (abs c s)
  sized   : Sized c s.toState

theorem Start.tidy (h : Start c s) : Tidy c s where
  cleared := fun m _ => by simp [abs, h.last, front]
  sized   := h.sized

theorem Step.tidy (e : Step c s l s') (hn : Near c s l) (h : Tidy c s) : Tidy c s' where
  cleared := (e.sweep hn h.sized).cleared h.cleared
  sized   := e.sized hn h.sized

theorem run_tidy (hs : Start c s₀) (r : Run (Step c) s₀ tr s) (hc : Run.Meets (Near c) tr) :
    Tidy c s :=
  (Run.always_of_meets (fun _ _ _ h hn e => e.tidy hn h) r hs.tidy hc).last

theorem retained (hs : Start c s₀) (r : Run (Step c) s₀ tr s) (hc : Run.Meets (Near c) tr)
    (e : Step c s (.check n behind) s') (hn : Near c s (.check n behind)) :
    Retained c n s s' := by
  have ht := run_tidy hs r hc
  constructor
  case removed =>
    intro h5 m hm
    by_contra hne
    have hf : front s'.last ≤ m := (e.tidy hn ht).cleared m hne
    rw [e.last_eq, Label.last, front, if_pos h5] at hf
    rw [hlsListNum] at hm
    omega
  case kept =>
    intro m hm
    refine (e.file_eq hn ht.sized m).trans (if_neg ?_)
    rintro ⟨-, -, hm'⟩
    rw [hlsListNum] at hm
    omega

end

section

-- A camera that sends 10 frames a second: between two checks five segments of 2 seconds are
-- finished.
def camera : Stream where
  workdir := "/home/aiotc"
  id := 1

def head : CStr :=
  "#EXTM3U\n#EXT-X-VERSION:3\n#EXT-X-TARGETDURATION:2\n#EXTINF:2.000000,"

def m3u8 (n : ℕ) : List Char :=
  head ++ '\n' :: (line n ++ ['\n'])

-- The first six segments are there when the playlist ends with the last of them.
def started : State where
  files path :=
    if path = camera.playlist then
      some (m3u8 5)
    else if [0, 1, 2, 3, 4, 5].any (path = camera.segment ·) then
      some []
    else
      none

def checked : State :=
  { delOldTs camera true [] started.toState with last := some 5 }

def listed (n : ℕ) : State :=
  checked.write camera.playlist (m3u8 n)

def swept (n : ℕ) : State :=
  { delOldTs camera true [] (listed n).toState with last := some n }

theorem start_started : Start camera started := by
  refine ⟨rfl, fun n data hd => ?_⟩
  simp only [started, if_neg (Ne.symm Stream.playlist_ne_segment)] at hd
  split at hd <;> cases hd
  exact Nat.zero_le _

theorem playlist_m3u8 : ∀ n ∈ [5, 7, 10], Playlist (m3u8 n) n :=
  fun n hn => ⟨by revert n; decide, by revert n; decide, head, ['\n'], .inr rfl, rfl⟩

theorem run_listed (n : ℕ) : Run (Step camera) started
    [(started, .check 5 []), (checked, .playlist (m3u8 n))] (listed n) :=
  .step ⟨⟨_, rfl, playlist_m3u8 5 (by decide)⟩, fun _ => Nat.le_refl 5, nofun, rfl⟩
    (.single rfl)

theorem step_swept (n : ℕ) (hn : n ∈ [5, 7, 10]) :
    Step camera (listed n) (.check n []) (swept n) := by
  refine ⟨⟨m3u8 n, by simp [listed, State.write], playlist_m3u8 n hn⟩, nofun, ?_, rfl⟩
  rintro m ⟨rfl⟩
  revert n
  decide

theorem retained_witness : Retained camera 7 (listed 7) (swept 7) := by
  refine retained start_started (run_listed 7) ?_ (step_swept 7 (by decide)) ?_
  case refine_1 =>
    refine Run.meets_cons.mpr ⟨⟨nofun, ?_⟩, Run.meets_cons.mpr ⟨trivial, Run.meets_nil⟩⟩
    decide
  case refine_2 =>
    refine ⟨fun _ _ _ => Nat.le_refl 7, ?_⟩
    decide

-- From the fifth segment to the tenth the window passes over the first three.
theorem not_retained : ¬∀ c s₀ tr s n behind s', Start c s₀ → Run (Step c) s₀ tr s →
    Step c s (.check n behind) s' → Retained c n s s' := by
  intro h
  have hr := h camera started _ _ 10 [] _ start_started (run_listed 10) (step_swept 10 (by decide))
  have hs : ((swept 10).files (camera.segment (0 : ℕ))).isSome := by decide +kernel
  rw [hr.removed (by decide) 0 (by decide)] at hs
  cases hs

end

end Watch

end OldTs
