import Aiotc.Library.Memory

-- rest.cpp: how `request_cb` gets the text of a request out of the buffer of the HTTP server.

namespace Rest

open Memory

def POST_BUF_MAX : ℕ :=
  1024

-- A byte of `cbuf`. `pos` tells which byte of the body it is, if any. The program does not know it.
structure Cell where
  byte : UInt8
  pos : Option ℕ := none
  deriving DecidableEq

def Cell.nul : Cell :=
  { byte := 0 }

def Cell.isNul (c : Cell) : Bool :=
  c.byte == 0

-- The loop over `evbuffer_remove`, which puts what it removes at the start of `cbuf` each time.
def drain (cbuf : Memory Cell) : List Cell → Memory Cell
  | []       => cbuf
  | b :: buf =>
    drain (cbuf.write 0 ((b :: buf).take POST_BUF_MAX)) ((b :: buf).drop POST_BUF_MAX)
termination_by buf => buf.length
decreasing_by
  have h : 0 < POST_BUF_MAX := by decide
  simp only [List.length_drop, List.length_cons]
  omega

def cells (body : List UInt8) : List Cell :=
  body.mapIdx fun i b => { byte := b, pos := some i }

-- The text that is passed to the handler.
def requestCb (body : List UInt8) : List Cell :=
  let cbuf := drain (fun _ => .nul) (cells body)
  (cbuf.write (POST_BUF_MAX - 1) [.nul]).text Cell.isNul 0 POST_BUF_MAX

def bytes (text : List Cell) : List UInt8 :=
  text.map Cell.byte

-- `whole` is about the bytes, `placed` about which bytes of the body they are.
structure Lawful (body : List UInt8) : Prop where
  whole  : bytes (requestCb body) = body.takeWhile (· ≠ 0) ∨
    (POST_BUF_MAX - 1 < body.length ∧ bytes (requestCb body) <+: body)
  placed : requestCb body <+: cells body

variable {cbuf : Memory Cell} {buf : List Cell} {body : List UInt8} {i : ℕ}

@[simp]
theorem length_cells : (cells body).length = body.length := by
  simp [cells]

@[simp]
theorem bytes_cells (body : List UInt8) : bytes (cells body) = body := by
  apply List.ext_getElem <;> simp [bytes, cells]

theorem cells_getElem? : (cells body)[i]? = body[i]?.map fun b => { byte := b, pos := some i } := by
  simp [cells]

theorem drain_nil : drain cbuf [] = cbuf := by
  rw [drain]

theorem drain_step (h : buf ≠ []) :
    drain cbuf buf = drain (cbuf.write 0 (buf.take POST_BUF_MAX)) (buf.drop POST_BUF_MAX) := by
  cases buf
  case nil  => contradiction
  case cons => rw [drain]

-- A body of one chunk.
theorem drain_of_le (h : buf.length ≤ POST_BUF_MAX) : drain cbuf buf = cbuf.write 0 buf := by
  by_cases hb : buf = []
  case pos =>
    rw [hb, drain_nil]
    funext n
    exact (write_of_disjoint (.inr (Nat.zero_le n))).symm
  case neg =>
    rw [drain_step hb, List.take_of_length_le h, List.drop_of_length_le h, drain_nil]

-- `cbuf` starts with the byte with which the last chunk starts.
theorem drain_zero (h : buf ≠ []) :
    some (drain cbuf buf 0) = buf[(buf.length - 1) / POST_BUF_MAX * POST_BUF_MAX]? := by
  induction cbuf, buf using drain.induct
  case case1 => contradiction
  case case2 cbuf b buf hi =>
    by_cases hd : (b :: buf).length ≤ POST_BUF_MAX
    case pos =>
      have hz : ((b :: buf).length - 1) / POST_BUF_MAX = 0 :=
        Nat.div_eq_of_lt (by simp at hd ⊢; omega)
      rw [drain_of_le hd, hz, Nat.zero_mul]
      rfl
    case neg =>
      have hl : (b :: buf).drop POST_BUF_MAX ≠ [] := by simpa using hd
      have hq : ((b :: buf).length - 1) / POST_BUF_MAX * POST_BUF_MAX =
          POST_BUF_MAX + ((b :: buf).length - POST_BUF_MAX - 1) / POST_BUF_MAX * POST_BUF_MAX := by
        simp only [POST_BUF_MAX] at *
        omega
      rw [drain_step h, hi hl, List.length_drop, List.getElem?_drop, hq]

theorem requestCb_eq (body : List UInt8) :
    requestCb body =
      ((drain (fun _ => .nul) (cells body)).read 0 (POST_BUF_MAX - 1)).takeWhile
        (!Cell.isNul ·) := by
  rw [requestCb, show POST_BUF_MAX - 1 = 0 + (POST_BUF_MAX - 1) from rfl]
  exact text_write_nul rfl

theorem requestCb_of_le (h : body.length ≤ POST_BUF_MAX) :
    requestCb body = ((cells body).take (POST_BUF_MAX - 1)).takeWhile (!Cell.isNul ·) := by
  rw [requestCb_eq, drain_of_le (by simpa using h), read_write_const, takeWhile_strncpy rfl]

-- The byte at which the last chunk starts.
def lastChunk (body : List UInt8) : ℕ :=
  (body.length - 1) / POST_BUF_MAX * POST_BUF_MAX

-- The text is empty or starts with that byte.
theorem head?_requestCb {b : UInt8} (h : body[lastChunk body]? = some b) :
    (requestCb body).head? = if b = 0 then none else some ⟨b, some (lastChunk body)⟩ := by
  have hn : cells body ≠ [] := by
    have ⟨hl, _⟩ := List.getElem?_eq_some_iff.mp h
    exact List.ne_nil_of_length_pos (by simpa using Nat.zero_lt_of_lt hl)
  have hz : some (drain (fun _ => .nul) (cells body) 0) = _ := drain_zero hn
  rw [length_cells, cells_getElem?, ← lastChunk, h, Option.map_some, Option.some.injEq] at hz
  rw [requestCb_eq, show POST_BUF_MAX - 1 = POST_BUF_MAX - 2 + 1 from rfl, read_succ, hz,
    List.takeWhile_cons]
  by_cases hb : b = 0 <;> simp [Cell.isNul, hb]

theorem lastChunk_lt (h : body ≠ []) : lastChunk body < body.length := by
  have hl := List.length_pos_iff.mpr h
  simp only [lastChunk, POST_BUF_MAX]
  omega

theorem Lawful.of_placed (h : requestCb body <+: cells body) (hn : POST_BUF_MAX - 1 < body.length) :
    Lawful body := by
  constructor
  case placed => exact h
  case whole  =>
    have h := h.map Cell.byte
    rw [← bytes, ← bytes, bytes_cells] at h
    exact .inr ⟨hn, h⟩

theorem Lawful.of_le (h : body.length ≤ POST_BUF_MAX) : Lawful body := by
  have ht := requestCb_of_le h
  have hp : requestCb body <+: cells body := by
    rw [ht]
    exact (List.takeWhile_prefix _).trans (List.take_prefix _ _)
  by_cases hn : POST_BUF_MAX - 1 < body.length
  case pos => exact .of_placed hp hn
  case neg =>
    constructor
    case placed => exact hp
    case whole  =>
      left
      rw [ht, List.take_of_length_le (by simpa using hn)]
      conv_rhs => rw [← bytes_cells body, bytes, List.takeWhile_map]
      congr 2
      funext c
      simp only [Cell.isNul, Function.comp_apply, ne_eq, decide_not]
      rfl

theorem bytes_requestCb (h : body.length < POST_BUF_MAX) (hn : ∀ b ∈ body, b ≠ 0) :
    bytes (requestCb body) = body := by
  cases (Lawful.of_le (Nat.le_of_lt h)).whole
  case inl hw =>
    rw [hw, List.takeWhile_eq_self_iff]
    simpa using hn
  case inr hw => exact absurd hw.left (by omega)

-- A longer body is passed on correctly only if nothing of it is passed.
theorem lawful_iff (body : List UInt8) :
    Lawful body ↔ body.length ≤ POST_BUF_MAX ∨ body[lastChunk body]? = some 0 := by
  by_cases h : body.length ≤ POST_BUF_MAX
  case pos => simp [h, Lawful.of_le h]
  case neg =>
    have hn : body ≠ [] := by
      rintro rfl
      simp at h
    have hb := List.getElem?_eq_getElem (lastChunk_lt hn)
    have hd := head?_requestCb hb
    simp only [h, false_or, hb, Option.some.injEq]
    constructor
    case mp =>
      intro hl
      by_contra hz
      rw [if_neg hz] at hd
      -- The first byte of the text is not the first one of the body.
      have ⟨t, ht⟩ := List.head?_eq_some_iff.mp hd
      have hp := hl.placed
      rw [ht] at hp
      have hc := List.prefix_iff_getElem?.mp hp 0 (Nat.zero_lt_succ _)
      simp only [cells_getElem?, List.getElem_cons_zero, Option.map_eq_some_iff, Cell.mk.injEq,
        Option.some.injEq, lastChunk, POST_BUF_MAX] at hc h
      omega
    case mpr =>
      intro hz
      rw [if_pos hz, List.head?_eq_none_iff] at hd
      exact .of_placed (hd ▸ List.nil_prefix) (by omega)

-- The last byte of 1025 takes the place of the first.
theorem not_lawful_append {xs : List UInt8} (h : xs.length = 1023) :
    ¬Lawful (0x61 :: (xs ++ [0x62])) := by
  intro hl
  have hc : lastChunk (0x61 :: (xs ++ [0x62])) = 1024 := by
    simp [lastChunk, POST_BUF_MAX, h]
  have hb : (0x61 :: (xs ++ [0x62]))[1024]? = some (0x62 : UInt8) := by
    simp [h]
  have hd := head?_requestCb (hc ▸ hb)
  have ⟨t, ht⟩ := List.head?_eq_some_iff.mp (hd.trans (if_neg (by decide)))
  have hw := hl.whole
  rw [ht] at hw
  simp [bytes] at hw

theorem not_lawful : ¬∀ body, Lawful body := by
  intro h
  exact not_lawful_append List.length_replicate (h (0x61 :: (List.replicate 1023 0x63 ++ [0x62])))

end Rest
