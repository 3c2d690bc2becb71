import Mathlib.Data.List.TakeDrop
import Aiotc.Library.Memory
import Aiotc.Msg.Ack

-- msg.cpp: the bytes of a request. `msgBufParams` is laid out as on x86-64, with padding after its
-- `key`, and the system carries the `long` at its start and as many of the bytes that follow as
-- `msgsnd` is told.

namespace Msg.Layout

open Memory

def sizeofLong : ℕ :=
  8

def keyOffset : ℕ :=
  8

def ptrOffset : ℕ :=
  16

def bufOffset : ℕ :=
  24

-- What is in transit.
structure Carried where
  type : BitVec 64
  mtext : List UInt8

def msgsnd (msgsz : ℕ) (m : Memory UInt8) : Carried where
  type := m.load 8 0
  mtext := m.read sizeofLong msgsz

-- A message with more bytes than are asked for is refused.
def msgrcv (msgsz : ℕ) (c : Carried) (m : Memory UInt8) : Option (Memory UInt8) :=
  if c.mtext.length ≤ msgsz then
    some ((m.store (w := 8) 0 c.type).write sizeofLong c.mtext)
  else
    none

-- `ack` is the address that `malloc` gave. It is only asked for one if an answer is expected.
def ackPtr (recvKey : BitVec 32) (ack : BitVec 64) : BitVec 64 :=
  if recvKey = 0 then 0 else ack

-- `m` is what lies on the stack.
def fillMsgBuf (buf : List UInt8) (recvKey : BitVec 32) (ack : BitVec 64) (m : Memory UInt8) :
    Memory UInt8 :=
  let m := m.store (w := 8) ptrOffset (ackPtr recvKey ack)
  let m := m.store (w := 8) 0 (1 : BitVec 64)
  let m := m.store (w := 4) keyOffset recvKey
  let m := m.write bufOffset (strncpy 0 MSG_BUF_LEN buf)
  m.write (bufOffset + (MSG_BUF_LEN - 1)) [0]

def msgSend (buf : List UInt8) (recvKey : BitVec 32) (ack : BitVec 64) (m : Memory UInt8) :
    Carried :=
  msgsnd MSG_BUF_LEN (fillMsgBuf buf recvKey ack m)

-- What `msgThread` reads from its buffer, and the text that it hands to `msgTask` unless it takes
-- the message for an acknowledgement.
structure Received where
  key : BitVec 32
  ptr : BitVec 64
  task : Option (List UInt8)
  deriving DecidableEq

def msgThread (c : Carried) : Option Received := do
  let m ← msgrcv MSG_BUF_LEN c fun _ => 0
  let key := m.load 4 keyOffset
  let ptr := m.load 8 ptrOffset
  let buf := m.text (· == 0) bufOffset MSG_BUF_LEN
  return { key := key, ptr := ptr, task := if ptr ≠ 0 ∧ key = 0 then none else some buf }

-- The bytes of `buf` that are carried.
def carried : ℕ :=
  sizeofLong + MSG_BUF_LEN - bufOffset

variable {buf : List UInt8} {recvKey : BitVec 32} {ack : BitVec 64} {m : Memory UInt8}

theorem load_key : (fillMsgBuf buf recvKey ack m).load 4 keyOffset = recvKey := by
  simp only [fillMsgBuf, load]
  rw [read_write_of_disjoint (by decide), read_write_of_disjoint (by simp; decide), read_store]
  exact ofNat_ofLE_toLE (w := 4) recvKey

theorem load_ptr : (fillMsgBuf buf recvKey ack m).load 8 ptrOffset = ackPtr recvKey ack := by
  simp only [fillMsgBuf, load]
  rw [read_write_of_disjoint (by decide), read_write_of_disjoint (by simp; decide),
    read_store_of_disjoint _ (by decide), read_store_of_disjoint _ (by decide), read_store]
  exact ofNat_ofLE_toLE (w := 8) _

theorem read_buf :
    (fillMsgBuf buf recvKey ack m).read bufOffset carried =
      (strncpy 0 MSG_BUF_LEN buf).take carried := by
  simp only [fillMsgBuf]
  rw [read_write_of_disjoint (by decide), ← take_read (show carried ≤ MSG_BUF_LEN by decide),
    read_write_eq length_strncpy]

-- The carried part of the buffer with the zeros that the receiver has put behind it.
theorem text_take (h : ∀ x ∈ buf, x ≠ 0) :
    ((strncpy 0 MSG_BUF_LEN buf).take carried ++
      Memory.read (bufOffset + carried) (MSG_BUF_LEN - carried) fun _ => 0).takeWhile (!· == 0) =
        buf.take carried := by
  have hz : Memory.read (bufOffset + carried) (MSG_BUF_LEN - carried) (fun _ => (0 : UInt8)) =
    List.replicate (MSG_BUF_LEN - carried) 0 := rfl
  rw [hz, take_strncpy (by decide), takeWhile_strncpy_eq _ rfl, List.take_take,
    show min MSG_BUF_LEN carried = carried from rfl]
  intro x hx
  simpa using h x (List.mem_of_mem_take hx)

-- The carried bytes arrive where they were, and what follows them stays as the receiver has made
-- it.
theorem msgrcv_msgSend (m₀ : Memory UInt8) :
    ∃ m', msgrcv MSG_BUF_LEN (msgSend buf recvKey ack m) m₀ = some m' ∧
      (∀ b k, sizeofLong ≤ b → b + k ≤ sizeofLong + MSG_BUF_LEN →
        m'.read b k = (fillMsgBuf buf recvKey ack m).read b k) ∧
      ∀ b k, sizeofLong + MSG_BUF_LEN ≤ b → m'.read b k = m₀.read b k := by
  simp only [msgrcv, msgSend, msgsnd, length_read, Nat.le_refl, if_true, Option.some.injEq,
    exists_eq_left']
  constructor
  case left  => exact fun _ _ => read_write_read
  case right =>
    intro b k hb
    rw [read_write_of_disjoint (.inr (by simpa using hb)),
      read_store_of_disjoint _ (.inr (Nat.le_trans (by decide) hb))]

theorem received_eq (h : ∀ x ∈ buf, x ≠ 0) :
    msgThread (msgSend buf recvKey ack m) =
      some { key := recvKey, ptr := ackPtr recvKey ack, task := some (buf.take carried) } := by
  have ⟨m', hm, hc, hz⟩ := @msgrcv_msgSend buf recvKey ack m fun _ => 0
  have hk : m'.load 4 keyOffset = recvKey := by
    rw [load, hc _ _ (by decide) (by decide), ← load, load_key]
  have hp : m'.load 8 ptrOffset = ackPtr recvKey ack := by
    rw [load, hc _ _ (by decide) (by decide), ← load, load_ptr]
  have ht : m'.text (· == 0) bufOffset MSG_BUF_LEN = buf.take carried := by
    rw [text, show MSG_BUF_LEN = carried + (MSG_BUF_LEN - carried) from rfl, read_add,
      hc _ _ (by decide) (by decide), hz _ _ (by decide), read_buf]
    exact text_take h
  simp only [msgThread, hm, hk, hp, ht, Option.bind_eq_bind, Option.bind_some, Option.pure_def]
  rw [if_neg]
  rintro ⟨hp, rfl⟩
  exact hp (if_pos rfl)

-- The request of `Call.msgBuf` is what is left of the bytes.
theorem task_msgBuf {c : Call} {n : ℕ} {f : Char → UInt8} (h : ∀ x ∈ c.args.buf, f x ≠ 0) :
    (msgThread (msgSend (c.args.buf.map f) recvKey ack m)).bind Received.task =
      some ((c.msgBuf n).buf.map f) := by
  rw [received_eq (by simpa using h), ← List.map_take]
  rfl

-- The text, the key and the pointer arrive as they were sent.
def Delivered (buf : List UInt8) (recvKey : BitVec 32) (ack : BitVec 64) (m : Memory UInt8) :
    Prop :=
  msgThread (msgSend buf recvKey ack m) =
    some { key := recvKey, ptr := ackPtr recvKey ack, task := some buf }

theorem delivered_iff (h : ∀ x ∈ buf, x ≠ 0) :
    Delivered buf recvKey ack m ↔ buf.length ≤ carried := by
  rw [Delivered, received_eq h]
  simp [List.take_eq_self_iff]

section

-- The longest text that arrives, and one more byte
theorem delivered_iff_witness :
    Delivered (.replicate 240 0x61) 0x5001 0x55aa0 (fun _ => 0xff) ∧
      ¬Delivered (.replicate 241 0x61) 0x5001 0x55aa0 fun _ => 0xff := by
  have h (n : ℕ) : ∀ x ∈ List.replicate n (0x61 : UInt8), x ≠ 0 := by
    intro x hx
    rw [List.eq_of_mem_replicate hx]
    decide
  rw [delivered_iff (h 240), delivered_iff (h 241), List.length_replicate, List.length_replicate]
  decide

theorem not_delivered :
    ¬∀ buf recvKey ack m, (∀ x ∈ buf, x ≠ 0) → buf.length < MSG_BUF_LEN →
      Delivered buf recvKey ack m := by
  intro h
  have hb : ∀ x ∈ List.replicate 241 (0x61 : UInt8), x ≠ 0 := by
    intro x hx
    rw [List.eq_of_mem_replicate hx]
    decide
  have hl : (List.replicate 241 (0x61 : UInt8)).length < MSG_BUF_LEN := by
    rw [List.length_replicate]
    decide
  have h := h _ 0x5001 0x55aa0 (fun _ => 0) hb hl
  rw [Delivered, received_eq hb, Option.some.injEq, Received.mk.injEq, Option.some.injEq,
    List.take_eq_self_iff, List.length_replicate] at h
  exact absurd h.right.right (by decide)

end

end Msg.Layout
