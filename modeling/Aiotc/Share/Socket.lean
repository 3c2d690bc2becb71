import Aiotc.Library.Memory
import Aiotc.Library.Script

-- share.cpp: `blockSend` and `blockRecv`, which pass on as many bytes as they are asked to over a
-- socket that takes and gives them in parts.

namespace Socket

open Memory

def EINTR : Int :=
  4

def EAGAIN : Int :=
  11

def EPIPE : Int :=
  32

def ECONNRESET : Int :=
  104

def TIME_OUT : Int :=
  1

-- What `send` and `recv` do: they fail, or there is room for (or there are) `room + 1` bytes.
inductive Outcome
  | moved (room : ℕ)
  | zero (errno : Int)
  | failed (errno : Int)

-- One iteration of a loop: what `select` returns, if the descriptor is set then, the call for it,
-- and what `callback` returns.
structure Event where
  select : Int
  isset : Bool := true
  outcome : Outcome := .zero 0
  callback : Int := 0

-- `waits` counts the calls of `select` that have timed out, `bytes` is what the kernel has
-- accepted.
structure Sending where
  maxx : Int
  sendedsize : ℕ := 0
  bytes : List UInt8 := []
  waits : ℕ := 0

structure Sent where
  ret : Int
  bytes : List UInt8
  waits : ℕ

def sendStep (src : Memory UInt8) (size : ℕ) (e : Event) (s : Sending) : Sending ⊕ Sent :=
  if e.select = -1 then
    .inr ⟨-6, s.bytes, s.waits⟩
  else if e.select = 0 then
    if s.maxx ≠ 0 then
      .inl { s with maxx := s.maxx - 1, waits := s.waits + 1 }
    else
      .inr ⟨-7, s.bytes, s.waits + 1⟩
  else if e.isset then
    match e.outcome with
    | .zero errno | .failed errno =>
      if errno = EPIPE ∨ errno = ECONNRESET then
        .inr ⟨-3, s.bytes, s.waits⟩
      else
        .inr ⟨-2, s.bytes, s.waits⟩
    | .moved room =>
      let k := min (room + 1) (size - s.sendedsize)
      let s := { s with
        sendedsize := s.sendedsize + k
        bytes := s.bytes ++ src.read s.sendedsize k }
      if s.sendedsize = size then .inr ⟨0, s.bytes, s.waits⟩ else .inl s
  else
    .inr ⟨-1, s.bytes, s.waits⟩

-- More iterations than there can be: each moves a byte or counts down.
def fuel (size : ℕ) (max : Int) : ℕ :=
  size + max.toNat + 1

def blockSend (src : Memory UInt8) (size : ℕ) (max : Int) (script : ℕ → Event) : Option Sent :=
  Script.run (sendStep src size) (fuel size max) script { maxx := max }

structure Receiving where
  maxx : Int
  recvedsize : ℕ := 0
  dst : Memory UInt8
  waits : ℕ := 0

-- `recvedsize` is what has been taken from the peer.
structure Received where
  ret : Int
  recvedsize : ℕ
  dst : Memory UInt8
  waits : ℕ

-- `peer` are the bytes that the peer delivers, and `callback` tells if there is one.
def recvStep (peer : Memory UInt8) (size : ℕ) (callback : Bool) (e : Event) (s : Receiving) :
    Receiving ⊕ Received :=
  if e.select > 0 then
    if e.isset then
      match e.outcome with
      | .zero _       => .inr ⟨-1, s.recvedsize, s.dst, s.waits⟩
      | .failed errno =>
        if errno = EAGAIN ∨ EINTR ≠ 0 then
          .inr ⟨2, s.recvedsize, s.dst, s.waits⟩
        else
          .inr ⟨-2, s.recvedsize, s.dst, s.waits⟩
      | .moved room   =>
        let k := min (room + 1) (size - s.recvedsize)
        let s := { s with
          recvedsize := s.recvedsize + k
          dst := s.dst.write s.recvedsize (peer.read s.recvedsize k) }
        if s.recvedsize = size then .inr ⟨0, s.recvedsize, s.dst, s.waits⟩ else .inl s
    else
      .inr ⟨-3, s.recvedsize, s.dst, s.waits⟩
  else if e.select = 0 then
    if callback ∧ e.callback ≠ 0 then
      .inr ⟨-4, s.recvedsize, s.dst, s.waits + 1⟩
    else if s.maxx ≠ 0 then
      .inl { s with maxx := s.maxx - 1, waits := s.waits + 1 }
    else
      .inr ⟨TIME_OUT, s.recvedsize, s.dst, s.waits + 1⟩
  else
    .inr ⟨-5, s.recvedsize, s.dst, s.waits⟩

def blockRecv (peer dst : Memory UInt8) (size : ℕ) (max : Int) (callback : Bool)
    (script : ℕ → Event) : Option Received :=
  Script.run (recvStep peer size callback) (fuel size max) script { maxx := max, dst := dst }

-- The bytes that the kernel has accepted are the first ones of `src`, and all of them only if the
-- call succeeds.
structure Sends (src : Memory UInt8) (size : ℕ) (max : Int) (r : Sent) : Prop where
  all    : r.ret = 0 → r.bytes = src.read 0 size
  part   : r.ret ≠ 0 → r.bytes <+: src.read 0 size ∧ r.bytes ≠ src.read 0 size
  waits  : r.waits ≤ max + 1

-- What was taken from the peer is at the start of `dst`, and the rest of `dst` is as it was.
structure Receives (peer dst : Memory UInt8) (size : ℕ) (max : Int) (r : Received) : Prop where
  all   : r.ret = 0 → r.recvedsize = size
  part  : r.ret ≠ 0 → r.recvedsize < size
  dst   : ∀ i, r.dst i = if i < r.recvedsize then peer i else dst i
  waits : r.waits ≤ max + 1

variable {src peer dst : Memory UInt8} {size : ℕ} {max : Int} {callback : Bool}

structure SendInv (src : Memory UInt8) (size : ℕ) (max : Int) (s : Sending) : Prop where
  size  : s.sendedsize < size
  bytes : s.bytes = src.read 0 s.sendedsize
  maxx  : 0 ≤ s.maxx
  waits : s.waits + s.maxx = max

namespace SendInv

variable {s : Sending} {e : Event}

-- The call returns before all has been sent.
theorem part (h : SendInv src size max s) {ret : Int} {waits : ℕ} (hr : ret ≠ 0)
    (hw : waits ≤ s.waits + 1) : Sends src size max ⟨ret, s.bytes, waits⟩ where
  all he := absurd he hr
  part _ := by
    have hlt := h.size
    have ⟨k, hk⟩ := Nat.exists_eq_add_of_le (Nat.le_of_lt hlt)
    constructor
    case left =>
      rw [h.bytes, hk, read_add]
      exact List.prefix_append _ _
    case right =>
      intro he
      have := congrArg List.length he
      simp only [h.bytes, length_read] at this
      omega
  waits := by
    have hx := h.maxx
    have hs := h.waits
    simp only
    omega

theorem step (h : SendInv src size max s) :
    Script.Does (SendInv src size max) (fun s => size - s.sendedsize + s.maxx.toNat)
      (Sends src size max) s (sendStep src size e s) := by
  have hlt := h.size
  have hx := h.maxx
  have hw := h.waits
  simp only [sendStep]
  split
  case isTrue => exact h.part (by decide) (Nat.le_succ _)
  case isFalse =>
    split
    case isTrue =>
      split
      case isFalse => exact h.part (by decide) (Nat.le_refl _)
      case isTrue hm =>
        refine ⟨⟨hlt, h.bytes, ?_, ?_⟩, ?_⟩ <;> simp only <;> omega
    case isFalse =>
      split
      case isFalse => exact h.part (by decide) (Nat.le_succ _)
      case isTrue =>
        split
        case h_3 room _ =>
          have hb : s.bytes ++ src.read s.sendedsize (min (room + 1) (size - s.sendedsize)) =
              src.read 0 (s.sendedsize + min (room + 1) (size - s.sendedsize)) := by
            rw [read_add, h.bytes, Nat.zero_add]
          simp only [hb]
          split
          case isTrue hs =>
            refine ⟨fun _ => by rw [hs], fun hr => absurd rfl hr, ?_⟩
            simp only
            omega
          case isFalse hs =>
            refine ⟨⟨?_, rfl, hx, hw⟩, ?_⟩ <;> simp only <;> omega
        all_goals split <;> exact h.part (by decide) (Nat.le_succ _)

end SendInv

structure RecvInv (peer dst : Memory UInt8) (size : ℕ) (max : Int) (s : Receiving) : Prop where
  size  : s.recvedsize < size
  dst   : ∀ i, s.dst i = if i < s.recvedsize then peer i else dst i
  maxx  : 0 ≤ s.maxx
  waits : s.waits + s.maxx = max

namespace RecvInv

variable {s : Receiving} {e : Event}

theorem part (h : RecvInv peer dst size max s) {ret : Int} {waits : ℕ} (hr : ret ≠ 0)
    (hw : waits ≤ s.waits + 1) :
    Receives peer dst size max ⟨ret, s.recvedsize, s.dst, waits⟩ where
  all he := absurd he hr
  part _ := h.size
  dst    := h.dst
  waits  := by
    have hx := h.maxx
    have hs := h.waits
    simp only
    omega

-- The next `k` bytes go behind those that are there.
theorem write (h : RecvInv peer dst size max s) (k i : ℕ) :
    s.dst.write s.recvedsize (peer.read s.recvedsize k) i =
      if i < s.recvedsize + k then peer i else dst i := by
  rw [write_read_apply, h.dst]
  by_cases hi : i < s.recvedsize
  case pos => simp [hi, Nat.lt_add_right k hi]
  case neg => simp [hi, Nat.le_of_not_lt hi]

theorem step (h : RecvInv peer dst size max s) :
    Script.Does (RecvInv peer dst size max) (fun s => size - s.recvedsize + s.maxx.toNat)
      (Receives peer dst size max) s (recvStep peer size callback e s) := by
  have hlt := h.size
  have hx := h.maxx
  have hw := h.waits
  simp only [recvStep]
  split
  case isTrue =>
    split
    case isFalse => exact h.part (by decide) (Nat.le_succ _)
    case isTrue =>
      split
      case h_1 => exact h.part (by decide) (Nat.le_succ _)
      case h_2 => split <;> exact h.part (by decide) (Nat.le_succ _)
      case h_3 room _ =>
        have hd := h.write (min (room + 1) (size - s.recvedsize))
        split
        case isTrue hs =>
          refine ⟨fun _ => hs, fun hr => absurd rfl hr, hd, ?_⟩
          simp only
          omega
        case isFalse hs =>
          refine ⟨⟨?_, hd, hx, hw⟩, ?_⟩ <;> simp only <;> omega
  case isFalse =>
    split
    case isFalse => exact h.part (by decide) (Nat.le_succ _)
    case isTrue =>
      split
      case isTrue => exact h.part (by decide) (Nat.le_refl _)
      case isFalse =>
        split
        case isFalse => exact h.part (by decide) (Nat.le_refl _)
        case isTrue hm =>
          refine ⟨⟨hlt, h.dst, ?_, ?_⟩, ?_⟩ <;> simp only <;> omega

end RecvInv

theorem blockSend_sends (hs : 1 ≤ size) (hm : 0 ≤ max) (src : Memory UInt8) (script : ℕ → Event) :
    ∃ r, blockSend src size max script = some r ∧ Sends src size max r :=
  Script.run_rule (SendInv src size max) (fun s => size - s.sendedsize + s.maxx.toNat)
    (Sends src size max) (fun _ _ h => h.step) script ⟨hs, rfl, hm, by simp⟩ (by simp [fuel])

theorem blockRecv_receives (hs : 1 ≤ size) (hm : 0 ≤ max) (peer dst : Memory UInt8)
    (callback : Bool) (script : ℕ → Event) :
    ∃ r, blockRecv peer dst size max callback script = some r ∧
      Receives peer dst size max r :=
  Script.run_rule (RecvInv peer dst size max) (fun s => size - s.recvedsize + s.maxx.toNat)
    (Receives peer dst size max) (fun _ _ h => h.step) script ⟨hs, by simp, hm, by simp⟩
    (by simp [fuel])

-- `select` times out, or some bytes are moved.
def Event.Fine (e : Event) : Prop :=
  e.select = 0 ∨ 0 < e.select ∧ e.isset ∧ ∃ room, e.outcome = .moved room

theorem SendInv.step_fine {s : Sending} {e : Event} (he : e.Fine) (h : SendInv src size max s) :
    Script.Does (SendInv src size max) (fun s => size - s.sendedsize + s.maxx.toNat)
      (fun r => r.ret = 0 ↔ r.waits ≤ max) s (sendStep src size e s) := by
  have hd := h.step (e := e)
  have hx := h.maxx
  have hw := h.waits
  rcases he with h₀ | ⟨hpos, hset, room, hout⟩
  case inl =>
    simp only [sendStep, h₀, if_neg (show ¬(0 : Int) = -1 by decide), if_true] at hd ⊢
    split at hd
    case isTrue hm  =>
      rw [if_pos hm]
      exact hd
    case isFalse hm =>
      rw [if_neg hm]
      exact iff_of_false (show (-7 : Int) ≠ 0 by decide) (by simp only; omega)
  case inr =>
    have h₁ : ¬e.select = -1 := by omega
    have h₀ : ¬e.select = 0 := by omega
    simp only [sendStep, if_neg h₁, if_neg h₀, hset, if_true, hout] at hd ⊢
    split at hd
    case isTrue hs  =>
      rw [if_pos hs]
      exact iff_of_true rfl (by simp only; omega)
    case isFalse hs =>
      rw [if_neg hs]
      exact hd

theorem RecvInv.step_fine {s : Receiving} {e : Event} (he : e.Fine ∧ (callback → e.callback = 0))
    (h : RecvInv peer dst size max s) :
    Script.Does (RecvInv peer dst size max) (fun s => size - s.recvedsize + s.maxx.toNat)
      (fun r => r.ret = 0 ↔ r.waits ≤ max) s (recvStep peer size callback e s) := by
  have hd : Script.Does (RecvInv peer dst size max) _ _ s (recvStep peer size callback e s) :=
    h.step
  have hx := h.maxx
  have hw := h.waits
  obtain ⟨h₀ | ⟨hpos, hset, room, hout⟩, hc⟩ := he
  case inl =>
    have hc : ¬(callback ∧ e.callback ≠ 0) := fun h => h.right (hc h.left)
    simp only [recvStep, h₀, gt_iff_lt, Int.lt_irrefl, if_false, if_true, if_neg hc] at hd ⊢
    split at hd
    case isTrue hm  =>
      rw [if_pos hm]
      exact hd
    case isFalse hm =>
      rw [if_neg hm]
      exact iff_of_false (show TIME_OUT ≠ 0 by decide) (by simp only; omega)
  case inr =>
    simp only [recvStep, gt_iff_lt, if_pos hpos, hset, if_true, hout] at hd ⊢
    split at hd
    case isTrue hs  =>
      rw [if_pos hs]
      exact iff_of_true rfl (by simp only; omega)
    case isFalse hs =>
      rw [if_neg hs]
      exact hd

-- On a socket that does not fail a call returns 0 exactly if it has not waited too often.
theorem ret_iff_waits (hs : 1 ≤ size) (hm : 0 ≤ max) (src peer dst : Memory UInt8)
    (callback : Bool) {script : ℕ → Event} (he : ∀ n, (script n).Fine)
    (hc : callback → ∀ n, (script n).callback = 0) :
    (∃ r, blockSend src size max script = some r ∧ (r.ret = 0 ↔ r.waits ≤ max)) ∧
    ∃ r, blockRecv peer dst size max callback script = some r ∧ (r.ret = 0 ↔ r.waits ≤ max) := by
  constructor
  · exact Script.run_rule_of Event.Fine (SendInv src size max)
      (fun s => size - s.sendedsize + s.maxx.toNat) _ (fun _ _ he h => h.step_fine he) he
      ⟨hs, rfl, hm, by simp⟩ (by simp [fuel])
  · exact Script.run_rule_of (fun e => e.Fine ∧ (callback → e.callback = 0))
      (RecvInv peer dst size max) (fun s => size - s.recvedsize + s.maxx.toNat) _
      (fun _ _ he h => h.step_fine he) (fun n => ⟨he n, fun h => hc h n⟩)
      ⟨hs, by simp, hm, by simp⟩ (by simp [fuel])

-- Both calls end, whatever parts the socket takes and gives, and what has been sent and received
-- as a whole is the same.
theorem transferred (hs : 1 ≤ size) (hm : 0 ≤ max) {max' : Int} (hm' : 0 ≤ max')
    (src peer dst : Memory UInt8) (callback : Bool) (script script' : ℕ → Event) :
    ∃ sent received, blockSend src size max script = some sent ∧ Sends src size max sent ∧
      blockRecv peer dst size max' callback script' = some received ∧
      Receives peer dst size max' received ∧
      (sent.ret = 0 → received.ret = 0 → peer.read 0 size = sent.bytes →
        received.dst.read 0 size = src.read 0 size) := by
  have ⟨sent, hsent, h⟩ := blockSend_sends hs hm src script
  have ⟨received, hreceived, h'⟩ := blockRecv_receives hs hm' peer dst callback script'
  refine ⟨sent, received, hsent, h, hreceived, h', fun hr hr' hp => ?_⟩
  rw [← h.all hr, ← hp]
  apply List.map_congr_left
  intro i hi
  have hi := (List.mem_range'_1.mp hi).right
  rw [h'.dst, h'.all hr', if_pos (by omega)]

section

def oneTwoThree : Memory UInt8 :=
  fun i => UInt8.ofNat (i + 1)

-- Two bytes, a wait that times out, and the rest.
def parts : ℕ → Event
  | 0 => { select := 1, outcome := .moved 1 }
  | 1 => { select := 0 }
  | _ => { select := 1, outcome := .moved 7 }

theorem transferred_witness :
    ∃ sent received, blockSend oneTwoThree 3 1 parts = some sent ∧
      blockRecv oneTwoThree (fun _ => 0) 3 2 false parts = some received ∧
      received.dst.read 0 3 = oneTwoThree.read 0 3 := by
  have ⟨sent, received, hs, _, hr, _, h⟩ := @transferred 3 1 (by decide) (by decide) 2 (by decide)
    oneTwoThree oneTwoThree (fun _ => 0) false parts parts
  refine ⟨sent, received, hs, hr, ?_⟩
  cases hs
  cases hr
  exact h rfl rfl rfl

end

end Socket
