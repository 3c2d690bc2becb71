import Mathlib.Data.List.TakeWhile
import Aiotc.Library.Run
import Aiotc.Shm.Basic

-- ffmpeg.cpp: `read_video_packet`, the one reader of the buffer of a camera, next to the thread
-- that fills the buffer. The blocks of the frames are the subject of `Readers`.

namespace ReadVideo

def nalType (bytes : List UInt8) : UInt8 :=
  bytes.getD 4 0 &&& 0x1f

-- A call. `buf` is what it has copied so far.
structure Call where
  size : Int
  buf : List UInt8 := []

-- A frame that was taken, with the size of the buffer of the call that took it.
structure Taking where
  bytes : List UInt8
  size : Int
  deriving DecidableEq

-- `accepted` are the frames that were put into the queue, `taken` those that have left it, and
-- `returned` is what the calls have returned.
structure State where
  shm : ShmParam (List UInt8)
  frameId : Int := 0
  findIDR : Bool := false
  running : Bool := true
  call : Option Call := none
  accepted : List (List UInt8) := []
  taken : List Taking := []
  returned : List (List UInt8) := []

-- A single reader has joined.
def init (type : CStr) : State where
  shm := { type := type, queue := { useMax := 1 } }

-- `copyToShm` by the callback of the stream.
def push (bytes : List UInt8) (type max : Int) (ptr node : Ptr) (s : State) : Option State :=
  if 5 ≤ bytes.length then
    let r := Shm.copyToShm bytes bytes.length (s.frameId + 1) type max ptr node s.shm
    let accepted := if r.1 = 0 then s.accepted ++ [bytes] else s.accepted
    some { s with shm := r.2, frameId := s.frameId + 1, accepted := accepted }
  else
    none

def call (size : Int) (s : State) : Option State :=
  match s.call with
  | none   => some { s with call := some { size := size } }
  | some _ => none

def State.return (c : Call) (s : State) : State :=
  { s with call := none, returned := s.returned ++ [c.buf] }

-- The end of the loop.
def State.next (c : Call) (s : State) : State :=
  if c.buf.length = 0 ∧ s.running then { s with call := some c } else s.return c

theorem State.next_of_ne {c : Call} {s : State} (h : c.buf ≠ []) : s.next c = s.return c :=
  if_neg fun hn => h (List.length_eq_zero_iff.mp hn.left)

-- One round of the loop.
def round (s : State) : Option State := do
  let c ← s.call
  let (t, shm) := Shm.copyFromShmWithUser 0 s.shm
  match t with
  | none   => return s.next c
  | some t =>
    let s : State := { s with shm := shm, taken := s.taken ++ [⟨t.frame.buf, c.size⟩] }
    let copied := { c with buf := c.buf ++ t.frame.buf }
    if s.findIDR then
      if c.buf.length + t.frame.size < c.size then
        return s.next copied
      else
        return s.return c
    else if nalType t.frame.buf ≠ 1 then
      let s : State := { s with findIDR := true }
      if c.buf.length + t.frame.size < c.size then
        return s.next copied
      else
        return s.next c
    else
      return s.next c

inductive Label
  | push (bytes : List UInt8) (type max : Int) (ptr node : Ptr)
  | call (size : Int)
  | round
  | setRunning (running : Bool)

def exec : Label → State → Option State
  | .push bytes type max ptr node, s => push bytes type max ptr node s
  | .call size, s                    => call size s
  | .round, s                        => round s
  | .setRunning running, s           => some { s with running := running }

def Step (s : State) (l : Label) (s' : State) : Prop :=
  exec l s = some s'

section Kept

variable {l l₁ l₂ : List Taking} {x : Taking}

def Taking.Fits (x : Taking) : Prop :=
  x.bytes.length < x.size

instance : Decidable x.Fits :=
  inferInstanceAs (Decidable (_ < _))

-- The frames that are passed on: from the first one that is no plain slice, those that fit.
def kept (l : List Taking) : List Taking :=
  (l.dropWhile fun x => nalType x.bytes = 1).filter fun x => x.Fits

-- Nothing but plain slices so far.
def Plain (l : List Taking) : Prop :=
  ∀ x ∈ l, nalType x.bytes = 1

theorem kept_of_plain (h : Plain l) : kept l = [] := by
  rw [kept, List.dropWhile_eq_nil_iff.mpr (by simpa [Plain] using h), List.filter_nil]

-- The next frame, unless it is another plain slice before the first one of another kind.
theorem kept_concat (h : ¬(Plain l ∧ nalType x.bytes = 1)) :
    kept (l ++ [x]) = kept l ++ if x.Fits then [x] else [] := by
  have hf : [x].filter (fun x => x.Fits) = if x.Fits then [x] else [] := by
    by_cases hx : x.Fits <;> simp [hx]
  by_cases hp : Plain l
  case pos =>
    have hx : nalType x.bytes ≠ 1 := fun hx => h ⟨hp, hx⟩
    rw [kept_of_plain hp, kept, List.dropWhile_append_of_pos (by simpa [Plain] using hp),
      List.dropWhile_cons_of_neg (by simpa using hx), hf, List.nil_append]
  case neg =>
    have hn : l.dropWhile (fun x => nalType x.bytes = 1) ≠ [] := by
      rw [Ne, List.dropWhile_eq_nil_iff]
      simpa [Plain] using hp
    rw [kept, kept, List.dropWhile_append, if_neg (by simpa using hn), List.filter_append, hf]

theorem plain_concat : Plain (l ++ [x]) ↔ Plain l ∧ nalType x.bytes = 1 := by
  simp [Plain, or_imp, forall_and]

theorem kept_concat_of_fits (h : ¬(Plain l ∧ nalType x.bytes = 1)) (hx : x.Fits) :
    kept (l ++ [x]) = kept l ++ [x] := by
  rw [kept_concat h, if_pos hx]

theorem kept_concat_of_not (h : (Plain l ∧ nalType x.bytes = 1) ∨ ¬x.Fits) :
    kept (l ++ [x]) = kept l := by
  by_cases hp : Plain l ∧ nalType x.bytes = 1
  case pos => rw [kept_of_plain hp.left, kept_of_plain (plain_concat.mpr hp)]
  case neg => rw [kept_concat hp, if_neg (h.resolve_left hp), List.append_nil]

theorem kept_sublist : (kept l).Sublist l :=
  List.filter_sublist.trans (List.dropWhile_sublist _)

-- After the first frame that is passed on all that fit are.
theorem kept_eq_cons (h : kept l = x :: l₂) :
    ∃ l₁ l₃, l = l₁ ++ x :: l₃ ∧ l₂ = l₃.filter fun x => x.Fits := by
  have ⟨m, l₃, hd, _, _, hf⟩ := List.filter_eq_cons_iff.mp h
  have hl := List.takeWhile_append_dropWhile (p := fun x => nalType x.bytes = 1) (l := l)
  rw [hd, ← List.append_assoc] at hl
  exact ⟨_, l₃, hl.symm, hf.symm⟩

end Kept

-- A frame that waits in the queue. It has not been taken.
structure Queued (x : Addr × NodeData (ShmFrame (List UInt8))) : Prop where
  frameId : 0 < x.2.name.frameId
  size    : x.2.name.size = x.2.name.buf.length
  long    : 5 ≤ x.2.name.buf.length
  val     : x.2.val = 0

structure Inv (s : State) : Prop where
  useMax   : s.shm.queue.useMax = 1
  queued   : ∀ x ∈ s.shm.queue.nodes, Queued x
  order    : s.taken.map Taking.bytes ++ s.shm.queue.nodes.map (·.2.name.buf) = s.accepted
  findIDR  : s.findIDR = true ↔ ¬Plain s.taken
  returned : s.returned.filter (!·.isEmpty) = (kept s.taken).map Taking.bytes
  call     : ∀ c ∈ s.call, c.buf = []
  frameId  : 0 ≤ s.frameId

variable {s s' : State} {tr : List (State × Label)} {type : CStr} {i : Label} {c : Call}

theorem Inv.init : Inv (init type) where
  useMax   := rfl
  queued   := nofun
  order    := rfl
  findIDR  := by simp [ReadVideo.init, Plain]
  returned := rfl
  call     := nofun
  frameId  := Int.le_refl 0

namespace Inv

-- The reader takes the first frame, which leaves the queue with it.
theorem copyFromShmWithUser_cases (h : Inv s) :
    Shm.copyFromShmWithUser 0 s.shm = (none, s.shm) ∨
      ∃ a d vs, s.shm.queue.nodes = (a, d) :: vs ∧
        Shm.copyFromShmWithUser 0 s.shm =
          (some ⟨a, d.name, 1⟩, { s.shm with queue := { s.shm.queue with nodes := vs } }) := by
  rcases Shm.copyFromShmWithUser_cases 0 s.shm with ⟨_, hn⟩ | ⟨us, a, d, vs, hn, hu, _, hc⟩
  · exact .inl hn
  · have hus : us = [] := by
      apply List.eq_nil_iff_forall_not_mem.mpr
      intro x hx
      have hx' : x ∈ s.shm.queue.nodes := by
        rw [hn]
        exact List.mem_append_left _ hx
      exact absurd (h.queued x hx').frameId (Int.not_lt.mpr (hu x hx))
    subst hus
    have hd : Queued (a, d) := h.queued _ (by rw [hn]; exact List.mem_cons_self)
    right
    refine ⟨a, d, vs, hn, ?_⟩
    have hv : d.val = 0 := hd.val
    rw [hc, h.useMax, if_pos (by simp [hv]), List.nil_append]

theorem push {bytes : List UInt8} {type max : Int} {ptr node : Ptr} (h : Inv s)
    (e : ReadVideo.push bytes type max ptr node s = some s') : Inv s' := by
  simp only [ReadVideo.push, Option.ite_none_right_eq_some, Option.some.injEq] at e
  have ⟨hl, e⟩ := e
  subst e
  have hf := h.frameId
  have hsame : Inv { s with frameId := s.frameId + 1 } := { h with frameId := by simp; omega }
  cases ptr
  case none => exact hsame
  case some p =>
    rcases Shm.copyToShm_cases bytes bytes.length (s.frameId + 1) type max p node s.shm with
      ⟨hr, hs⟩ | ⟨a, rfl, hr⟩
    · simpa [hr, hs] using hsame
    · rw [hr]
      exact { h with
        useMax   := h.useMax
        queued   := by
          intro x hx
          rcases List.mem_append.mp hx with hx | hx
          · exact h.queued x hx
          · rw [List.mem_singleton.mp hx]
            exact ⟨by simp; omega, rfl, hl, rfl⟩
        order    := by simp [← h.order]
        frameId  := by simp; omega }

-- Nothing has been copied yet.
theorem idle (h : Inv s) (hb : c.buf = []) : Inv (s.return c) ∧ Inv (s.next c) := by
  have hr : Inv (s.return c) := { h with
    returned := by simpa [State.return, hb] using h.returned
    call     := nofun }
  constructor
  case left  => exact hr
  case right =>
    rw [State.next]
    split
    · exact { h with call := by rintro _ ⟨⟩; exact hb }
    · exact hr

section Taken

variable {a : Addr} {d : NodeData (ShmFrame (List UInt8))}
  {vs : List (Addr × NodeData (ShmFrame (List UInt8)))} {x : Taking} {findIDR : Bool}

-- A frame leaves the queue, and is passed on if `kept` says so.
theorem take {returned : List (List UInt8)} {call : Option Call} (h : Inv s)
    (hn : s.shm.queue.nodes = (a, d) :: vs) (hx : x.bytes = d.name.buf)
    (hf : findIDR = true ↔ ¬Plain (s.taken ++ [x]))
    (hr : returned.filter (!·.isEmpty) = (kept (s.taken ++ [x])).map Taking.bytes)
    (hc : ∀ c ∈ call, c.buf = []) :
    Inv { s with
      shm := { s.shm with queue := { s.shm.queue with nodes := vs } }
      taken := s.taken ++ [x], findIDR := findIDR, returned := returned, call := call } where
  useMax   := h.useMax
  queued y hy := h.queued y (hn ▸ List.mem_cons_of_mem _ hy)
  order    := by
    have ho := h.order
    rw [hn] at ho
    simpa [hx] using ho
  findIDR  := hf
  returned := hr
  call     := hc
  frameId  := h.frameId

-- The call returns with the frame.
theorem passed (h : Inv s) (hn : s.shm.queue.nodes = (a, d) :: vs) (hx : x.bytes = d.name.buf)
    (hl : x.bytes ≠ []) (hp : ¬(Plain s.taken ∧ nalType x.bytes = 1)) (hfit : x.Fits)
    (hb : c.buf = x.bytes) :
    Inv (State.next c { s with
      shm := { s.shm with queue := { s.shm.queue with nodes := vs } }
      taken := s.taken ++ [x], findIDR := true }) := by
  rw [State.next_of_ne (hb ▸ hl)]
  refine h.take hn hx (iff_of_true rfl (mt plain_concat.mp hp)) ?_ nofun
  simp [h.returned, kept_concat_of_fits hp hfit, hb, hl]

-- The frame is lost to the reader.
theorem skipped (h : Inv s) (hn : s.shm.queue.nodes = (a, d) :: vs) (hx : x.bytes = d.name.buf)
    (hf : findIDR = true ↔ ¬Plain (s.taken ++ [x]))
    (hk : (Plain s.taken ∧ nalType x.bytes = 1) ∨ ¬x.Fits) :
    Inv { s with
      shm := { s.shm with queue := { s.shm.queue with nodes := vs } }
      taken := s.taken ++ [x], findIDR := findIDR } :=
  h.take hn hx hf (kept_concat_of_not hk ▸ h.returned) h.call

end Taken

theorem round (h : Inv s) (e : ReadVideo.round s = some s') : Inv s' := by
  have ⟨c, hc, e⟩ := Option.bind_eq_some_iff.mp e
  have hb := h.call c hc
  rcases h.copyFromShmWithUser_cases with hn | ⟨a, d, vs, hn, ht⟩
  case inl =>
    simp only [hn, Option.pure_def, Option.some.injEq] at e
    exact e ▸ (h.idle hb).right
  case inr =>
    have hd : Queued (a, d) := h.queued _ (by rw [hn]; exact List.mem_cons_self)
    have hl : d.name.buf ≠ [] := List.ne_nil_of_length_pos (Nat.lt_of_lt_of_le (by decide) hd.long)
    have hs : d.name.size = d.name.buf.length := hd.size
    simp only [ht, hb, hs, List.length_nil, Int.natCast_zero, Int.zero_add, List.nil_append,
      Option.pure_def] at e
    let x : Taking := ⟨d.name.buf, c.size⟩
    have hw : ¬(Plain s.taken ∧ nalType x.bytes = 1) → (true = true ↔ ¬Plain (s.taken ++ [x])) :=
      fun hp => iff_of_true rfl (mt plain_concat.mp hp)
    cases hi : s.findIDR <;> simp only [hi, if_true, if_false, Bool.false_eq_true] at e
    case true =>
      have hp : ¬(Plain s.taken ∧ nalType x.bytes = 1) := fun hp => h.findIDR.mp hi hp.left
      by_cases hx : (d.name.buf.length : Int) < c.size
      case pos =>
        rw [if_pos hx, Option.some.injEq] at e
        exact e ▸ h.passed hn rfl hl hp hx rfl
      case neg =>
        rw [if_neg hx, Option.some.injEq] at e
        exact e ▸ ((h.skipped hn rfl (hw hp) (.inr hx)).idle hb).left
    case false =>
      have hp : Plain s.taken := by
        by_contra hp
        simp [h.findIDR.mpr hp] at hi
      by_cases ht : nalType d.name.buf = 1
      case pos =>
        have hf : false = true ↔ ¬Plain (s.taken ++ [x]) :=
          iff_of_false (by decide) (not_not.mpr (plain_concat.mpr ⟨hp, ht⟩))
        rw [if_neg (not_not.mpr ht), Option.some.injEq] at e
        exact e ▸ ((h.skipped hn rfl hf (.inl ⟨hp, ht⟩)).idle hb).right
      case neg =>
        have hp : ¬(Plain s.taken ∧ nalType x.bytes = 1) := fun hp => ht hp.right
        rw [if_pos ht] at e
        by_cases hx : (d.name.buf.length : Int) < c.size
        case pos =>
          rw [if_pos hx, Option.some.injEq] at e
          exact e ▸ h.passed hn rfl hl hp hx rfl
        case neg =>
          rw [if_neg hx, Option.some.injEq] at e
          exact e ▸ ((h.skipped hn rfl (hw hp) (.inr hx)).idle hb).right

theorem step (h : Inv s) (e : Step s i s') : Inv s' := by
  cases i
  case push => exact h.push e
  case call size =>
    simp only [Step, exec, ReadVideo.call] at e
    split at e
    · cases e
      exact { h with call := by rintro _ ⟨⟩; rfl }
    · cases e
  case round      => exact h.round e
  case setRunning =>
    cases e
    exact { h with }

theorem of_run (r : Run Step (ReadVideo.init type) tr s) : Inv s :=
  r.invariant (fun _ _ _ h e => h.step e) .init

end Inv

-- What is returned are the frames of `R`, each by a call of its own.
structure Stream (s : State) (R : List Taking) : Prop where
  bytes    : s.returned.flatten = (R.map Taking.bytes).flatten
  whole    : s.returned.filter (!·.isEmpty) = R.map Taking.bytes
  sublist  : (R.map Taking.bytes).Sublist s.accepted
  head     : ∀ x ∈ R.head?, nalType x.bytes ≠ 1
  complete : ∀ x R', R = x :: R' → ∃ l₁ l₂, s.taken = l₁ ++ x :: l₂ ∧ R' = l₂.filter (·.Fits)

-- Of the frames from the first one that is no plain slice, the first that fits is no plain slice
-- either.
def KeyFits (l : List Taking) : Prop :=
  ∀ x ∈ (l.dropWhile fun x => nalType x.bytes = 1).find? (·.Fits), nalType x.bytes ≠ 1

instance {l : List Taking} : Decidable (KeyFits l) :=
  inferInstanceAs (Decidable (∀ x ∈ List.find? _ _, _))

theorem keyFits_iff {l : List Taking} : KeyFits l ↔ ∀ x ∈ (kept l).head?, nalType x.bytes ≠ 1 := by
  rw [KeyFits, kept, List.head?_filter]

theorem Inv.stream (h : Inv s) (hk : KeyFits s.taken) : Stream s (kept s.taken) where
  bytes        := by rw [← List.flatten_filter_not_isEmpty, h.returned]
  whole        := h.returned
  sublist      := by
    rw [← h.order]
    exact (kept_sublist.map _).trans (List.sublist_append_left _ _)
  head         := keyFits_iff.mp hk
  complete _ _ := kept_eq_cons

theorem Stream.keyFits {R : List Taking} (hs : Stream s R) (h : Inv s) : KeyFits s.taken := by
  rw [keyFits_iff]
  intro x hx
  have hm := hs.whole.symm.trans h.returned
  have ⟨t, ht⟩ := List.head?_eq_some_iff.mp hx
  rw [ht, List.map_cons, List.map_eq_cons_iff] at hm
  have ⟨y, R', hR, hy, _⟩ := hm
  exact hy ▸ hs.head y (by simp [hR])

theorem stream_iff (r : Run Step (init type) tr s) : (∃ R, Stream s R) ↔ KeyFits s.taken := by
  have h := Inv.of_run r
  constructor
  case mp  => exact fun ⟨_, hs⟩ => hs.keyFits h
  case mpr => exact fun hk => ⟨_, h.stream hk⟩

section

-- A key frame of ten bytes and a slice of six.
def pushed : List Label :=
  [.push [0, 0, 0, 1, 0x65, 1, 2, 3, 4, 5] 0 25 (some 1) (some 2),
    .push [0, 0, 0, 1, 0x41, 7] 0 25 (some 3) (some 4)]

theorem stream_iff_witness :
    ∃ s, Run Step (init "video")
        (Run.partialTrace exec (pushed ++ [.call 16, .round, .call 16, .round]) (init "video")) s ∧
      ∃ R, Stream s R := by
  have ⟨s, r, hs⟩ := Run.exists_partialTrace exec (pushed ++ [.call 16, .round, .call 16, .round])
    (init "video") (fun s => KeyFits s.taken) (by decide)
  exact ⟨s, r, (stream_iff r).mpr (of_decide_eq_true hs)⟩

-- The key frame is too large for the buffer, and the slice is returned without it.
theorem not_stream :
    ¬∀ (type : CStr) (tr : List (State × Label)) (s : State),
      Run Step (init type) tr s → ∃ R, Stream s R := by
  intro h
  have ⟨s, r, hs⟩ := Run.exists_partialTrace exec (pushed ++ [.call 8, .round, .round])
    (init "video") (fun s => ¬KeyFits s.taken) (by decide)
  have ⟨R, hR⟩ := h _ _ s r
  exact of_decide_eq_true hs (hR.keyFits (.of_run r))

end

end ReadVideo
