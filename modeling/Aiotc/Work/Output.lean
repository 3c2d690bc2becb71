import Mathlib.Logic.Function.Basic
import Aiotc.Library.Run
import Aiotc.Share.Json
import Aiotc.Share.Queue

-- work.cpp: the messages that `copyToMqQueue` queues and `output_thread` publishes.

open Queue

-- Where a caller of `copyToMqQueue` is: its copy of the text waits for `mutex_out`, `mutex_out` is
-- held, the node is queued or refused.
inductive MqCaller
  | idle
  | copied (json : CStr)
  | locked (json : CStr)
  | put (ret : Int)

-- `sent` is behind the call of `sendMsg2Mq` or `mqOpen`, in front of the two of `shmFree`. It keeps
-- if the message was published.
inductive OutputThread
  | start
  | loop
  | locked
  | got (p : Option CStr)
  | sending (json : CStr)
  | sent (json : CStr) (published : Bool)
  | over

structure Output where
  mutexOut : Bool := true
  pOutQueue : List CStr := []
  mqConn : Bool := false
  thread : OutputThread := .start
  callers : Nat → MqCaller := fun _ => .idle
  accepted : List CStr := []
  published : List CStr := []

namespace Output

-- `malloc` is the outcome of the allocation that the caller is at, `ok` that of what the thread
-- asks the broker for.
inductive Label
  | copy (i : Nat) (json : CStr) (malloc : Bool)
  | output (ok : Bool)
  | stop

def setCaller (i : Nat) (c : MqCaller) (s : Output) : Output :=
  { s with callers := Function.update s.callers i c }

def copyToMqQueue (i : Nat) (json : CStr) (malloc : Bool) (s : Output) : Option Output :=
  match s.callers i with
  | .idle        => some (if malloc then setCaller i (.copied json) s else s)
  | .copied json =>
    if s.mutexOut then some (setCaller i (.locked json) { s with mutexOut := false }) else none
  | .locked json =>
    let (ret, q) := putToShmQueue json 1000 malloc s.pOutQueue
    let accepted := if ret = 0 then s.accepted ++ [json] else s.accepted
    some (setCaller i (.put ret) { s with pOutQueue := q, accepted := accepted })
  | .put _       => some (setCaller i .idle { s with mutexOut := true })

-- `mqSendMsg` is followed by `mqCloseConnect` where it fails.
def sendMsg2Mq (ok : Bool) (json : CStr) (s : Output) : Output :=
  if ok then
    { s with published := s.published ++ [json] }
  else
    { s with mqConn := false }

def mqOpen (ok : Bool) (s : Output) : Output :=
  { s with mqConn := ok }

def outputThread (ok : Bool) (s : Output) : Option Output :=
  match s.thread with
  | .start        => some { mqOpen ok s with thread := .loop }
  | .loop         =>
    if s.mutexOut then some { s with mutexOut := false, thread := .locked } else none
  | .locked       =>
    let (p, q) := getFromQueue s.pOutQueue
    some { s with pOutQueue := q, thread := .got p }
  | .got none     => some { s with mutexOut := true, thread := .loop }
  | .got (some p) => some { s with mutexOut := true, thread := .sending p }
  | .sending json =>
    if s.mqConn then
      some { sendMsg2Mq ok json s with thread := .sent json ok }
    else
      some { mqOpen ok s with thread := .sent json false }
  | .sent _ _     => some { s with thread := .loop }
  | .over         => none

def exec : Label → Output → Option Output
  | .copy i json malloc, s => copyToMqQueue i json malloc s
  | .output ok, s          => outputThread ok s
  | .stop, s               =>
    match s.thread with
    | .loop => some { s with thread := .over }
    | _     => none

def Step (s : Output) (l : Label) (s' : Output) : Prop :=
  exec l s = some s'

-- The message that the iteration holds, as long as it was not published.
def held (s : Output) : List CStr :=
  match s.thread with
  | .got (some json)  => [json]
  | .sending json     => [json]
  | .sent json false  => [json]
  | _                 => []

-- The messages are published in the order in which they were accepted, the others are held by the
-- iteration and queued.
def Conserved (s : Output) : Prop :=
  s.accepted = s.published ++ s.held ++ s.pOutQueue

-- There is a connection for each message, and it is published.
def Sends (s : Output) (l : Label) : Prop :=
  ∀ ok json, l = .output ok → s.thread = .sending json → s.mqConn = true ∧ ok = true

-- The same without a message that is about to be freed although it was not published.
def flight (s : Output) : List CStr :=
  match s.thread with
  | .got (some json) => [json]
  | .sending json    => [json]
  | _                => []

-- The messages that were dropped.
def lost (s : Output) : Nat :=
  s.accepted.length - (s.published ++ s.flight ++ s.pOutQueue).length

variable {s s' : Output} {l : Label} {i : Nat} {json : CStr} {malloc ok : Bool}

-- A step that moves messages on, and one that drops a message.

structure Moves (s s' : Output) : Prop where
  exists_new : ∃ new out, s'.accepted = s.accepted ++ new ∧ s'.published = s.published ++ out ∧
    s.flight ++ s.pOutQueue ++ new = out ++ s'.flight ++ s'.pOutQueue
  held       : s.held = s.flight → s'.held = s'.flight

structure Drops (s s' : Output) : Prop where
  accepted     : s'.accepted = s.accepted
  published    : s'.published = s.published
  exists_json : ∃ json, s.flight = [json] ∧ s'.flight = [] ∧ s'.pOutQueue = s.pOutQueue

theorem Moves.same (ha : s'.accepted = s.accepted) (hp : s'.published = s.published)
    (hf : s'.flight = s.flight) (hq : s'.pOutQueue = s.pOutQueue)
    (hh : s.held = s.flight → s'.held = s'.flight) : Moves s s' :=
  ⟨⟨[], [], by simp [ha], by simp [hp], by simp [hf, hq]⟩, hh⟩

theorem copyToMqQueue_moves (e : copyToMqQueue i json malloc s = some s') : Moves s s' := by
  simp only [copyToMqQueue] at e
  split at e
  case h_1 =>
    cases e
    split <;> exact .same rfl rfl rfl rfl fun h => h
  case h_2 =>
    split at e <;> cases e
    exact .same rfl rfl rfl rfl fun h => h
  case h_3 text _ =>
    cases e
    rcases putToShmQueue_cases text 1000 malloc s.pOutQueue with ⟨-, hq⟩ | ⟨-, hq⟩
    · rw [hq]
      exact ⟨⟨[text], [], rfl, by simp [setCaller], by simp [setCaller, flight]⟩, fun h => h⟩
    · rw [hq]
      exact .same rfl rfl rfl rfl fun h => h
  case h_4 =>
    cases e
    exact .same rfl rfl rfl rfl fun h => h

theorem sends_of_not_sending (h : ∀ json, s.thread ≠ .sending json) : Sends s l :=
  fun _ json _ ht => absurd ht (h json)

theorem outputThread_cases (e : outputThread ok s = some s') :
    Sends s (.output ok) ∧ Moves s s' ∨ ¬Sends s (.output ok) ∧ Drops s s' := by
  simp only [outputThread] at e
  split at e
  case h_1 ht =>
    cases e
    exact .inl ⟨sends_of_not_sending (by simp [ht]), .same rfl rfl (by simp [flight, ht]) rfl
      fun _ => rfl⟩
  case h_2 ht =>
    split at e <;> cases e
    exact .inl ⟨sends_of_not_sending (by simp [ht]), .same rfl rfl (by simp [flight, ht]) rfl
      fun _ => rfl⟩
  case h_3 ht =>
    cases e
    refine .inl ⟨sends_of_not_sending (by simp [ht]), ⟨[], [], by simp, by simp, ?_⟩, fun _ => ?_⟩
    all_goals cases hq : s.pOutQueue <;> simp [getFromQueue, flight, held, ht]
  case h_4 ht =>
    cases e
    exact .inl ⟨sends_of_not_sending (by simp [ht]), .same rfl rfl (by simp [flight, ht]) rfl
      fun _ => rfl⟩
  case h_5 ht =>
    cases e
    exact .inl ⟨sends_of_not_sending (by simp [ht]), .same rfl rfl (by simp [flight, ht]) rfl
      fun _ => rfl⟩
  case h_6 json ht =>
    have hf : s.flight = [json] := by simp [flight, ht]
    split at e <;> cases e
    case isTrue hc =>
      cases ok
      case true  =>
        refine .inl ⟨fun _ _ hl _ => ?_, ⟨[], [json], by simp [sendMsg2Mq], rfl, ?_⟩, fun _ => rfl⟩
        · cases hl
          exact ⟨hc, rfl⟩
        · rw [hf, List.append_nil]
          rfl
      case false =>
        exact .inr ⟨fun h => Bool.noConfusion (h _ _ rfl ht).right, rfl, rfl, json, hf, rfl, rfl⟩
    case isFalse hc =>
      exact .inr ⟨fun h => hc (h _ _ rfl ht).left, rfl, rfl, json, hf, rfl, rfl⟩
  case h_7 ht =>
    cases e
    exact .inl ⟨sends_of_not_sending (by simp [ht]), .same rfl rfl (by simp [flight, ht]) rfl
      fun _ => rfl⟩
  case h_8 => cases e

theorem Step.cases (e : Step s l s') : Sends s l ∧ Moves s s' ∨ ¬Sends s l ∧ Drops s s' := by
  cases l
  case output => exact outputThread_cases e
  case copy i json malloc =>
    have e : copyToMqQueue i json malloc s = some s' := e
    refine .inl ⟨fun _ _ hl _ => ?_, copyToMqQueue_moves e⟩
    cases hl
  case stop   =>
    simp only [Step, exec] at e
    split at e <;> cases e
    case h_1 ht =>
      exact .inl ⟨sends_of_not_sending (by simp [ht]), .same rfl rfl (by simp [flight, ht]) rfl
        fun _ => rfl⟩

-- What was taken from the queue, of which some was published.
structure Inv (s : Output) : Prop where
  exists_taken : ∃ taken, s.accepted = taken ++ s.flight ++ s.pOutQueue ∧
    s.published.Sublist taken

theorem Moves.inv (h : Inv s) (hm : Moves s s') : Inv s' := by
  have ⟨taken, ha, hs⟩ := h.exists_taken
  have ⟨new, out, ha', hp, hf⟩ := hm.exists_new
  refine ⟨taken ++ out, ?_, hp ▸ hs.append (.refl out)⟩
  calc s'.accepted
    _ = taken ++ (s.flight ++ s.pOutQueue ++ new)       := by simp [ha', ha]
    _ = taken ++ out ++ s'.flight ++ s'.pOutQueue := by simp [hf]

theorem Drops.inv (h : Inv s) (hd : Drops s s') : Inv s' := by
  have ⟨taken, ha, hs⟩ := h.exists_taken
  have ⟨json, hf, hf', hq⟩ := hd.exists_json
  refine ⟨taken ++ [json], ?_, ?_⟩
  · simp [hd.accepted, ha, hf, hf', hq]
  · exact hd.published ▸ hs.trans (List.sublist_append_left taken [json])

theorem Step.inv (h : Inv s) (e : Step s l s') : Inv s' := by
  rcases e.cases with ⟨-, hm⟩ | ⟨-, hd⟩
  · exact hm.inv h
  · exact hd.inv h

theorem Inv.lost_eq_zero_iff (h : Inv s) :
    s.lost = 0 ↔ s.accepted = s.published ++ s.flight ++ s.pOutQueue := by
  have ⟨taken, ha, hs⟩ := h.exists_taken
  constructor
  case mpr => exact fun he => by simp [lost, he]
  case mp =>
    intro hl
    have hle : taken.length ≤ s.published.length := by
      simp only [lost, ha, List.length_append] at hl
      omega
    rw [ha, hs.eq_of_length_le hle]

theorem Moves.lost (hm : Moves s s') : s'.lost = s.lost := by
  have ⟨new, out, ha, hp, hf⟩ := hm.exists_new
  have hl := congrArg List.length hf
  simp only [List.length_append] at hl
  simp only [Output.lost, ha, hp, List.length_append]
  omega

theorem Drops.lost (h : Inv s) (hd : Drops s s') : s.lost < s'.lost := by
  have ⟨taken, ha, hs⟩ := h.exists_taken
  have ⟨json, hf, hf', hq⟩ := hd.exists_json
  have hl := hs.length_le
  simp only [Output.lost, hd.accepted, hd.published, ha, hf, hf', hq, List.length_append,
    List.length_cons, List.length_nil]
  omega

-- A process that has nothing queued yet.
structure Init (s : Output) : Prop where
  thread    : s.thread = .start
  queue     : s.pOutQueue = []
  accepted  : s.accepted = []
  published : s.published = []

theorem Init.inv (h : Init s) : Inv s :=
  ⟨[], by simp [h.accepted, flight, h.thread, h.queue], by simp [h.published]⟩

-- Nothing is lost as long as there is a connection for each message and it can be published. After
-- the iteration of a message for which this is not so, there is something lost.
theorem conserved_iff_sends {tr : List (Output × Label)} (h : Init s) (r : Run Step s tr s') :
    (Run.Meets Sends tr → Run.Always Conserved tr s') ∧
    (s'.thread = .loop → Conserved s' → Run.Meets Sends tr) := by
  have hl : s.lost = 0 := by simp [lost, h.accepted]
  constructor
  case left =>
    intro hs
    have ha := r.always_of_meets (C := Sends)
      (I := fun s => (Inv s ∧ s.lost = 0) ∧ s.held = s.flight) ?_ ?_ hs
    · exact ha.mono fun s ⟨⟨hi, hl⟩, hh⟩ => by rw [Conserved, hh]; exact hi.lost_eq_zero_iff.mp hl
    · intro s l s' ⟨⟨hi, hl⟩, hh⟩ hs e
      have hm := (e.cases.resolve_right fun hn => hn.left hs).right
      exact ⟨⟨e.inv hi, hm.lost.trans hl⟩, hm.held hh⟩
    · exact ⟨⟨h.inv, hl⟩, by simp [held, flight, h.thread]⟩
  case right =>
    intro ht hc
    have hi := r.invariant (fun _ _ _ h e => Step.inv h e) h.inv
    have hl' : s'.lost = 0 := by
      apply hi.lost_eq_zero_iff.mpr
      simpa [Conserved, held, flight, ht] using hc
    refine ((r.measure_eq_iff_meets (fun _ _ _ h e => Step.inv h e) ?_ ?_ h.inv).right).mp
      (hl'.trans hl.symm)
    · exact fun _ _ _ _ e hs => (e.cases.resolve_right fun hn => hn.left hs).right.lost
    · exact fun _ _ _ h e hn => (e.cases.resolve_left fun hs => hn hs.left).right.lost h

-- Whatever is lost, nothing is published twice or too early.
theorem published_sublist {tr : List (Output × Label)} (h : Init s) (r : Run Step s tr s') :
    s'.published.Sublist s'.accepted := by
  have ⟨taken, ha, hs⟩ := (r.invariant (fun _ _ _ h e => Step.inv h e) h.inv).exists_taken
  rw [ha, List.append_assoc]
  exact hs.trans (List.sublist_append_left taken _)

section

instance : Decidable (Conserved s) :=
  inferInstanceAs (Decidable (_ = _))

-- A caller queues a text while the thread connects to the broker, the thread takes it and publishes
-- it if the broker answers.
def carried (ok : Bool) : List Label :=
  [.output ok, .copy 0 "a" true, .copy 0 [] true, .copy 0 [] true, .copy 0 [] true,
    .output true, .output true, .output true, .output true, .output true]

theorem init : Init {} :=
  ⟨rfl, rfl, rfl, rfl⟩

theorem conserved_iff_sends_witness :
    ∃ s', Run Step {} (Run.partialTrace exec (carried true) {}) s' ∧
      Run.Always Conserved (Run.partialTrace exec (carried true) {}) s' ∧
      s'.published = ["a"] ∧ s'.thread = .loop := by
  have r := Run.of_partialTrace exec (carried true) {} rfl
  have h := conserved_iff_sends init r
  exact ⟨_, r, h.left (h.right rfl (by decide)), rfl, rfl⟩

-- The broker is not there when the program starts. It is when the first text is taken, which is
-- freed nevertheless.
theorem not_conserved : ¬∀ (s s' : Output) (tr : List (Output × Label)), Init s →
    Run Step s tr s' → Conserved s' := by
  intro h
  have hc := h {} _ _ init (Run.of_partialTrace exec (carried false) {} rfl)
  exact absurd hc (by decide)

end

end Output
