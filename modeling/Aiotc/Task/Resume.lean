import Aiotc.Task.Args
import Aiotc.Task.Loops

-- Which tasks the loops start in a process that was started again after a crash.

namespace Resume

variable {σ : Type}

-- What has happened to an object in the current incarnation of its process: the first and the last
-- pass over it since the flag of its task is set, and if it was called back or started.
structure Seen where
  passes : Option (Int × Int) := none
  fired : Bool := false
  started : Bool := false

-- A host with a process that runs one of the loops. `objQueue` and `pobjQueue` are in shared
-- memory; objects are given by their places in the former.
structure State (σ : Type) where
  loop : Loop
  ap : AiotcParams
  pobjQueue : List Nat := []
  tvSec : Int := 0
  lastReboot : Int := 0
  live : Bool := true
  zombie : Bool := false
  proc : σ
  seen : Nat → Seen := fun _ => {}

-- The operations, with a note of whether the task was started.
def recorded (ops : TaskOps σ) : TaskOps (σ × Bool) where
  start t p := ((ops.start t p.1).1, (ops.start t p.1).2, true)
  stop t p := ((ops.stop t p.1).1, (ops.stop t p.1).2, p.2)
  start_withoutArgs t p := ops.start_withoutArgs t p.1
  stop_withoutArgs t p := ops.stop_withoutArgs t p.1

namespace State

def setTask (i : Nat) (o : ObjParam) (t : TaskParams) (s : State σ) : State σ :=
  { s with ap := { s.ap with objQueue := s.ap.objQueue.set i { o with task := t } } }

def setSeen (i : Nat) (x : Seen) (s : State σ) : State σ :=
  { s with seen := Function.update s.seen i x }

def flag (i : Nat) (s : State σ) : Bool :=
  s.ap.objQueue[i]?.any fun o => s.loop.flag o.task

end State

-- A flag that a request clears is not set without interruption.
def request (url : Url) (buf : Text) (malloc : ObjMalloc) (s : State σ) : State σ :=
  let s := { s with ap := (Slave.rest url buf malloc s.ap).1 }
  { s with seen := fun i => if s.flag i then s.seen i else { s.seen i with passes := none } }

def isId (id : Int) (s : State σ) (i : Nat) : Bool :=
  s.ap.objQueue[i]?.any (conditionByObjId id)

-- The object at `i` is given to the process where it does not have it.
def getEmptyProc (i : Nat) (s : State σ) : Option (State σ) := do
  let o ← s.ap.objQueue[i]?
  return if s.pobjQueue.any (isId o.id s) then s else { s with pobjQueue := s.pobjQueue ++ [i] }

def procBeat (i : Nat) (s : State σ) : Option (State σ) := do
  let o ← s.ap.objQueue[i]?
  let (t, del) := s.loop.procBeat s.tvSec o.task
  let pobjQueue := if del then Queue.delFromQueue (isId o.id s) s.pobjQueue else s.pobjQueue
  return { s.setTask i o t with pobjQueue := pobjQueue }

def taskBeat (i : Nat) (ops : TaskOps σ) (s : State σ) : Option (State σ) := do
  let o ← s.ap.objQueue[i]?
  let (t, p, started) := s.loop.taskBeat (recorded ops) s.tvSec o.task (s.proc, false)
  let x := s.seen i
  let passes :=
    if s.loop.flag o.task then some ((x.passes.map Prod.fst).getD s.tvSec, s.tvSec) else none
  return { (s.setTask i o t).setSeen i { x with
    passes := passes, started := x.started || started } with proc := p }

def callback (i : Nat) (s : State σ) : Option (State σ) := do
  let o ← s.ap.objQueue[i]?
  return (s.setTask i o (s.loop.callback s.tvSec o.task)).setSeen i { s.seen i with fired := true }

-- The process is running. `p` is what it has once it is started again.
def creatProcByPid (tvSec : Int) (p : σ) (s : State σ) : State σ :=
  if tvSec - s.lastReboot < 300 then
    s
  else
    { s with live := true, lastReboot := tvSec, tvSec := tvSec, proc := p, seen := fun _ => {} }

-- `beatThread` is a pass of `beat_thread` that takes the time, `procBeat` and `taskBeat` are what
-- the passes do to one object. By `thread` another thread of the process has changed `previewArgs`
-- of an object, and what is private to the process.
inductive Label (σ : Type)
  | request (url : Url) (buf : Text) (malloc : ObjMalloc)
  | getEmptyProc (i : Nat)
  | beatThread (tvSec : Int)
  | procBeat (i : Nat)
  | taskBeat (i : Nat) (ops : TaskOps σ)
  | callback (i : Nat)
  | thread (i : Nat) (previewArgs : Ptr) (p : σ)
  | crash
  | creatProcByPid (tvSec : Int) (p : σ)

-- Time does not go back.
def exec : Label σ → State σ → Option (State σ)
  | .request url buf malloc, s => if Task.isTask url then some (request url buf malloc s) else none
  | .getEmptyProc i, s         => getEmptyProc i s
  | .beatThread tvSec, s       =>
    if s.live ∧ s.tvSec ≤ tvSec then some { s with tvSec := tvSec } else none
  | .procBeat i, s             => if s.live ∧ i ∈ s.pobjQueue then procBeat i s else none
  | .taskBeat i ops, s         => if s.live ∧ i ∈ s.pobjQueue then taskBeat i ops s else none
  | .callback i, s             => if s.live then callback i s else none
  | .thread i previewArgs p, s =>
    if s.live then do
      let o ← s.ap.objQueue[i]?
      return { s.setTask i o { o.task with previewArgs := previewArgs } with proc := p }
    else
      none
  | .crash, s                  =>
    if s.live then some { s with live := false, zombie := true, seen := fun _ => {} } else none
  | .creatProcByPid tvSec p, s =>
    if s.zombie ∧ s.tvSec ≤ tvSec then
      some (creatProcByPid tvSec p { s with zombie := false })
    else
      none

def Step (s : State σ) (l : Label σ) (s' : State σ) : Prop :=
  exec l s = some s'

-- An object whose flag is set without interruption for more than `TASK_BEAT_TIMEOUT` seconds of
-- passes, and that was not called back, has been started.
def Resumed (s : State σ) : Prop :=
  ∀ i ∈ s.pobjQueue, ∀ first last, (s.seen i).passes = some (first, last) →
    last - first > TASK_BEAT_TIMEOUT → (s.seen i).fired = false → (s.seen i).started = true

def State.beat (i : Nat) (s : State σ) : Int :=
  (s.ap.objQueue[i]?.map fun o => s.loop.beat o.task).getD 0

-- For preview and gat1400: the process is started again only when the beats of the objects whose
-- flags are set are 0, and a flag is set only while the beat is 0 or newer than that start.
def Cleared (s : State σ) : Label σ → Prop
  | .request url buf malloc  => s.loop ≠ .rtsp → s.live → ∀ i < s.ap.objQueue.length,
    s.flag i = false → (request url buf malloc s).flag i → s.beat i = 0 ∨ s.lastReboot < s.beat i
  | .creatProcByPid tvSec _ => s.loop ≠ .rtsp → tvSec - s.lastReboot ≥ 300 →
    ∀ i < s.ap.objQueue.length, s.flag i → s.beat i = 0
  | _                       => True

instance (s : State σ) : (l : Label σ) → Decidable (Cleared s l)
  | .request _ _ _      => inferInstanceAs (Decidable (_ → _ → ∀ i < _, _ → _ → _))
  | .creatProcByPid _ _ => inferInstanceAs (Decidable (_ → _ → ∀ i < _, _ → _))
  | .getEmptyProc _     => .isTrue trivial
  | .beatThread _       => .isTrue trivial
  | .procBeat _         => .isTrue trivial
  | .taskBeat _ _       => .isTrue trivial
  | .callback _         => .isTrue trivial
  | .thread _ _ _       => .isTrue trivial
  | .crash              => .isTrue trivial

namespace State

def beats (s : State σ) : List Int :=
  s.ap.objQueue.map fun o => s.loop.beat o.task

variable {s : State σ} {i j : Nat} {o : ObjParam} {t : TaskParams}

@[simp]
theorem beats_setTask : (s.setTask i o t).beats = s.beats.set i (s.loop.beat t) := by
  simp [beats, setTask, List.map_set]

theorem beats_setTask_of_eq (ho : s.ap.objQueue[i]? = some o)
    (h : s.loop.beat t = s.loop.beat o.task) : (s.setTask i o t).beats = s.beats := by
  obtain ⟨hi, rfl⟩ := List.getElem?_eq_some_iff.mp ho
  rw [beats_setTask, h]
  simp [beats, ← List.map_set]

theorem flag_setTask (ho : s.ap.objQueue[i]? = some o)
    (h : s.loop.flag t = s.loop.flag o.task) : (s.setTask i o t).flag = s.flag := by
  funext j
  simp only [flag, setTask, List.getElem?_set]
  split
  case isFalse => rfl
  case isTrue hi =>
    subst hi
    obtain ⟨hl, rfl⟩ := List.getElem?_eq_some_iff.mp ho
    simp [hl, h]

end State

-- As long as an object is neither called back nor started it has a beat from before its first pass,
-- which has not timed out since.
def Timely (b : Int) (x : Seen) : Prop :=
  ∀ first last, x.passes = some (first, last) → x.fired = false → x.started = false →
    b ≠ 0 ∧ b ≤ first ∧ last - b ≤ TASK_BEAT_TIMEOUT

-- In preview and gat1400 a beat is that of a task started in this incarnation, if its flag is set
-- or it is newer than the incarnation.
def Marked (s : State σ) : Prop :=
  s.loop ≠ .rtsp → s.live → ∀ i, s.beat i ≠ 0 → s.flag i ∨ s.lastReboot < s.beat i →
    (s.seen i).started = true

structure Inv (s : State σ) : Prop where
  clock   : ∀ b ∈ s.beats, b ≤ s.tvSec
  flagged : ∀ i, (s.seen i).passes.isSome → s.flag i
  timely  : ∀ i b, s.beats[i]? = some b → Timely b (s.seen i)

namespace State

variable {s s' : State σ} {i : Nat} {o : ObjParam}

theorem beat_eq : s.beat i = s.beats[i]?.getD 0 := by
  simp [beat, beats]

theorem beat_congr (hb : s'.beats = s.beats) : s'.beat i = s.beat i := by
  rw [beat_eq, hb, beat_eq]

theorem beat_of (ho : s.ap.objQueue[i]? = some o) : s.beat i = s.loop.beat o.task := by
  simp [beat, ho]

theorem flag_of (ho : s.ap.objQueue[i]? = some o) : s.flag i = s.loop.flag o.task := by
  simp [flag, ho]

theorem lt_of_beat (hb : s.beat i ≠ 0) : i < s.ap.objQueue.length := by
  by_contra hle
  simp [beat, List.getElem?_eq_none (Nat.not_lt.mp hle)] at hb

end State

theorem Inv.beat_le {s : State σ} {i : Nat} (h : Inv s) (hb : s.beat i ≠ 0) :
    s.beat i ≤ s.tvSec := by
  have hi := State.lt_of_beat hb
  have ho := List.getElem?_eq_getElem hi
  rw [State.beat_of ho]
  exact h.clock _ (List.mem_map_of_mem (List.mem_of_getElem? ho))

theorem Inv.resumed {s : State σ} (h : Inv s) : Resumed s := by
  intro i _ first last hp ht hf
  have hs := h.flagged i (by simp [hp])
  simp only [State.flag, Option.any_eq_true] at hs
  obtain ⟨o, ho, -⟩ := hs
  by_contra hn
  have ⟨_, hb, hl⟩ := h.timely i (s.loop.beat o.task) (by simp [State.beats, ho]) first last hp hf
    (by simpa using hn)
  omega

theorem timely_none {b : Int} {x : Seen} (h : x.passes = none) : Timely b x := by
  intro _ _ hp
  simp [h] at hp

-- What leaves the beats and the flags alone.
theorem Inv.congr {s s' : State σ} (h : Inv s) (hb : s'.beats = s.beats)
    (hf : ∀ i, s'.flag i = s.flag i) (hs : s'.seen = s.seen) (ht : s.tvSec ≤ s'.tvSec) :
    Inv s' where
  clock b hm    := Int.le_trans (h.clock b (hb ▸ hm)) ht
  flagged i hi  := (hf i).trans (h.flagged i (hs ▸ hi))
  timely i b hi := hs ▸ h.timely i b (hb ▸ hi)

theorem Inv.unseen {s s' : State σ} (h : Inv s) (hb : s'.beats = s.beats)
    (hs : s'.seen = fun _ => {}) (ht : s.tvSec ≤ s'.tvSec) : Inv s' where
  clock b hm   := Int.le_trans (h.clock b (hb ▸ hm)) ht
  flagged i hi := by simp [hs] at hi
  timely i b _ := timely_none (by simp [hs])

-- What is about the object at `i` only.
theorem Inv.setTask {s s' : State σ} {i : Nat} {b : Int} {x : Seen} (h : Inv s)
    (hb : s'.beats = s.beats.set i b) (hf : ∀ j, s'.flag j = s.flag j)
    (hs : s'.seen = Function.update s.seen i x) (ht : s'.tvSec = s.tvSec) (hle : b ≤ s.tvSec)
    (hx : x.passes.isSome → s.flag i) (hi : Timely b x) : Inv s' where
  clock c hm := by
    rw [ht]
    rcases List.mem_or_eq_of_mem_set (hb ▸ hm) with hm | rfl
    · exact h.clock c hm
    · exact hle
  flagged j hj := by
    rw [hf]
    by_cases hji : j = i
    case pos =>
      subst hji
      exact hx (by simpa [hs] using hj)
    case neg => exact h.flagged j (by simpa [hs, hji] using hj)
  timely j c hj := by
    rw [hb] at hj
    by_cases hji : j = i
    case pos =>
      subst hji
      have hc : b = c := by
        simp only [List.getElem?_set, if_true] at hj
        split at hj <;> simp_all
      simpa [hs, ← hc] using hi
    case neg =>
      rw [List.getElem?_set_ne (Ne.symm hji)] at hj
      simpa [hs, hji] using h.timely j c hj

variable {s s' : State σ} {i : Nat}

theorem beats_rest {url : Url} (h : Task.isTask url) (buf : Text) (malloc : ObjMalloc) :
    State.beats { s with ap := (Slave.rest url buf malloc s.ap).1 } = s.beats := by
  have hf : (Slave.rest url buf malloc s.ap).1.objQueue.map Slave.fixed =
      s.ap.objQueue.map Slave.fixed := by
    refine Slave.rest_fixed ?_ ?_ buf malloc
    · rintro rfl
      cases h
    · rintro rfl
      cases h
  have hb : ∀ o : ObjParam, s.loop.beat (Slave.fixed o).task = s.loop.beat o.task := by
    intro o
    cases s.loop <;> rfl
  have hm := congrArg (List.map fun o => s.loop.beat o.task) hf
  simpa [State.beats, Function.comp_def, hb] using hm

theorem request_inv {url : Url} {buf : Text} {malloc : ObjMalloc} (h : Inv s)
    (ht : Task.isTask url) : Inv (request url buf malloc s) := by
  have hb := beats_rest (s := s) ht buf malloc
  constructor
  case clock => exact fun b hm => h.clock b (hb ▸ hm)
  case flagged =>
    intro i hi
    simp only [request] at hi
    split at hi
    case isTrue hf => exact hf
    case isFalse   => simp at hi
  case timely =>
    intro i b hi
    simp only [request]
    split
    case isTrue  => exact h.timely i b (hb ▸ hi)
    case isFalse => exact timely_none rfl

section

variable {l : Loop} {t : TaskParams} {tvSec : Int} {previewArgs : Ptr}

theorem beat_procBeat : l.beat (l.procBeat tvSec t).1 = l.beat t := by
  cases l <;>
    simp only [Loop.procBeat, Task.rtspProcBeat, Task.previewProcBeat, Task.gat1400ProcBeat] <;>
    repeat' split
  all_goals rfl

theorem flag_procBeat : l.flag (l.procBeat tvSec t).1 = l.flag t := by
  cases l <;>
    simp only [Loop.procBeat, Task.rtspProcBeat, Task.previewProcBeat, Task.gat1400ProcBeat] <;>
    repeat' split
  all_goals rfl

theorem flag_callback : l.flag (l.callback tvSec t) = l.flag t := by
  cases l <;> simp only [Loop.callback, Task.rtspCallback]
  split <;> rfl

theorem beat_previewArgs : l.beat { t with previewArgs := previewArgs } = l.beat t := by
  cases l <;> rfl

theorem flag_previewArgs : l.flag { t with previewArgs := previewArgs } = l.flag t := by
  cases l <;> rfl

end

theorem procBeat_inv (h : Inv s) (e : procBeat i s = some s') : Inv s' := by
  simp only [procBeat, bind, Option.bind_eq_some_iff] at e
  have ⟨o, ho, e⟩ := e
  cases e
  exact h.congr (State.beats_setTask_of_eq ho beat_procBeat)
    (congrFun (State.flag_setTask ho flag_procBeat)) rfl (Int.le_refl _)

theorem callback_inv (h : Inv s) (e : callback i s = some s') : Inv s' := by
  simp only [callback, bind, Option.bind_eq_some_iff] at e
  have ⟨o, ho, e⟩ := e
  cases e
  have hb : s.loop.beat (s.loop.callback s.tvSec o.task) ≤ s.tvSec := by
    have ho : s.loop.beat o.task ≤ s.tvSec :=
      h.clock _ (List.mem_map_of_mem (List.mem_of_getElem? ho))
    cases hl : s.loop <;> simp only [hl, Loop.callback, Task.rtspCallback] at ho ⊢
    case rtsp =>
      split
      · exact Int.le_refl _
      · exact ho
    all_goals exact ho
  refine h.setTask (State.beats_setTask (s := s) (i := i) (o := o))
    (congrFun (State.flag_setTask ho flag_callback)) rfl rfl hb (h.flagged i) ?_
  intro _ _ _ hfired
  simp at hfired

theorem recorded_started (ops : TaskOps σ) {l : Loop} {nowSec : Int} {t : TaskParams} {p : σ}
    (h : l.flag t) :
    (l.taskBeat (recorded ops) nowSec t (p, false)).2.2 = true ↔
      l.beat t = 0 ∨ l = .rtsp ∧ nowSec - l.beat t > TASK_BEAT_TIMEOUT := by
  cases l <;> simp only [Loop.flag, decide_eq_true_eq] at h <;>
    simp only [Loop.taskBeat, Loop.rtspTaskBeat, Loop.previwTaskBeat, Loop.gat1400TaskBeat,
      Loop.beat, h, ne_eq, not_false_eq_true, if_true] <;> repeat' split
  all_goals simp_all [recorded]

-- An object that is not started by its first pass has a beat, and once this times out rtsp starts
-- it.
theorem taskBeat_timely {ops : TaskOps σ} {l : Loop} {nowSec : Int} {t : TaskParams} {p : σ}
    {x : Seen} (h : l.flag t) (ht : Timely (l.beat t) x) (hb : l.beat t ≤ nowSec)
    (ho : l ≠ .rtsp → l.beat t ≠ 0 → nowSec - l.beat t > TASK_BEAT_TIMEOUT → x.started = true) :
    let r := l.taskBeat (recorded ops) nowSec t (p, false)
    Timely (l.beat r.1) { x with
      passes := some ((x.passes.map Prod.fst).getD nowSec, nowSec)
      started := x.started || r.2.2 } := by
  rintro r first last hp hf hs
  simp only [Option.some.injEq, Prod.mk.injEq] at hp
  obtain ⟨hp, rfl⟩ := hp
  simp only [Bool.or_eq_false_iff] at hs
  have hn : ¬(l.beat t = 0 ∨ l = .rtsp ∧ nowSec - l.beat t > TASK_BEAT_TIMEOUT) :=
    (recorded_started ops (p := p) h).not.mp (by simpa using hs.right)
  have hle : ¬(l.beat t = 0 ∨ nowSec - l.beat t > TASK_BEAT_TIMEOUT) := by
    rintro (h₀ | hgt)
    · exact hn (.inl h₀)
    · by_cases hl : l = .rtsp
      · exact hn (.inr ⟨hl, hgt⟩)
      · exact absurd (ho hl (fun h₀ => hn (.inl h₀)) hgt) (by simp [hs.left])
  have hr : l.beat r.1 = l.beat t := by
    rw [Loop.beat_taskBeat h, if_neg hle]
  rw [not_or] at hle
  rw [hr]
  refine ⟨hle.left, ?_, Int.not_lt.mp hle.right⟩
  cases hx : x.passes
  case none   => simpa [← hp, hx] using hb
  case some y =>
    have hy := (ht y.1 y.2 hx hf hs.left).right.left
    simpa [← hp, hx] using hy

theorem taskBeat_inv {ops : TaskOps σ} (h : Inv s) (hm : Marked s) (hl : s.live)
    (e : taskBeat i ops s = some s') : Inv s' := by
  simp only [taskBeat, bind, Option.bind_eq_some_iff] at e
  have ⟨o, hi, e⟩ := e
  cases e
  have hb : s.loop.beat o.task ≤ s.tvSec :=
    h.clock _ (List.mem_map_of_mem (List.mem_of_getElem? hi))
  have ht : Timely (s.loop.beat o.task) (s.seen i) := h.timely i _ (by simp [State.beats, hi])
  refine h.setTask (State.beats_setTask (s := s) (i := i) (o := o))
    (congrFun (State.flag_setTask hi Loop.flag_taskBeat)) rfl rfl (Loop.beat_taskBeat_le hb) ?_ ?_
  case refine_1 =>
    intro hs
    by_cases hf : s.loop.flag o.task
    case pos => simp [State.flag, hi, hf]
    case neg => simp [hf] at hs
  case refine_2 =>
    by_cases hf : s.loop.flag o.task
    case pos =>
      simp only [hf, if_true]
      refine taskBeat_timely hf ht hb fun hr h₀ _ => hm hr hl i ?_ (.inl ?_)
      · rwa [State.beat_of hi]
      · rwa [State.flag_of hi]
    case neg => exact timely_none (by simp [hf])

theorem Step.inv {l : Label σ} (h : Inv s) (hm : Marked s) (e : Step s l s') : Inv s' := by
  cases l <;> simp only [Step, exec, Option.ite_none_right_eq_some] at e
  case request =>
    have ⟨ht, e⟩ := e
    cases e
    exact request_inv h ht
  case getEmptyProc =>
    simp only [getEmptyProc, bind, Option.bind_eq_some_iff] at e
    obtain ⟨o, -, e⟩ := e
    cases e
    split
    · exact h
    · exact h.congr rfl (fun _ => rfl) rfl (Int.le_refl _)
  case beatThread =>
    have ⟨ht, e⟩ := e
    cases e
    exact h.congr rfl (fun _ => rfl) rfl ht.right
  case procBeat => exact procBeat_inv h e.right
  case taskBeat => exact taskBeat_inv h hm e.left.left e.right
  case callback => exact callback_inv h e.right
  case thread i previewArgs p =>
    obtain ⟨-, e⟩ := e
    have ⟨o, ho, e⟩ := Option.bind_eq_some_iff.mp e
    cases e
    exact h.congr (State.beats_setTask_of_eq ho beat_previewArgs)
      (congrFun (State.flag_setTask ho flag_previewArgs)) rfl (Int.le_refl _)
  case crash =>
    obtain ⟨-, e⟩ := e
    cases e
    exact h.unseen rfl rfl (Int.le_refl _)
  case creatProcByPid =>
    have ⟨ht, e⟩ := e
    cases e
    simp only [creatProcByPid]
    split
    · exact h.congr rfl (fun _ => rfl) rfl (Int.le_refl _)
    · exact h.unseen rfl rfl ht.right

-- What leaves the beats, the flags and the process alone.
theorem Marked.congr (h : Marked s) (hp : s'.loop = s.loop) (hr : s'.lastReboot = s.lastReboot)
    (hb : s'.beats = s.beats) (hf : ∀ i, s'.flag i = s.flag i)
    (hs : ∀ i, (s'.seen i).started = (s.seen i).started) (hl : s'.live → s.live) : Marked s' := by
  intro hne hlive i h₀ hi
  rw [State.beat_congr hb] at h₀ hi
  rw [hf, hr] at hi
  rw [hs]
  exact h (hp ▸ hne) (hl hlive) i h₀ hi

theorem request_marked {url : Url} {buf : Text} {malloc : ObjMalloc} (h : Marked s)
    (ht : Task.isTask url) (hc : Cleared s (.request url buf malloc)) :
    Marked (request url buf malloc s) := by
  intro hne hl i h₀ hi
  have hb : (request url buf malloc s).beat i = s.beat i :=
    State.beat_congr (beats_rest (s := s) ht buf malloc)
  have hs : ((request url buf malloc s).seen i).started = (s.seen i).started := by
    simp only [request]
    split <;> rfl
  rw [hb] at h₀ hi
  rw [hs]
  refine h hne hl i h₀ ?_
  rcases hi with hi | hi
  case inr => exact .inr hi
  case inl =>
    by_cases hf : s.flag i
    case pos => exact .inl hf
    case neg =>
      have hn := hc hne hl i (State.lt_of_beat h₀) (by simpa using hf) hi
      exact .inr (hn.resolve_left h₀)

theorem Marked.setTask {b : Int} {x : Seen} (h : Marked s) (hp : s'.loop = s.loop)
    (hr : s'.lastReboot = s.lastReboot) (hl : s'.live → s.live) (hb : s'.beats = s.beats.set i b)
    (hf : ∀ j, s'.flag j = s.flag j) (hs : s'.seen = Function.update s.seen i x)
    (hx : s.loop ≠ .rtsp → s.live → b ≠ 0 → s.flag i ∨ s.lastReboot < b → x.started = true) :
    Marked s' := by
  intro hne hlive j h₀ hj
  rw [hf, hr] at hj
  rw [State.beat_eq, hb] at h₀ hj
  by_cases hji : j = i
  case pos =>
    subst hji
    have hset : (s.beats.set j b)[j]?.getD 0 = b := by
      by_contra hn
      simp only [List.getElem?_set_self'] at hn h₀
      cases hjb : s.beats[j]? <;> simp [hjb] at hn h₀
    rw [hset] at h₀ hj
    simpa [hs] using hx (hp ▸ hne) (hl hlive) h₀ hj
  case neg =>
    rw [List.getElem?_set_ne (Ne.symm hji), ← State.beat_eq] at h₀ hj
    simpa [hs, hji] using h (hp ▸ hne) (hl hlive) j h₀ hj

-- A pass starts the task of an object without a beat.
theorem taskBeat_marked {ops : TaskOps σ} (h : Marked s) (e : taskBeat i ops s = some s') :
    Marked s' := by
  simp only [taskBeat, bind, Option.bind_eq_some_iff] at e
  have ⟨o, hi, e⟩ := e
  cases e
  refine h.setTask rfl rfl id (State.beats_setTask (s := s) (i := i) (o := o))
    (congrFun (State.flag_setTask hi Loop.flag_taskBeat)) rfl fun hne hl h₀ hj => ?_
  simp only [Bool.or_eq_true]
  by_cases hf : s.loop.flag o.task
  case pos =>
    by_cases hz : s.loop.beat o.task = 0
    case pos => exact .inr ((recorded_started ops hf).mpr (.inl hz))
    case neg =>
      refine .inl (h hne hl i ?_ (.inl ?_))
      · rwa [State.beat_of hi]
      · rwa [State.flag_of hi]
  case neg =>
    -- The beat is still what it was, so that the object was not one with a task to stop.
    rw [Loop.beat_taskBeat_of_not_flag (by simpa using hf)] at h₀ hj
    split at h₀
    case isTrue => exact absurd rfl h₀
    case isFalse hle =>
      rw [if_neg hle] at hj
      exact .inl (h hne hl i (by rwa [State.beat_of hi]) (by rwa [State.beat_of hi]))

theorem callback_marked (h : Marked s) (e : callback i s = some s') : Marked s' := by
  simp only [callback, bind, Option.bind_eq_some_iff] at e
  have ⟨o, ho, e⟩ := e
  cases e
  refine h.setTask rfl rfl id (State.beats_setTask (s := s) (i := i) (o := o))
    (congrFun (State.flag_setTask ho flag_callback)) rfl fun hne hl h₀ hj => ?_
  have hb : s.loop.beat (s.loop.callback s.tvSec o.task) = s.beat i := by
    rw [State.beat_of ho]
    cases hloop : s.loop
    case rtsp => exact absurd hloop hne
    all_goals rfl
  rw [hb] at h₀ hj
  exact h hne hl i h₀ hj

theorem Step.marked {l : Label σ} (h : Inv s) (hm : Marked s) (hc : Cleared s l)
    (e : Step s l s') : Marked s' := by
  cases l <;> simp only [Step, exec, Option.ite_none_right_eq_some] at e
  case request =>
    have ⟨ht, e⟩ := e
    cases e
    exact request_marked hm ht hc
  case getEmptyProc =>
    simp only [getEmptyProc, bind, Option.bind_eq_some_iff] at e
    obtain ⟨o, -, e⟩ := e
    cases e
    split
    · exact hm
    · exact hm.congr rfl rfl rfl (fun _ => rfl) (fun _ => rfl) id
  case beatThread =>
    have ⟨ht, e⟩ := e
    cases e
    exact hm.congr rfl rfl rfl (fun _ => rfl) (fun _ => rfl) id
  case procBeat =>
    obtain ⟨-, e⟩ := e
    simp only [procBeat, bind, Option.bind_eq_some_iff] at e
    have ⟨o, ho, e⟩ := e
    cases e
    exact hm.congr rfl rfl (State.beats_setTask_of_eq ho beat_procBeat)
      (congrFun (State.flag_setTask ho flag_procBeat)) (fun _ => rfl) id
  case taskBeat => exact taskBeat_marked hm e.right
  case callback => exact callback_marked hm e.right
  case thread i previewArgs p =>
    obtain ⟨-, e⟩ := e
    have ⟨o, ho, e⟩ := Option.bind_eq_some_iff.mp e
    cases e
    exact hm.congr rfl rfl (State.beats_setTask_of_eq ho beat_previewArgs)
      (congrFun (State.flag_setTask ho flag_previewArgs)) (fun _ => rfl) id
  case crash =>
    obtain ⟨-, e⟩ := e
    cases e
    exact fun _ => nofun
  case creatProcByPid tvSec p =>
    have ⟨ht, e⟩ := e
    cases e
    simp only [creatProcByPid]
    split
    case isTrue  => exact hm.congr rfl rfl rfl (fun _ => rfl) (fun _ => rfl) id
    case isFalse hlt =>
      intro hne _ i h₀ hi
      have hb := h.beat_le (i := i) h₀
      rcases hi with hi | hi
      · exact absurd (hc hne (Int.not_lt.mp hlt) i (State.lt_of_beat (s := s) h₀) hi) h₀
      · have hi : tvSec < s.beat i := hi
        have := ht.right
        omega

-- In each of the three loops the tasks are started again in every run in which preview and gat1400
-- find no beats that a crashed process has left. For rtsp these are all runs.
theorem resumed_of_cleared {loop : Loop} {ap : AiotcParams} {tvSec : Int} {p : σ}
    {tr : List (State σ × Label σ)} (hq : ∀ o ∈ ap.objQueue, loop.beat o.task ≤ tvSec)
    (h₀ : loop ≠ .rtsp → ∀ o ∈ ap.objQueue, loop.beat o.task = 0)
    (r : Run Step { loop := loop, ap := ap, tvSec := tvSec, proc := p } tr s)
    (hc : Run.Meets Cleared tr) : Run.Always Resumed tr s := by
  have h : Inv { loop := loop, ap := ap, tvSec := tvSec, proc := p } := by
    refine ⟨fun b hb => ?_, fun i hi => by simp at hi, fun i b _ => timely_none rfl⟩
    obtain ⟨o, ho, rfl⟩ := List.mem_map.mp hb
    exact hq o ho
  have hm : Marked { loop := loop, ap := ap, tvSec := tvSec, proc := p } := by
    intro hne _ i hb
    have ho := List.getElem?_eq_getElem (State.lt_of_beat hb)
    exact absurd ((State.beat_of ho).trans (h₀ hne _ (List.mem_of_getElem? ho))) hb
  have ha := r.always_of_meets (I := fun s => Inv s ∧ Marked s) (C := Cleared)
    (fun _ _ _ h hc e => ⟨Step.inv h.left h.right e, Step.marked h.left h.right hc e⟩) ⟨h, hm⟩ hc
  exact ha.mono fun _ h => h.left.resumed

section

def rtspOps : TaskOps Proc :=
  Task.rtspTaskOps ⟨some 64, true⟩ Task.rtspCamera.originaldata

-- A process crashes in which the task of an object runs. Its beat times out in the next one.
def rtspCrash : List (Label Proc) := [
  .request .streamStart Task.id5 {}, .getEmptyProc 0, .beatThread 990, .taskBeat 0 rtspOps, .crash,
  .creatProcByPid 1000 {}, .taskBeat 0 rtspOps, .beatThread 1031, .taskBeat 0 rtspOps]

-- The object of a slave whose pictures are captured.
def gat1400Camera : ObjParam where
  id := 7
  name := "gate"
  type := "camera"
  subtype := "gat1400"
  originaldata := some (.object [("id", .number 7), ("data", .object [("mode", .number 0),
    ("deviceId", .string "34020000001190000001"), ("platformId", .string "34020000002")])])

def gat1400Ap : AiotcParams where
  configArgs := ⟨0, 100, 100, 1000, 100⟩
  objQueue := [gat1400Camera]

def id7 : Text :=
  some (.object [("id", .number 7)])

def gat1400Ops : TaskOps Proc :=
  Task.gat1400TaskOps ⟨some 64, true⟩ 0 gat1400Camera.originaldata

-- The capture is stopped before the crash, and asked for again after it.
def gat1400Crash : List (Label Proc) := [
  .request .captureStart id7 {}, .getEmptyProc 0, .beatThread 990, .taskBeat 0 gat1400Ops,
  .request .captureStop id7 {}, .beatThread 995, .taskBeat 0 gat1400Ops, .crash,
  .request .captureStart id7 {}, .creatProcByPid 1000 { handle := true }, .taskBeat 0 gat1400Ops,
  .beatThread 1031, .taskBeat 0 gat1400Ops]

theorem resumed_of_cleared_witness :
    let s₀ : State Proc := { loop := .rtsp, ap := Task.rtspAp, tvSec := 0, proc := {} }
    let s₁ : State Proc :=
      { loop := .gat1400, ap := gat1400Ap, tvSec := 0, proc := { handle := true } }
    (∃ s, Run Step s₀ (Run.partialTrace exec rtspCrash s₀) s ∧ Resumed s ∧
      (s.seen 0).passes = some (1000, 1031) ∧ (s.seen 0).fired = false) ∧
    ∃ s, Run Step s₁ (Run.partialTrace exec gat1400Crash s₁) s ∧ Resumed s ∧
      (s.seen 0).passes = some (1000, 1031) ∧ (s.seen 0).fired = false := by
  intro s₀ s₁
  have ⟨s, r, hs⟩ := Run.exists_partialTrace exec rtspCrash s₀
    (fun s => (s.seen 0).passes = some (1000, 1031) ∧ (s.seen 0).fired = false) (by decide)
  have ⟨s', r', hs'⟩ := Run.exists_partialTrace exec gat1400Crash s₁
    (fun s => (s.seen 0).passes = some (1000, 1031) ∧ (s.seen 0).fired = false) (by decide)
  refine ⟨⟨s, r, (resumed_of_cleared (by decide) (absurd rfl) r ?_).last, by simpa using hs⟩,
    s', r', (resumed_of_cleared (by decide) (by decide) r' ?_).last, by simpa using hs'⟩
  · decide
  · decide

-- The loop of gat1400 only writes the time to the beat that the crashed process has left.
theorem not_resumed :
    ¬∀ (loop : Loop) (ap : AiotcParams) (tvSec : Int) (p : Proc)
      (tr : List (State Proc × Label Proc)) (s : State Proc),
      (∀ o ∈ ap.objQueue, loop.beat o.task ≤ tvSec) →
      (loop ≠ .rtsp → ∀ o ∈ ap.objQueue, loop.beat o.task = 0) →
      Run Step { loop := loop, ap := ap, tvSec := tvSec, proc := p } tr s → Resumed s := by
  intro h
  have ⟨s, r, hs⟩ := Run.exists_partialTrace exec
    [.request .captureStart id7 {}, .getEmptyProc 0, .beatThread 990, .taskBeat 0 gat1400Ops,
      .crash, .creatProcByPid 1000 { handle := true }, .taskBeat 0 gat1400Ops, .beatThread 1031,
      .taskBeat 0 gat1400Ops]
    { loop := .gat1400, ap := gat1400Ap, proc := { handle := true } }
    (fun s => 0 ∈ s.pobjQueue ∧ (s.seen 0).passes = some (1000, 1031) ∧
      (s.seen 0).fired = false ∧ (s.seen 0).started = false) (by decide)
  simp only [decide_eq_true_eq] at hs
  have ⟨hm, hp, hf, hn⟩ := hs
  have := h .gat1400 _ 0 _ _ s (by decide) (by decide) r 0 hm 1000 1031 hp (by decide) hf
  exact absurd this (by simp [hn])

end

end Resume
