import Mathlib.Logic.Function.Iterate
import Aiotc.Library.Log
import Aiotc.Task.Loops

-- The loops over the objects of a process with all that can happen between two of their accesses:
-- requests set the flag of the task at any time, and the player calls back.

inductive TaskCall
  | start
  | stop
  deriving DecidableEq

-- Where a visit of `rtspTaskBeat`, `previwTaskBeat` or `gat1400TaskBeat` is: in front of what reads
-- the flag of the task, compares its beat with 0 or with the time, calls an operation, or writes.
inductive TaskPc
  | flag
  | isZero
  | isOver
  | isPositive
  | restart
  | start
  | setNow
  | stop
  | setZero
  deriving DecidableEq

-- The same for `rtspProcBeat`, `previewProcBeat` and `gat1400ProcBeat`, which read the flag twice.
inductive ProcPc
  | flag
  | setNow
  | notFlag
  | isZero
  | delObj
  | setZero
  deriving DecidableEq

-- The visit of the object by one of the loops. It is in hold of `mutex_pobj`.
inductive Visit
  | none
  | task (nowSec : Int) (pc : TaskPc)
  | proc (tvSec : Int) (pc : ProcPc)

namespace Loop

def setBeat (nowSec : Int) : Loop → TaskParams → TaskParams
  | rtsp, t    => { t with liveTaskBeat := nowSec }
  | preview, t => { t with previewTaskBeat := nowSec }
  | gat1400, t => { t with captureTaskBeat := nowSec }

def setProcBeat (tvSec : Int) : Loop → TaskParams → TaskParams
  | rtsp, t    => { t with liveBeat := tvSec }
  | preview, t => { t with previewBeat := tvSec }
  | gat1400, t => { t with captureBeat := tvSec }

end Loop

-- An object of a process: what it shares with others, the private memory of the process, and what
-- was called for it.
structure Visited (σ : Type) where
  task : TaskParams
  proc : σ
  queued : Bool := true
  visit : Visit := .none
  log : List TaskCall := []

namespace Visited

variable {σ : Type}

def start (ops : TaskOps σ) (s : Visited σ) : Visited σ :=
  let (t, p) := ops.start s.task s.proc
  { s with task := t, proc := p, log := s.log ++ [.start] }

def stop (ops : TaskOps σ) (s : Visited σ) : Visited σ :=
  let (t, p) := ops.stop s.task s.proc
  { s with task := t, proc := p, log := s.log ++ [.stop] }

-- Only the live task is restarted when it is overdue.
def overdue (l : Loop) (nowSec : Int) (s : Visited σ) : Visited σ :=
  match l with
  | .rtsp =>
    { s with
      task := { s.task with liveRestart := s.task.liveRestart + 1 }
      visit := .task nowSec .restart }
  | _     => { s with visit := .task nowSec .setNow }

def taskBeat (l : Loop) (ops : TaskOps σ) (nowSec : Int) (s : Visited σ) : TaskPc → Visited σ
  | .flag       => { s with visit := .task nowSec (if l.flag s.task then .isZero else .isPositive) }
  | .isZero     => { s with visit := .task nowSec (if l.beat s.task = 0 then .start else .isOver) }
  | .isOver     =>
    if nowSec - l.beat s.task > TASK_BEAT_TIMEOUT then
      s.overdue l nowSec
    else
      { s with visit := .none }
  | .isPositive => { s with visit := if l.beat s.task > 0 then .task nowSec .stop else .none }
  | .restart    => { s.stop ops with visit := .task nowSec .start }
  | .start      => { s.start ops with visit := .task nowSec .setNow }
  | .setNow     => { s with task := l.setBeat nowSec s.task, visit := .none }
  | .stop       => { s.stop ops with visit := .task nowSec .setZero }
  | .setZero    => { s with task := l.setBeat 0 s.task, visit := .none }

def procBeat (l : Loop) (tvSec : Int) (s : Visited σ) : ProcPc → Visited σ
  | .flag    => { s with visit := .proc tvSec (if l.flag s.task then .setNow else .notFlag) }
  | .setNow  => { s with task := l.setProcBeat tvSec s.task, visit := .none }
  | .notFlag => { s with visit := if l.flag s.task then .none else .proc tvSec .isZero }
  | .isZero  => { s with visit := if l.beat s.task = 0 then .proc tvSec .delObj else .none }
  | .delObj  => { s with queued := false, visit := .proc tvSec .setZero }
  | .setZero => { s with task := l.setProcBeat 0 s.task, visit := .none }

-- The next step of the visit.
def advance (l : Loop) (ops : TaskOps σ) (s : Visited σ) : Visited σ :=
  match s.visit with
  | .none           => s
  | .task nowSec pc => s.taskBeat l ops nowSec pc
  | .proc tvSec pc  => s.procBeat l tvSec pc

-- The main process queues the object by `put`, when it is not visited.
inductive Label (σ : Type)
  | request (c : Settings)
  | put
  | taskBeat (nowSec : Int)
  | procBeat (tvSec : Int)
  | advance (ops : TaskOps σ)
  | callback (nowSec : Int)

def Label.Clock : Label σ → Prop
  | .taskBeat nowSec => 0 < nowSec
  | .procBeat tvSec  => 0 < tvSec
  | .callback nowSec => 0 < nowSec
  | _                => True

instance : (i : Label σ) → Decidable i.Clock
  | .taskBeat _ => inferInstanceAs (Decidable (_ < _))
  | .procBeat _ => inferInstanceAs (Decidable (_ < _))
  | .callback _ => inferInstanceAs (Decidable (_ < _))
  | .request _  => .isTrue trivial
  | .put        => .isTrue trivial
  | .advance _  => .isTrue trivial

def request (c : Settings) (t : TaskParams) : TaskParams :=
  { t with
    livestream := c.livestream
    capture := c.capture
    record := c.record
    preview := c.preview }

def enter (v : Visit) (s : Visited σ) : Option (Visited σ) :=
  match s.visit with
  | .none => if s.queued then some { s with visit := v } else none
  | _     => none

def exec (l : Loop) : Label σ → Visited σ → Option (Visited σ)
  | .request c, s       => some { s with task := request c s.task }
  | .put, s             =>
    match s.visit with
    | .none => some { s with queued := true }
    | _     => none
  | .taskBeat nowSec, s => s.enter (.task nowSec .flag)
  | .procBeat tvSec, s  => s.enter (.proc tvSec .flag)
  | .advance ops, s     => some (s.advance l ops)
  | .callback nowSec, s => some { s with task := l.callback nowSec s.task }

def Step (l : Loop) (s : Visited σ) (i : Label σ) (s' : Visited σ) : Prop :=
  i.Clock ∧ exec l i s = some s'

structure Init (l : Loop) (s : Visited σ) : Prop where
  beat  : l.beat s.task = 0
  visit : s.visit = .none
  log   : s.log = []

-- A start is unmatched.
def Started (s : Visited σ) : Prop :=
  s.log.getLast? = some .start

-- The beat tells if a start is unmatched.
def Synced (l : Loop) (s : Visited σ) : Prop :=
  l.beat s.task ≠ 0 ↔ s.Started

-- What the beat tells during a visit.
def During (l : Loop) (s : Visited σ) : Visit → Prop
  | .none        => s.Synced l
  | .task now pc => 0 < now ∧
    match pc with
    | .flag | .isZero | .isPositive => s.Synced l
    | .isOver                       => s.Synced l ∧ s.Started
    | .restart | .stop | .setNow    => s.Started
    | .start | .setZero             => ¬s.Started
  | .proc _ pc   => s.Synced l ∧ (pc = .delObj → ¬s.Started)

structure Inv (l : Loop) (s : Visited σ) : Prop where
  log    : Log.Alternates .start .stop s.log
  nonneg : 0 ≤ l.beat s.task
  during : During l s s.visit

section

variable {l : Loop} {ops : TaskOps σ} {s s' : Visited σ} {i : Label σ} {t : TaskParams} {p : σ}
  {nowSec tvSec : Int} {c : Settings}

@[simp]
theorem beat_setBeat : l.beat (l.setBeat nowSec t) = nowSec := by
  cases l <;> rfl

@[simp]
theorem beat_setProcBeat : l.beat (l.setProcBeat tvSec t) = l.beat t := by
  cases l <;> rfl

@[simp]
theorem beat_request : l.beat (request c t) = l.beat t := by
  cases l <;> rfl

@[simp]
theorem beat_start : l.beat (ops.start t p).1 = l.beat t := by
  rw [← Loop.beat_withoutArgs, ops.start_withoutArgs, Loop.beat_withoutArgs]

@[simp]
theorem beat_stop : l.beat (ops.stop t p).1 = l.beat t := by
  rw [← Loop.beat_withoutArgs, ops.stop_withoutArgs, Loop.beat_withoutArgs]

-- A callback tells that the task runs only if it does.
theorem beat_callback (hn : 0 < nowSec) (h : 0 ≤ l.beat t) :
    0 ≤ l.beat (l.callback nowSec t) ∧ (l.beat (l.callback nowSec t) = 0 ↔ l.beat t = 0) := by
  cases l <;> simp only [Loop.callback, Task.rtspCallback, Loop.beat] at *
  case rtsp    => grind
  case preview => exact ⟨h, trivial⟩
  case gat1400 => exact ⟨h, trivial⟩

-- What changes neither the log nor if the beat is zero may happen at any time.
theorem Inv.of_beat (h : Inv l s) (hv : s'.visit = s.visit) (hl : s'.log = s.log)
    (hn : 0 ≤ l.beat s'.task) (hb : l.beat s'.task = 0 ↔ l.beat s.task = 0) : Inv l s' := by
  refine ⟨hl ▸ h.log, hn, ?_⟩
  have hs : s'.Started ↔ s.Started := by rw [Started, Started, hl]
  have hy : s'.Synced l ↔ s.Synced l := by rw [Synced, Synced, hs, ne_eq, ne_eq, hb]
  have hd := h.during
  rw [hv]
  cases hv : s.visit
  case none => simpa [During, hv, hy] using hd
  case task now pc =>
    rw [hv] at hd
    cases pc <;> simpa [During, hs, hy] using hd
  case proc tv pc => simpa [During, hv, hs, hy] using hd

theorem Inv.taskBeat {pc : TaskPc} (h : Inv l s) (hv : s.visit = .task nowSec pc) :
    Inv l (s.taskBeat l ops nowSec pc) := by
  have hl := h.log
  have hn := h.nonneg
  have hd := h.during
  rw [hv] at hd
  have ⟨ht, hd⟩ := hd
  cases pc <;> simp only [Visited.taskBeat]
  case flag => split <;> exact ⟨hl, hn, ht, hd⟩
  case isZero =>
    split
    case isTrue hb  => exact ⟨hl, hn, ht, mt hd.mpr (not_not.mpr hb)⟩
    case isFalse hb => exact ⟨hl, hn, ht, hd, hd.mp hb⟩
  case isOver =>
    split
    case isTrue => cases l <;> exact ⟨hl, hn, ht, hd.right⟩
    case isFalse => exact ⟨hl, hn, hd.left⟩
  case isPositive =>
    split
    case isTrue hb  => exact ⟨hl, hn, ht, hd.mp (Int.ne_of_gt hb)⟩
    case isFalse hb => exact ⟨hl, hn, hd⟩
  case restart =>
    refine ⟨hl.snoc_second hd, ?_, ht, ?_⟩
    · simpa [stop] using hn
    · simp [stop, Started]
  case start =>
    refine ⟨hl.snoc_first hd, ?_, ht, ?_⟩
    · simpa [start] using hn
    · simp [start, Started]
  case setNow =>
    refine ⟨hl, ?_, ?_⟩
    · simpa using Int.le_of_lt ht
    · exact iff_of_true (by simpa using Int.ne_of_gt ht) hd
  case stop =>
    refine ⟨hl.snoc_second hd, ?_, ht, ?_⟩
    · simpa [stop] using hn
    · simp [stop, Started]
  case setZero => exact ⟨hl, by simp, iff_of_false (by simp) hd⟩

theorem Inv.procBeat {pc : ProcPc} (h : Inv l s) (hv : s.visit = .proc tvSec pc) :
    Inv l (s.procBeat l tvSec pc) := by
  have hl := h.log
  have hn := h.nonneg
  have hd := h.during
  rw [hv] at hd
  have ⟨hy, hd⟩ := hd
  cases pc <;> simp only [Visited.procBeat]
  case flag    => split <;> exact ⟨hl, hn, hy, nofun⟩
  case setNow  => exact ⟨hl, by simpa using hn, by simpa [During, Synced, Started] using hy⟩
  case notFlag =>
    split
    case isTrue  => exact ⟨hl, hn, hy⟩
    case isFalse => exact ⟨hl, hn, hy, nofun⟩
  case isZero =>
    split
    case isTrue hb  => exact ⟨hl, hn, hy, fun _ => mt hy.mpr (not_not.mpr hb)⟩
    case isFalse hb => exact ⟨hl, hn, hy⟩
  case delObj  => exact ⟨hl, hn, hy, nofun⟩
  case setZero => exact ⟨hl, by simpa using hn, by simpa [During, Synced, Started] using hy⟩

theorem enter_some {v : Visit} (h : s.enter v = some s') :
    s.visit = .none ∧ s.queued ∧ s' = { s with visit := v } := by
  simp only [enter] at h
  split at h
  case h_1 hv =>
    split at h <;> cases h
    case isTrue hq => exact ⟨hv, hq, rfl⟩
  case h_2 => cases h

theorem Inv.step (h : Inv l s) (e : Step l s i s') : Inv l s' := by
  have ⟨hc, he⟩ := e
  cases i
  case request c =>
    cases he
    exact h.of_beat rfl rfl (by simpa using h.nonneg) (by simp)
  case put =>
    simp only [Visited.exec] at he
    split at he <;> cases he
    case h_1 => exact h.of_beat rfl rfl h.nonneg .rfl
  case taskBeat nowSec =>
    obtain ⟨hv, -, rfl⟩ := enter_some he
    have hd := h.during
    rw [hv] at hd
    exact ⟨h.log, h.nonneg, hc, hd⟩
  case procBeat tvSec =>
    obtain ⟨hv, -, rfl⟩ := enter_some he
    have hd := h.during
    rw [hv] at hd
    exact ⟨h.log, h.nonneg, hd, nofun⟩
  case advance ops =>
    cases he
    simp only [Visited.advance]
    split
    case h_1      => exact h
    case h_2 hv   => exact h.taskBeat hv
    case h_3 hv   => exact h.procBeat hv
  case callback nowSec =>
    cases he
    have ⟨hn, hz⟩ := beat_callback (l := l) hc h.nonneg
    exact h.of_beat rfl rfl hn hz

theorem Init.inv (h : Init l s) : Inv l s := by
  refine ⟨by rw [h.log]; trivial, h.beat ▸ Int.le_refl 0, ?_⟩
  rw [h.visit]
  exact iff_of_false (by simp [h.beat]) (by simp [Started, h.log])

theorem queued_taskBeat {pc : TaskPc} : (s.taskBeat l ops nowSec pc).queued = s.queued := by
  cases pc <;> simp only [Visited.taskBeat, start, stop]
  case isOver =>
    split
    case isTrue  => cases l <;> rfl
    case isFalse => rfl

-- Only one step of `procBeat` takes the object out of the queue.
theorem visit_of_removed (e : Step l s i s') (hq : s.queued = true) (hq' : s'.queued = false) :
    ∃ tvSec, s.visit = .proc tvSec .delObj := by
  have he := e.right
  cases i
  case request =>
    cases he
    simp [hq] at hq'
  case put =>
    simp only [Visited.exec] at he
    split at he <;> cases he
    cases hq'
  case taskBeat =>
    obtain ⟨-, -, rfl⟩ := enter_some he
    simp [hq] at hq'
  case procBeat =>
    obtain ⟨-, -, rfl⟩ := enter_some he
    simp [hq] at hq'
  case advance =>
    cases he
    simp only [Visited.advance] at hq'
    split at hq'
    case h_1 => simp [hq] at hq'
    case h_2 => simp [queued_taskBeat, hq] at hq'
    case h_3 tvSec pc hv =>
      cases pc <;> simp only [Visited.procBeat] at hq'
      case delObj => exact ⟨tvSec, hv⟩
      all_goals simp [hq] at hq'
  case callback =>
    cases he
    simp [hq] at hq'

-- What a visit of `taskBeat` comes to, by what it finds.

theorem taskBeat_start (hf : l.flag t) (hz : l.beat t = 0) :
    l.taskBeat ops nowSec t p = (l.setBeat nowSec (ops.start t p).1, (ops.start t p).2) := by
  cases l <;> simp_all [Loop.flag, Loop.beat, Loop.setBeat, Loop.taskBeat, Loop.rtspTaskBeat,
    Loop.previwTaskBeat, Loop.gat1400TaskBeat]

theorem taskBeat_stop (hf : ¬l.flag t) (hp : l.beat t > 0) :
    l.taskBeat ops nowSec t p = (l.setBeat 0 (ops.stop t p).1, (ops.stop t p).2) := by
  cases l <;> simp_all [Loop.flag, Loop.beat, Loop.setBeat, Loop.taskBeat, Loop.rtspTaskBeat,
    Loop.previwTaskBeat, Loop.gat1400TaskBeat]

theorem taskBeat_same (h : l.flag t ∧ l.beat t ≠ 0 ∧ ¬nowSec - l.beat t > TASK_BEAT_TIMEOUT ∨
    ¬l.flag t ∧ ¬l.beat t > 0) : l.taskBeat ops nowSec t p = (t, p) := by
  cases l <;> simp only [Loop.taskBeat, Loop.rtspTaskBeat, Loop.previwTaskBeat,
    Loop.gat1400TaskBeat, Loop.flag, Loop.beat, decide_eq_true_eq] at h ⊢ <;> grind

theorem taskBeat_overdue (hf : l.flag t) (hz : l.beat t ≠ 0)
    (ho : nowSec - l.beat t > TASK_BEAT_TIMEOUT) :
    l.taskBeat ops nowSec t p =
      if l = .rtsp then
        let (t, p) := ops.stop { t with liveRestart := t.liveRestart + 1 } p
        (l.setBeat nowSec (ops.start t p).1, (ops.start t p).2)
      else
        (l.setBeat nowSec t, p) := by
  cases l <;> simp_all [Loop.flag, Loop.beat, Loop.setBeat, Loop.taskBeat, Loop.rtspTaskBeat,
    Loop.previwTaskBeat, Loop.gat1400TaskBeat]

-- Without anything between its accesses a visit does what the loops do.

theorem iterate_advance_task (hv : s.visit = .task nowSec .flag) :
    let s' := (advance l ops)^[6] s
    (s'.task, s'.proc) = l.taskBeat ops nowSec s.task s.proc ∧ s'.visit = .none := by
  obtain ⟨t, p, q, v, log⟩ := s
  cases hv
  simp only [Function.iterate_succ, Function.comp_apply, Function.iterate_zero, id]
  by_cases hf : l.flag t
  case pos =>
    by_cases hz : l.beat t = 0
    case pos => simp [advance, taskBeat, hf, hz, start, taskBeat_start hf hz]
    case neg =>
      by_cases ho : nowSec - l.beat t > TASK_BEAT_TIMEOUT
      case pos =>
        simp only [advance, taskBeat, hf, hz, ho, if_true, if_false, taskBeat_overdue hf hz ho]
        cases l <;> simp [overdue, start, stop]
      case neg => simp [advance, taskBeat, hf, hz, ho, taskBeat_same (.inl ⟨hf, hz, ho⟩)]
  case neg =>
    by_cases hp : l.beat t > 0
    case pos => simp [advance, taskBeat, hf, hp, stop, taskBeat_stop hf hp]
    case neg => simp [advance, taskBeat, hf, hp, taskBeat_same (.inr ⟨hf, hp⟩)]

theorem iterate_advance_proc (hv : s.visit = .proc tvSec .flag) :
    let s' := (advance l ops)^[5] s
    (s'.task, s'.queued) = ((l.procBeat tvSec s.task).1, s.queued && !(l.procBeat tvSec s.task).2) ∧
      s'.visit = .none := by
  obtain ⟨t, p, q, v, log⟩ := s
  cases hv
  simp only [Function.iterate_succ, Function.comp_apply, Function.iterate_zero, id]
  by_cases hf : l.flag t
  case pos =>
    simp only [advance, procBeat, hf, if_true]
    cases l <;> simp_all [Loop.flag, Loop.setProcBeat, Loop.procBeat, Task.rtspProcBeat,
      Task.previewProcBeat, Task.gat1400ProcBeat]
  case neg =>
    by_cases hb : l.beat t = 0
    case pos =>
      simp only [advance, procBeat, hf, hb, if_true]
      cases l <;> simp_all [Loop.flag, Loop.beat, Loop.setProcBeat, Loop.procBeat,
        Task.rtspProcBeat, Task.previewProcBeat, Task.gat1400ProcBeat]
    case neg =>
      simp only [advance, procBeat, hf, hb, if_false]
      cases l <;> simp_all [Loop.flag, Loop.beat, Loop.procBeat, Task.rtspProcBeat,
        Task.previewProcBeat, Task.gat1400ProcBeat]

-- In every run the operations of the task are called in turns, the first one is start, and between
-- two visits the beat tells which one was last. The object is taken out of the queue only while no
-- start is without its stop.
theorem alternates {tr : List (Visited σ × Label σ)} (h : Init l s) (r : Run (Step l) s tr s') :
    Log.Alternates .start .stop s'.log ∧
    (s'.visit = .none → (l.beat s'.task ≠ 0 ↔ s'.log.getLast? = some .start)) ∧
    ∀ i s'', Step l s' i s'' → s'.queued = true → s''.queued = false →
      s'.log.count .start = s'.log.count .stop := by
  have hi := r.invariant (fun _ _ _ h e => Inv.step h e) h.inv
  have hd := hi.during
  refine ⟨hi.log, fun hv => ?_, fun i s'' e hq hq' => ?_⟩
  case refine_1 =>
    rw [hv] at hd
    exact hd
  case refine_2 =>
    have ⟨tvSec, hv⟩ := visit_of_removed e hq hq'
    rw [hv] at hd
    exact (hi.log.count_eq_iff (by decide)).mpr (hd.right rfl)

end

section

-- A process that has nothing of its own, in which start and stop always succeed.
def plainOps : TaskOps Unit where
  start t p := (t, p)
  stop t p := (t, p)
  start_withoutArgs _ _ := rfl
  stop_withoutArgs _ _ := rfl

-- The stream of a camera is started, seen to run, and stopped. Then the object is taken out.
def started : List (Label Unit) := [
  .request ⟨1, 0, 0, []⟩, .taskBeat 100,
  .advance plainOps, .advance plainOps, .advance plainOps, .advance plainOps,
  .callback 105, .request ⟨0, 0, 0, []⟩, .taskBeat 110,
  .advance plainOps, .advance plainOps, .advance plainOps, .advance plainOps,
  .procBeat 115, .advance plainOps, .advance plainOps, .advance plainOps]

theorem alternates_witness :
    ∃ s', Run (Step .rtsp) ⟨{}, (), true, .none, []⟩
        (Run.partialTrace (exec .rtsp) started ⟨{}, (), true, .none, []⟩) s' ∧
      s'.log = [.start, .stop] ∧ s'.log.count .start = s'.log.count .stop := by
  have r := (Run.of_partialTrace (exec .rtsp) started ⟨{}, (), true, .none, []⟩ rfl).of_meets
    (C := fun _ i => i.Clock) (by decide)
  have h := alternates ⟨rfl, rfl, rfl⟩ r
  exact ⟨_, r, rfl, h.right.right (.advance plainOps) _ ⟨trivial, rfl⟩ rfl rfl⟩

end

end Visited
