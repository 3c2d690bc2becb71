import Aiotc.Task.Beat

-- rtsp.cpp, preview.cpp and gat1400.cpp: the loops over the objects of a process, which start and
-- stop tasks by the `taskOps` of the process.

-- A task but for the pointers that its operations set.
def TaskParams.withoutArgs (t : TaskParams) : TaskParams :=
  { t with liveArgs := none, captureArgs := none, recordArgs := none, previewArgs := none }

-- The operations as they are for one object, over what is private to the process. They are given
-- the task of the object, and leave all of it but its pointers alone.
structure TaskOps (σ : Type) where
  start : TaskParams → σ → TaskParams × σ
  stop : TaskParams → σ → TaskParams × σ
  start_withoutArgs : ∀ t p, (start t p).1.withoutArgs = t.withoutArgs
  stop_withoutArgs : ∀ t p, (stop t p).1.withoutArgs = t.withoutArgs

inductive Loop
  | rtsp
  | preview
  | gat1400
  deriving DecidableEq

namespace Task

-- Next to the new task: if the object is taken out of `pobjQueue`.
def previewProcBeat (tvSec : Int) (t : TaskParams) : TaskParams × Bool :=
  if t.preview.length > 0 then
    ({ t with previewBeat := tvSec }, false)
  else if t.preview.length = 0 ∧ t.previewTaskBeat = 0 then
    ({ t with previewBeat := 0 }, true)
  else
    (t, false)

end Task

namespace Loop

variable {σ : Type}

def rtspTaskBeat (ops : TaskOps σ) (nowSec : Int) (t : TaskParams) (p : σ) : TaskParams × σ :=
  if t.livestream ≠ 0 then
    if t.liveTaskBeat = 0 then
      let (t, p) := ops.start t p
      ({ t with liveTaskBeat := nowSec }, p)
    else if nowSec - t.liveTaskBeat > TASK_BEAT_TIMEOUT then
      let t := { t with liveRestart := t.liveRestart + 1 }
      let (t, p) := ops.stop t p
      let (t, p) := ops.start t p
      ({ t with liveTaskBeat := nowSec }, p)
    else
      (t, p)
  else if t.liveTaskBeat > 0 then
    let (t, p) := ops.stop t p
    ({ t with liveTaskBeat := 0 }, p)
  else
    (t, p)

def previwTaskBeat (ops : TaskOps σ) (nowSec : Int) (t : TaskParams) (p : σ) : TaskParams × σ :=
  if t.preview.length > 0 then
    if t.previewTaskBeat = 0 then
      let (t, p) := ops.start t p
      ({ t with previewTaskBeat := nowSec }, p)
    else if nowSec - t.previewTaskBeat > TASK_BEAT_TIMEOUT then
      ({ t with previewTaskBeat := nowSec }, p)
    else
      (t, p)
  else if t.previewTaskBeat > 0 then
    let (t, p) := ops.stop t p
    ({ t with previewTaskBeat := 0 }, p)
  else
    (t, p)

def gat1400TaskBeat (ops : TaskOps σ) (nowSec : Int) (t : TaskParams) (p : σ) : TaskParams × σ :=
  if t.capture ≠ 0 then
    if t.captureTaskBeat = 0 then
      let (t, p) := ops.start t p
      ({ t with captureTaskBeat := nowSec }, p)
    else if nowSec - t.captureTaskBeat > TASK_BEAT_TIMEOUT then
      ({ t with captureTaskBeat := nowSec }, p)
    else
      (t, p)
  else if t.captureTaskBeat > 0 then
    let (t, p) := ops.stop t p
    ({ t with captureTaskBeat := 0 }, p)
  else
    (t, p)

-- If the task of the loop is to run, and the second at which it was last seen to.
def flag : Loop → TaskParams → Bool
  | rtsp, t    => t.livestream ≠ 0
  | preview, t => t.preview.length > 0
  | gat1400, t => t.capture ≠ 0

def beat : Loop → TaskParams → Int
  | rtsp, t    => t.liveTaskBeat
  | preview, t => t.previewTaskBeat
  | gat1400, t => t.captureTaskBeat

def procBeat : Loop → Int → TaskParams → TaskParams × Bool
  | rtsp    => Task.rtspProcBeat
  | preview => Task.previewProcBeat
  | gat1400 => Task.gat1400ProcBeat

def taskBeat (ops : TaskOps σ) : Loop → Int → TaskParams → σ → TaskParams × σ
  | rtsp    => rtspTaskBeat ops
  | preview => previwTaskBeat ops
  | gat1400 => gat1400TaskBeat ops

-- Of a callback what is about the task: that of the rtsp player tells that it is running.
def callback : Loop → Int → TaskParams → TaskParams
  | rtsp, nowSec, t => Task.rtspCallback nowSec t
  | _, _, t         => t

end Loop

section

variable {σ : Type} {ops : TaskOps σ} {l : Loop} {nowSec : Int} {t : TaskParams} {p : σ}

@[simp]
theorem Loop.flag_withoutArgs : l.flag t.withoutArgs = l.flag t := by
  cases l <;> rfl

@[simp]
theorem Loop.beat_withoutArgs : l.beat t.withoutArgs = l.beat t := by
  cases l <;> rfl

@[simp]
theorem TaskOps.flag_start : l.flag (ops.start t p).1 = l.flag t := by
  rw [← Loop.flag_withoutArgs, ops.start_withoutArgs, Loop.flag_withoutArgs]

@[simp]
theorem TaskOps.flag_stop : l.flag (ops.stop t p).1 = l.flag t := by
  rw [← Loop.flag_withoutArgs, ops.stop_withoutArgs, Loop.flag_withoutArgs]

namespace Loop

-- The three loops write the time alike, although they do not start tasks alike.
theorem beat_taskBeat (h : l.flag t) :
    l.beat (l.taskBeat ops nowSec t p).1 =
      if l.beat t = 0 ∨ nowSec - l.beat t > TASK_BEAT_TIMEOUT then nowSec else l.beat t := by
  cases l <;> simp only [flag, decide_eq_true_eq] at h <;>
    simp only [taskBeat, rtspTaskBeat, previwTaskBeat, gat1400TaskBeat, beat, h, if_true] <;>
    grind

theorem beat_taskBeat_of_not_flag (h : l.flag t = false) :
    l.beat (l.taskBeat ops nowSec t p).1 = if l.beat t > 0 then 0 else l.beat t := by
  cases l <;> simp only [flag, decide_eq_false_iff_not] at h <;>
    simp only [taskBeat, rtspTaskBeat, previwTaskBeat, gat1400TaskBeat, beat, h, if_false] <;>
    grind

theorem beat_taskBeat_le (h : l.beat t ≤ nowSec) :
    l.beat (l.taskBeat ops nowSec t p).1 ≤ nowSec := by
  by_cases hf : l.flag t
  case pos =>
    rw [beat_taskBeat hf]
    split <;> omega
  case neg =>
    rw [beat_taskBeat_of_not_flag (by simpa using hf)]
    split <;> omega

theorem flag_taskBeat : l.flag (l.taskBeat ops nowSec t p).1 = l.flag t := by
  have hs : ∀ t p, l.flag (ops.start t p).1 = l.flag t := fun _ _ => TaskOps.flag_start
  have ht : ∀ t p, l.flag (ops.stop t p).1 = l.flag t := fun _ _ => TaskOps.flag_stop
  cases l <;> simp only [taskBeat, rtspTaskBeat, previwTaskBeat, gat1400TaskBeat] <;>
    simp only [flag] at hs ht ⊢ <;> repeat' split
  all_goals simp only [hs, ht]

end Loop

end

namespace Task

def rtspTaskOps (out : Outcome) (buff : Text) : TaskOps Proc where
  start := rtspStart out buff
  stop := rtspStop
  start_withoutArgs t p := by
    simp only [rtspStart]
    repeat' split
    all_goals rfl
  stop_withoutArgs t p := by
    simp only [rtspStop]
    split <;> rfl

def gat1400TaskOps (out : Outcome) (i : Nat) (buff : Text) : TaskOps Proc where
  start := gat1400Start out i buff
  stop := gat1400Stop buff
  start_withoutArgs t p := by
    simp only [gat1400Start]
    repeat' split
    all_goals rfl
  stop_withoutArgs t p := by
    simp only [gat1400Stop]
    repeat' split
    all_goals rfl

variable {out : Outcome} {buff : Text} {nowSec : Int} {i : Nat}

theorem rtspTaskBeat_eq :
    rtspTaskBeat nowSec out buff = Loop.rtspTaskBeat (rtspTaskOps out buff) nowSec :=
  rfl

theorem gat1400TaskBeat_eq :
    gat1400TaskBeat nowSec out i buff = Loop.gat1400TaskBeat (gat1400TaskOps out i buff) nowSec :=
  rfl

end Task
