import Aiotc.Library.Run
import Aiotc.Preview.Task

-- The requests to start and stop previews, the loop of the preview process, and its threads.

namespace PreviewHost

-- `objQueue` and `pobjQueue` are in shared memory; objects are given by their places in the former.
-- `passes` counts the passes of the loop over an object since its setting was changed.
structure State where
  ap : AiotcParams
  pobjQueue : List Nat := []
  tvSec : Int
  proc : PreviewProc := {}
  passes : Nat → Nat := fun _ => 0

namespace State

def task (i : Nat) (s : State) : Option TaskParams :=
  s.ap.objQueue[i]?.map ObjParam.task

def setTask (i : Nat) (t : TaskParams) (s : State) : State :=
  let objQueue := s.ap.objQueue.modify i fun o => { o with task := t }
  { s with ap := { s.ap with objQueue := objQueue } }

def preview (i : Nat) (s : State) : Option CStr :=
  (s.task i).map TaskParams.preview

end State

def request (url : Url) (buf : Text) (malloc : ObjMalloc) (s : State) : State :=
  let s' := { s with ap := (Slave.rest url buf malloc s.ap).1 }
  { s' with passes := fun i => if s'.preview i = s.preview i then s.passes i else 0 }

def isId (id : Int) (s : State) (i : Nat) : Bool :=
  s.ap.objQueue[i]?.any (conditionByObjId id)

-- The object at `i` is given to the process where it does not have it.
def getEmptyProc (i : Nat) (s : State) : Option State := do
  let o ← s.ap.objQueue[i]?
  return if s.pobjQueue.any (isId o.id s) then s else { s with pobjQueue := s.pobjQueue ++ [i] }

-- The object whose node a pass over the object at `i` takes out of `pobjQueue` and frees.
def taken (i : Nat) (s : State) : Option Nat := do
  let o ← s.ap.objQueue[i]?
  if (Task.previewProcBeat s.tvSec o.task).2 then
    Queue.searchFromQueue (isId o.id s) s.pobjQueue
  else
    none

def procBeat (i : Nat) (s : State) : Option State := do
  let o ← s.ap.objQueue[i]?
  let (t, del) := Task.previewProcBeat s.tvSec o.task
  let pobjQueue := if del then Queue.delFromQueue (isId o.id s) s.pobjQueue else s.pobjQueue
  return { s.setTask i t with pobjQueue := pobjQueue, proc := s.proc.freeNode (taken i s) }

def taskBeat (i : Nat) (out : PreviewOutcome) (s : State) : Option State := do
  let t ← s.task i
  let (t, proc) := Loop.previwTaskBeat (PreviewProc.previewTaskOps out i) s.tvSec t s.proc
  let passes := Function.update s.passes i (s.passes i + 1)
  return { s.setTask i t with proc := proc, passes := passes }

-- The object of a thread has the task that it was started with.
def thread (j : Nat) (x : Progress) (s : State) : Option State := do
  let th ← s.proc.threads[j]?
  let t ← s.task th.obj
  let (th', previewArgs, shm) ← th.step x t.preview t.previewArgs s.proc.shm
  let lost := s.proc.lost || th.pc = .running && s.proc.stopped th.obj
  let stray := s.proc.stray || th.usesNode && !th.node
  let proc := { s.proc with
    shm := shm, threads := s.proc.threads.set j th', lost := lost, stray := stray }
  return { s.setTask th.obj { t with previewArgs := previewArgs } with proc := proc }

-- A pass of `beat_thread` takes the time by `beatThread`; `procBeat` and `taskBeat` are what it
-- does to one object.
inductive Label
  | request (url : Url) (buf : Text) (malloc : ObjMalloc)
  | getEmptyProc (i : Nat)
  | beatThread (tvSec : Int)
  | procBeat (i : Nat)
  | taskBeat (i : Nat) (out : PreviewOutcome)
  | thread (j : Nat) (x : Progress)

-- Time does not go back.
def exec : Label → State → Option State
  | .request url buf malloc, s => if Task.isTask url then some (request url buf malloc s) else none
  | .getEmptyProc i, s         => getEmptyProc i s
  | .beatThread tvSec, s       => if s.tvSec ≤ tvSec then some { s with tvSec := tvSec } else none
  | .procBeat i, s             =>
    if s.proc.shm.null = false ∧ i ∈ s.pobjQueue then procBeat i s else none
  | .taskBeat i out, s         =>
    if s.proc.shm.null = false ∧ i ∈ s.pobjQueue then taskBeat i out s else none
  | .thread j x, s             => if s.proc.shm.null = false then thread j x s else none

def Step (s : State) (l : Label) (s' : State) : Prop :=
  exec l s = some s'

def starts (t : TaskParams) : Bool :=
  t.preview.length > 0 ∧ t.previewTaskBeat = 0

def stops (t : TaskParams) : Bool :=
  t.preview.length = 0 ∧ t.previewTaskBeat > 0

section

variable {σ : Type} {ops : TaskOps σ} {nowSec : Int} {t : TaskParams} {p : σ}

theorem previwTaskBeat_starts (h : starts t) : Loop.previwTaskBeat ops nowSec t p =
    ({ (ops.start t p).1 with previewTaskBeat := nowSec }, (ops.start t p).2) := by
  simp only [starts, decide_eq_true_eq] at h
  simp [Loop.previwTaskBeat, h]

theorem previwTaskBeat_stops (h : stops t) : Loop.previwTaskBeat ops nowSec t p =
    ({ (ops.stop t p).1 with previewTaskBeat := 0 }, (ops.stop t p).2) := by
  simp only [stops, decide_eq_true_eq] at h
  simp [Loop.previwTaskBeat, h]

theorem previwTaskBeat_idle (hs : starts t = false) (ht : stops t = false) :
    (Loop.previwTaskBeat ops nowSec t p).1.previewArgs = t.previewArgs ∧
      (Loop.previwTaskBeat ops nowSec t p).2 = p := by
  simp only [starts, stops, decide_eq_false_iff_not, not_and] at hs ht
  simp only [Loop.previwTaskBeat]
  split
  case isTrue hl =>
    rw [if_neg (hs hl)]
    split <;> exact ⟨rfl, rfl⟩
  case isFalse hl =>
    rw [if_neg (ht (Nat.eq_zero_of_not_pos hl))]
    exact ⟨rfl, rfl⟩

end

-- A request that starts or stops a task leaves alone what it does not set.
theorem rest_task {α : Type} {f : TaskParams → α} (hf : ∀ o, f (Slave.fixed o).task = f o.task)
    {url : Url} (h : Task.isTask url) (buf : Text) (malloc : ObjMalloc) (s : State) (i : Nat) :
    (State.task i { s with ap := (Slave.rest url buf malloc s.ap).1 }).map f =
      (s.task i).map f := by
  have hq : (Slave.rest url buf malloc s.ap).1.objQueue.map Slave.fixed =
      s.ap.objQueue.map Slave.fixed := by
    refine Slave.rest_fixed ?_ ?_ buf malloc
    · rintro rfl
      cases h
    · rintro rfl
      cases h
  have hm := congrArg (fun q => q[i]?.map fun o => f o.task) hq
  simpa [State.task, Function.comp_def, hf] using hm

theorem task_setTask {s : State} {i j : Nat} {t t' : TaskParams} (h : s.task i = some t) :
    (s.setTask i t').task j = if j = i then some t' else s.task j := by
  simp only [State.task, Option.map_eq_some_iff] at h
  obtain ⟨o, ho, -⟩ := h
  by_cases hj : j = i
  case pos =>
    subst hj
    simp [State.task, State.setTask, ho]
  case neg => simp [State.task, State.setTask, Ne.symm hj, hj]

section

-- A live object of a slave.
def camera : ObjParam where
  id := 3
  name := "gate"
  type := "camera"
  subtype := "rtsp"
  originaldata := some (.object [("id", .number 3)])

def slaveAp : AiotcParams where
  configArgs := ⟨0, 100, 100, 1000, 100⟩
  objQueue := [camera]

def previewStartHls : Text :=
  some (.object [("id", .number 3), ("type", .string "hls")])

def id3 : Text :=
  some (.object [("id", .number 3)])

end

end PreviewHost
