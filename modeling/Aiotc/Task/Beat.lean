import Aiotc.Slave.Rest

-- rtsp.cpp and gat1400.cpp: the processes that run the live and the capture tasks of objects.

-- What `gat1400_start_capture` was called with.
structure Capture where
  deviceId : CStr
  obj : Nat
  mode : Int
  platformId : CStr

-- What is private to a process and goes with it: its heap (where a block of `rtspParams` has a
-- `playhandle` or not), `gat1400Params->handle` and the captures of the library. `fault` tells that
-- the memory of a block was used or freed that this process has not allocated, or has freed.
structure Proc where
  incarnation : Nat := 0
  heap : Addr → Option Bool := fun _ => none
  handle : Bool := false
  captures : List Capture := []
  fault : Bool := false

def TASK_BEAT_TIMEOUT : Int := 30

namespace Proc

def Valid (p : Proc) (b : Block) : Prop :=
  b.incarnation = p.incarnation ∧ (p.heap b.addr).isSome

instance (p : Proc) (b : Block) : Decidable (p.Valid b) :=
  inferInstanceAs (Decidable (_ ∧ _))

def malloc (a : Ptr) (p : Proc) : Option Block × Proc :=
  match a with
  | none   => (none, p)
  | some a =>
    if (p.heap a).isSome then
      (none, p)
    else
      (some ⟨p.incarnation, a⟩, { p with heap := Function.update p.heap a (some false) })

-- A use of the memory that a pointer, which can be NULL, points to.
def deref (b : Option Block) (p : Proc) : Proc :=
  if ∃ b' ∈ b, p.Valid b' then p else { p with fault := true }

def free (b : Block) (p : Proc) : Proc :=
  let p := p.deref (some b)
  { p with heap := Function.update p.heap b.addr none }

def playhandle (b : Block) (p : Proc) : Bool :=
  (p.heap b.addr).getD false

def playerStartPlay (b : Block) (ok : Bool) (p : Proc) : Proc :=
  if ok then { p with heap := Function.update p.heap b.addr (some true) } else p

def gat1400StartCapture (c : Capture) (p : Proc) : Proc :=
  { p with captures := p.captures ++ [c] }

def gat1400StopCapture (deviceId : CStr) (p : Proc) : Proc :=
  { p with captures := p.captures.filter (·.deviceId ≠ deviceId) }

def exit (p : Proc) : Proc :=
  { p with heap := fun _ => none, captures := [] }

def start (handle : Bool) (p : Proc) : Proc :=
  { p with
    incarnation := p.incarnation + 1
    heap := fun _ => none
    handle := handle
    captures := [] }

end Proc

-- The outcomes of the allocation and of `player_start_play`.
structure Outcome where
  malloc : Ptr
  play : Bool := true

namespace Task

-- `buff` is the `originaldata` of the object.
def rtspStart (out : Outcome) (buff : Text) (t : TaskParams) (p : Proc) : TaskParams × Proc :=
  let (liveArgs, p) := if t.liveArgs = none then p.malloc out.malloc else (t.liveArgs, p)
  let t := { t with liveArgs := liveArgs }
  match liveArgs with
  | none   => (t, p)
  | some b =>
    let p := p.deref b
    let tcp := getIntValFromJson buff ["data", "tcpEnable"]
    let url := getStrValFromJson buff ["data", "url"]
    if p.playhandle b ∨ tcp < 0 ∨ url = none then
      (t, p)
    else
      (t, p.playerStartPlay b out.play)

def rtspStop (t : TaskParams) (p : Proc) : TaskParams × Proc :=
  match t.liveArgs with
  | none   => (t, p)
  | some b => ({ t with liveArgs := none }, (p.deref b).free b)

-- Of `rtsp_callback` what is about the task.
def rtspCallback (nowSec : Int) (t : TaskParams) : TaskParams :=
  if t.liveTaskBeat ≠ nowSec ∧ t.liveTaskBeat > 0 then { t with liveTaskBeat := nowSec } else t

-- `i` is the place of the object.
def gat1400Start (out : Outcome) (i : Nat) (buff : Text) (t : TaskParams) (p : Proc) :
    TaskParams × Proc :=
  if ¬p.handle then
    (t, p)
  else
    let mode := getIntValFromJson buff ["data", "mode"]
    let deviceId := getStrValFromJson buff ["data", "deviceId"]
    let platformId := getStrValFromJson buff ["data", "platformId"]
    match deviceId, platformId with
    | some deviceId, some platformId =>
      let (captureArgs, p) :=
        if t.captureArgs = none then p.malloc out.malloc else (t.captureArgs, p)
      let t := { t with captureArgs := captureArgs }
      if captureArgs = none then
        (t, p)
      else
        (t, p.gat1400StartCapture ⟨deviceId, i, mode, platformId⟩)
    | _, _ => (t, p)

def gat1400Stop (buff : Text) (t : TaskParams) (p : Proc) : TaskParams × Proc :=
  if ¬p.handle then
    (t, p)
  else
    match getStrValFromJson buff ["data", "deviceId"] with
    | none          => (t, p)
    | some deviceId =>
      let p := p.gat1400StopCapture deviceId
      match t.captureArgs with
      | none   => (t, p)
      | some b => ({ t with captureArgs := none }, p.free b)

-- Of `gat1400_capture_callback` what is about the task.
def gat1400CaptureCallback (t : TaskParams) (p : Proc) : TaskParams × Proc :=
  (t, p.deref t.captureArgs)

-- Next to the new task: if the object is taken out of `pobjQueue`.
def rtspProcBeat (tvSec : Int) (t : TaskParams) : TaskParams × Bool :=
  if t.livestream ≠ 0 then
    ({ t with liveBeat := tvSec }, false)
  else if t.liveTaskBeat = 0 then
    ({ t with liveBeat := 0 }, true)
  else
    (t, false)

def gat1400ProcBeat (tvSec : Int) (t : TaskParams) : TaskParams × Bool :=
  if t.capture ≠ 0 then
    ({ t with captureBeat := tvSec }, false)
  else if t.captureTaskBeat = 0 then
    ({ t with captureBeat := 0 }, true)
  else
    (t, false)

def rtspTaskBeat (nowSec : Int) (out : Outcome) (buff : Text) (t : TaskParams) (p : Proc) :
    TaskParams × Proc :=
  if t.livestream ≠ 0 then
    if t.liveTaskBeat = 0 then
      let (t, p) := rtspStart out buff t p
      ({ t with liveTaskBeat := nowSec }, p)
    else if nowSec - t.liveTaskBeat > TASK_BEAT_TIMEOUT then
      let t := { t with liveRestart := t.liveRestart + 1 }
      let (t, p) := rtspStop t p
      let (t, p) := rtspStart out buff t p
      ({ t with liveTaskBeat := nowSec }, p)
    else
      (t, p)
  else if t.liveTaskBeat > 0 then
    let (t, p) := rtspStop t p
    ({ t with liveTaskBeat := 0 }, p)
  else
    (t, p)

def gat1400TaskBeat (nowSec : Int) (out : Outcome) (i : Nat) (buff : Text) (t : TaskParams)
    (p : Proc) : TaskParams × Proc :=
  if t.capture ≠ 0 then
    if t.captureTaskBeat = 0 then
      let (t, p) := gat1400Start out i buff t p
      ({ t with captureTaskBeat := nowSec }, p)
    else if nowSec - t.captureTaskBeat > TASK_BEAT_TIMEOUT then
      ({ t with captureTaskBeat := nowSec }, p)
    else
      (t, p)
  else if t.captureTaskBeat > 0 then
    let (t, p) := gat1400Stop buff t p
    ({ t with captureTaskBeat := 0 }, p)
  else
    (t, p)

inductive Kind
  | rtsp
  | gat1400
  deriving DecidableEq

namespace Kind

def args : Kind → TaskParams → Option Block
  | rtsp, t    => t.liveArgs
  | gat1400, t => t.captureArgs

def procBeat : Kind → Int → TaskParams → TaskParams × Bool
  | rtsp    => rtspProcBeat
  | gat1400 => gat1400ProcBeat

def taskBeat (k : Kind) (nowSec : Int) (out : Outcome) (i : Nat) (buff : Text) :
    TaskParams → Proc → TaskParams × Proc :=
  match k with
  | rtsp    => rtspTaskBeat nowSec out buff
  | gat1400 => gat1400TaskBeat nowSec out i buff

-- `none` where the library does not call back for the object at `i`: it does so for the players
-- that have a `playhandle`, and for the captures that were started and not stopped.
def callback (k : Kind) (nowSec : Int) (i : Nat) (t : TaskParams) (p : Proc) :
    Option (TaskParams × Proc) :=
  match k with
  | rtsp    => if t.liveArgs.any p.playhandle then some (rtspCallback nowSec t, p) else none
  | gat1400 =>
    if p.captures.any (·.obj = i) then some (gat1400CaptureCallback t p) else none

end Kind

-- A host with a process of one kind. `objQueue` and `pobjQueue` are in shared memory; objects are
-- given by their places in the former.
structure State where
  kind : Kind
  ap : AiotcParams
  pobjQueue : List Nat := []
  tvSec : Int := 0
  lastReboot : Int := 0
  live : Bool := true
  zombie : Bool := false
  proc : Proc := {}

namespace State

def task (i : Nat) (f : Text → TaskParams → Proc → Option (TaskParams × Proc)) (s : State) :
    Option State := do
  let o ← s.ap.objQueue[i]?
  let (task, proc) ← f o.originaldata o.task s.proc
  let objQueue := s.ap.objQueue.set i { o with task := task }
  return { s with ap := { s.ap with objQueue := objQueue }, proc := proc }

end State

-- The requests that start and stop tasks.
def isTask : Url → Bool
  | .systemInit  => false
  | .systemSlave => false
  | .objAdd      => false
  | .objDel      => false
  | _            => true

def delObjFromPidQue (id : Int) (s : State) : State :=
  let condition i := s.ap.objQueue[i]?.any (conditionByObjId id)
  { s with pobjQueue := Queue.delFromQueue condition s.pobjQueue }

-- The object at `i` is given to the process where it does not have it.
def getEmptyProc (i : Nat) (s : State) : Option State := do
  let o ← s.ap.objQueue[i]?
  if s.pobjQueue.any fun j => s.ap.objQueue[j]?.any (conditionByObjId o.id) then
    return s
  else
    return { s with pobjQueue := s.pobjQueue ++ [i] }

def procBeat (i : Nat) (s : State) : Option State := do
  let o ← s.ap.objQueue[i]?
  let s := if (s.kind.procBeat s.tvSec o.task).2 then delObjFromPidQue o.id s else s
  s.task i fun _ t p => some ((s.kind.procBeat s.tvSec t).1, p)

-- The process is running, and `gat1400Init` tells if `gat1400_init` succeeds.
def creatProcByPid (tvSec : Int) (gat1400Init : Bool) (s : State) : State :=
  if tvSec - s.lastReboot < 300 then
    s
  else
    let handle := s.kind = .gat1400 ∧ s.ap.sysOrgData.isSome ∧ gat1400Init
    { s with
      live := true
      lastReboot := tvSec
      tvSec := tvSec
      proc := s.proc.start handle }

-- `beatThread` is a pass of `beat_thread` that takes the time, `procBeat` and `taskBeat` are what
-- the passes do to one object.
inductive Label
  | request (url : Url) (buf : Text) (malloc : ObjMalloc)
  | getEmptyProc (i : Nat)
  | beatThread (tvSec : Int)
  | procBeat (i : Nat)
  | taskBeat (i : Nat) (out : Outcome)
  | callback (i : Nat)
  | crash
  | creatProcByPid (tvSec : Int) (gat1400Init : Bool)

def exec : Label → State → Option State
  | .request url buf malloc, s =>
    if isTask url then some { s with ap := (Slave.rest url buf malloc s.ap).1 } else none
  | .getEmptyProc i, s => getEmptyProc i s
  | .beatThread tvSec, s => if s.live then some { s with tvSec := tvSec } else none
  | .procBeat i, s => if s.live ∧ i ∈ s.pobjQueue then procBeat i s else none
  | .taskBeat i out, s =>
    if s.live ∧ i ∈ s.pobjQueue then
      s.task i fun buff t p => some (s.kind.taskBeat s.tvSec out i buff t p)
    else
      none
  | .callback i, s =>
    if s.live then s.task i fun _ t p => s.kind.callback s.tvSec i t p else none
  | .crash, s =>
    if s.live then some { s with live := false, zombie := true, proc := s.proc.exit } else none
  | .creatProcByPid tvSec gat1400Init, s =>
    if s.zombie then some (creatProcByPid tvSec gat1400Init { s with zombie := false }) else none

def Step (s : State) (l : Label) (s' : State) : Prop :=
  exec l s = some s'

end Task
