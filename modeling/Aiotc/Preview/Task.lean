import Aiotc.Task.Loops

-- preview.cpp, and of hls.cpp, httpflv.cpp and wspreview.cpp the operations that start and stop a
-- preview.

-- The rows of `previewOps`.
inductive Backend
  | hls
  | httpFlv
  | ws
  deriving DecidableEq

namespace Backend

def type : Backend → CStr
  | hls     => "hls"
  | httpFlv => "http-flv"
  | ws      => "ws"

def previewOps : List Backend := [hls, httpFlv, ws]

-- The row that a setting names.
def named (preview : CStr) : Option Backend :=
  previewOps.find? (preview = ·.type)

-- Those that run a preview in a thread of its own.
def threaded : Backend → Bool
  | hls     => true
  | httpFlv => true
  | ws      => false

end Backend

-- `ops` is the row that `init`, `start`, `stop` and `uninit` are from.
structure PreviewParams where
  ops : Option Backend := none
  running : Int := 0

-- The blocks of `previewParams` in shared memory, in the order in which they were allocated. A
-- block is `none` when it was freed. `fault` tells that such a one was used or freed again, and
-- `null` that `NULL` was used, which ends the process.
structure PreviewShm where
  blocks : List (Option PreviewParams) := []
  fault : Bool := false
  null : Bool := false

namespace PreviewShm

def get (b : Ptr) (shm : PreviewShm) : Option PreviewParams := do
  (← shm.blocks[← b]?)

def freed (b : Ptr) (shm : PreviewShm) : Bool :=
  b.any fun b => shm.blocks[b]?.any Option.isNone

def shmMalloc (ok : Bool) (shm : PreviewShm) : Ptr × PreviewShm :=
  if ok then
    (some shm.blocks.length, { shm with blocks := shm.blocks ++ [some {}] })
  else
    (none, shm)

def deref (b : Ptr) (shm : PreviewShm) : PreviewShm :=
  { shm with fault := shm.fault || shm.freed b, null := shm.null || b.isNone }

def write (b : Ptr) (f : PreviewParams → PreviewParams) (shm : PreviewShm) : PreviewShm :=
  let shm := shm.deref b
  { shm with blocks := shm.blocks.modify (b.getD shm.blocks.length) (Option.map f) }

def shmFree (b : Ptr) (shm : PreviewShm) : PreviewShm :=
  let shm := shm.deref b
  { shm with blocks := shm.blocks.set (b.getD shm.blocks.length) none }

end PreviewShm

-- Where a `hls_thread` or `httpflv_thread` is: before it reads `previewArgs` and calls
-- `allocVideoShm`, before it sets `running`, before and in `previewInit`, where that has failed,
-- before it sets `checkFunc`; before `previewLoop`, at the head of its loop and in it; before
-- `previewUnInit` and in it, before `shmFree` and `previewArgs = NULL`, and behind this.
inductive ThreadPc
  | alloc
  | running
  | init
  | probe
  | failed
  | checkFunc
  | enter
  | loop
  | body
  | unInit
  | release
  | free
  | null
  | last
  | ended
  deriving DecidableEq

-- The pointers are what it has read from `previewArgs`: at its start, in the function of ffmpeg.cpp
-- that it is in, and in `read_video_packet` or `delOldTs` while this is called from there. `init`
-- tells that `previewInit` has not failed, and `node` that the node of `pobjQueue` that the thread
-- was started with is still allocated.
structure PreviewThread where
  obj : Nat
  node : Bool := true
  backend : Backend
  pc : ThreadPc := .alloc
  args : Ptr := none
  frame : Ptr := none
  called : Option Ptr := none
  init : Bool := true

-- How a thread goes on where the code leaves this to others: it stays, it calls or returns from
-- `read_video_packet` or `delOldTs`, what it does is done, fails, or `previewLoop` breaks its loop.
inductive Progress
  | stay
  | call
  | ret
  | done
  | fail
  | leave
  deriving DecidableEq

namespace PreviewThread

def live (t : PreviewThread) : Bool :=
  t.pc ≠ .ended

-- The node of the object at `i` is freed, where `taken` is some `i`.
def freeNode (taken : Option Nat) (t : PreviewThread) : PreviewThread :=
  if taken = some t.obj then { t with node := false } else t

-- The steps in which it can use the node of its object, be it to print the id.
def usesNode (t : PreviewThread) : Bool :=
  t.pc ∉ [.running, .loop, .free, .null, .ended]

-- The settings that `previewInit` supports.
def supported (preview : CStr) : Bool :=
  (Backend.named preview).any Backend.threaded

-- A use of `previewArgs` by `previewInit` or `previewLoop`, or what they have called.
def use (t : PreviewThread) (shm : PreviewShm) : PreviewShm :=
  (t.called.getD t.frame |> shm.deref).deref t.frame

-- The code between `previewInit` and `previewLoop`.
def initialized (t : PreviewThread) : PreviewThread :=
  { t with pc := if t.backend = .hls then .checkFunc else .enter, called := none }

-- `args` is `previewArgs` of the object. Next to the thread it comes back, with the memory. Where
-- the setting is not supported any more when it is looked at again, there is no output context.
def step (x : Progress) (preview : CStr) (args : Ptr) (shm : PreviewShm) (t : PreviewThread) :
    Option (PreviewThread × Ptr × PreviewShm) :=
  match t.pc, x with
  | .alloc, .fail    => some ({ t with pc := .ended }, args, shm)
  | .alloc, _        => some ({ t with pc := .running, args := args }, args, shm)
  | .running, _      =>
    some ({ t with pc := .init }, args, shm.write t.args fun p => { p with running := 1 })
  | .init, _         =>
    let pc := if supported preview then .probe else .failed
    some ({ t with pc := pc, frame := args, called := none }, args, shm.deref args)
  | .probe, .call    => some ({ t with called := some args }, args, t.use shm)
  | .probe, .ret     => some ({ t with called := none }, args, t.use shm)
  | .probe, .done    =>
    let shm := t.use shm
    some (t.initialized, args, { shm with null := shm.null || !supported preview })
  | .probe, .fail    => some ({ t with pc := .failed, called := none }, args, t.use shm)
  | .probe, _        => some (t, args, t.use shm)
  | .failed, _       =>
    some ({ t with init := false }.initialized, args,
      shm.write t.args fun p => { p with running := 0 })
  | .checkFunc, _    => some ({ t with pc := .enter }, args, shm.deref t.args)
  | .enter, _        =>
    some ({ t with pc := .loop, frame := args, called := none }, args, shm.deref args)
  | .loop, _         =>
    let running := (shm.get t.frame).any fun p => p.running ≠ 0
    some ({ t with pc := if running then .body else .unInit }, args, shm.deref t.frame)
  | .body, .call     => some ({ t with called := some args }, args, t.use shm)
  | .body, .ret      => some ({ t with called := none }, args, t.use shm)
  | .body, .done     => some ({ t with pc := .loop, called := none }, args, t.use shm)
  | .body, .fail     =>
    some ({ t with pc := .loop, called := none }, args,
      (t.use shm).write t.frame fun p => { p with running := 0 })
  | .body, .leave    => some ({ t with pc := .unInit, called := none }, args, t.use shm)
  | .body, _         => some (t, args, t.use shm)
  | .unInit, _       =>
    if t.backend = .hls ∨ t.init then
      some ({ t with pc := .release, frame := args }, args, shm.deref args)
    else
      some ({ t with pc := .free }, args, shm)
  | .release, _      => some ({ t with pc := .free }, args, shm.deref t.frame)
  | .free, _         => some ({ t with pc := .null }, args, shm.shmFree args)
  | .null, _         => some ({ t with pc := .last }, none, shm)
  | .last, _         => some ({ t with pc := .ended }, args, shm)
  | .ended, _        => none

end PreviewThread

-- The preview process. `started` is the backend that was started last for an object and not stopped
-- since, and `stopped` tells that `preview_stop` was called for it last. `lost` tells that a thread
-- of an object that is stopped has set `running`, and `stray` that a thread could use the node of
-- its object after this was freed.
structure PreviewProc where
  shm : PreviewShm := {}
  threads : List PreviewThread := []
  started : Nat → Option Backend := fun _ => none
  stopped : Nat → Bool := fun _ => false
  lost : Bool := false
  stray : Bool := false

-- The outcomes of `shmMalloc` and `pthread_create`.
structure PreviewOutcome where
  malloc : Bool := true
  create : Bool := true

namespace PreviewProc

def setStarted (i : Nat) (b : Option Backend) (p : PreviewProc) : PreviewProc :=
  { p with started := Function.update p.started i b }

def setStopped (i : Nat) (stopped : Bool) (p : PreviewProc) : PreviewProc :=
  { p with stopped := Function.update p.stopped i stopped }

def freeNode (taken : Option Nat) (p : PreviewProc) : PreviewProc :=
  { p with threads := p.threads.map (·.freeNode taken) }

-- `hls_start`, `httpflv_start` and `wspreview_start` for the object at `i`.
def start (b : Backend) (create : Bool) (i : Nat) (p : PreviewProc) : PreviewProc :=
  let p := p.setStarted i (some b)
  if b.threaded ∧ create then
    { p with threads := p.threads ++ [{ obj := i, backend := b }] }
  else
    p

-- `hls_stop`, `httpflv_stop` and `wspreview_stop`.
def stop (b : Backend) (i : Nat) (t : TaskParams) (p : PreviewProc) : PreviewProc :=
  let p := p.setStarted i none
  if b.threaded then
    { p with shm := p.shm.write t.previewArgs fun x => { x with running := 0 } }
  else
    p

-- The result is the row that was found, where the code returns 0.
def initPreviewOps (malloc : Bool) (t : TaskParams) (p : PreviewProc) :
    Option Backend × TaskParams × PreviewProc :=
  let (previewArgs, shm) :=
    if t.previewArgs = none then p.shm.shmMalloc malloc else (t.previewArgs, p.shm)
  let t := { t with previewArgs := previewArgs }
  if previewArgs = none then
    (none, t, { p with shm := shm })
  else
    let ops := Backend.named t.preview
    (ops, t, { p with shm := shm.write previewArgs fun _ => { ops := ops } })

def previewStart (out : PreviewOutcome) (i : Nat) (t : TaskParams) (p : PreviewProc) :
    TaskParams × PreviewProc :=
  let (ops, t, p) := initPreviewOps out.malloc t (p.setStopped i false)
  match ops with
  | none   => (t, p)
  | some b => (t, p.start b out.create i)

def previewStop (i : Nat) (t : TaskParams) (p : PreviewProc) : TaskParams × PreviewProc :=
  let p := p.setStopped i true
  if t.previewArgs = none then
    (t, p)
  else
    let p := { p with shm := p.shm.deref t.previewArgs }
    match (p.shm.get t.previewArgs).bind PreviewParams.ops with
    | none   => (t, p)
    | some b => (t, p.stop b i t)

def previewTaskOps (out : PreviewOutcome) (i : Nat) : TaskOps PreviewProc where
  start := previewStart out i
  stop := previewStop i
  start_withoutArgs t p := by
    simp only [previewStart, initPreviewOps]
    repeat' split
    all_goals rfl
  stop_withoutArgs t p := by
    simp only [previewStop]
    repeat' split
    all_goals rfl

end PreviewProc
