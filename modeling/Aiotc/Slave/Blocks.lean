import Aiotc.Pids.Assign
import Aiotc.Task.Loops

-- The blocks in shared memory that the objects of a slave and their copies in the queues of the
-- processes point to.

open Queue

-- An object with its pointers, none of which is NULL once it is queued.
structure ObjRef where
  id : Int
  subtype : CStr
  task : Addr
  objArg : Addr
  originaldata : Addr
  deriving DecidableEq

-- The entry of a process. Its `pobjQueue` is here, and not in `ops`.
structure HostProc where
  ops : PidOps
  pobjQueue : List ObjRef := []

-- The outcomes of the allocations of `addObj` and of its `sem_init`.
structure ObjAlloc where
  task : Ptr
  originaldata : Ptr
  semInit : Bool := true
  objArg : Ptr
  node : Bool := true

def PROC_BEAT_TIMEOUT : Int := 20

inductive ObjTask
  | live
  | capture
  | record
  | preview
  deriving DecidableEq

namespace ObjTask

def taskName : ObjTask → CStr
  | live    => "live"
  | capture => "capture"
  | record  => "record"
  | preview => "preview"

def flag : ObjTask → TaskParams → Bool
  | live, t    => t.livestream ≠ 0
  | capture, t => t.capture ≠ 0
  | record, t  => t.record ≠ 0
  | preview, t => t.preview.length > 0

def beat : ObjTask → TaskParams → Int
  | live, t    => t.liveBeat
  | capture, t => t.captureBeat
  | record, t  => t.recordBeat
  | preview, t => t.previewBeat

def setBeat (nowSec : Int) : ObjTask → TaskParams → TaskParams
  | live, t    => { t with liveBeat := nowSec }
  | capture, t => { t with captureBeat := nowSec }
  | record, t  => { t with recordBeat := nowSec }
  | preview, t => { t with previewBeat := nowSec }

end ObjTask

-- The loop that the beat threads of a process run.
def ProcFunc.loop : ProcFunc → Option Loop
  | .rtsp    => some .rtsp
  | .preview => some .preview
  | .gat1400 => some .gat1400
  | _        => none

def ObjRef.blocks (r : ObjRef) : List Addr :=
  [r.task, r.objArg, r.originaldata]

namespace SlaveHost

-- `blocks` tells what `shmMalloc` has given out, and `tasks` what the blocks of `taskParams` hold.
structure State where
  configArgs : ConfigParams
  slaveArgs : SlaveParams
  objQueue : List ObjRef := []
  pidQueue : List HostProc
  blocks : Addr → Bool := fun _ => false
  tasks : Addr → TaskParams := fun _ => {}

-- A slave with the processes that it has before the first object is added.
def init (cfg : ConfigParams) (slaveArgs : SlaveParams) (pidQueue : List PidOps) : State where
  configArgs := cfg
  slaveArgs := slaveArgs
  pidQueue := pidQueue.map ({ ops := · })

namespace State

-- What is in use is not given out.
def malloc (p : Ptr) (s : State) : Option State :=
  match p with
  | none   => some s
  | some a =>
    if s.blocks a then none else some { s with blocks := Function.update s.blocks a true }

def free (a : Addr) (s : State) : State :=
  { s with blocks := Function.update s.blocks a false }

def setTask (a : Addr) (t : TaskParams) (s : State) : State :=
  { s with tasks := Function.update s.tasks a t }

def modify (pid : Int) (f : HostProc → HostProc) (s : State) : State :=
  { s with pidQueue := modifyFound (fun p => Pids.conditionByPid pid p.ops) f s.pidQueue }

end State

def initObjArg (type : CStr) (objArg : Ptr) (s : State) : Option State :=
  if type = "camera" then s.malloc objArg else some s

-- The part of `addObj` that has its task and its text.
def initObj (id : Int) (subtype type : CStr) (buf : Text) (t d : Addr) (out : ObjAlloc)
    (s : State) : Option State :=
  if out.semInit then do
    let s ← initObjArg type out.objArg (s.setTask t (initObjTask.task buf {}))
    match if type = "camera" then out.objArg else none with
    | none   => return s
    | some g =>
      let new := { id := id, subtype := subtype, task := t, objArg := g, originaldata := d }
      let (ret, objQueue) := putToShmQueue new s.configArgs.slaveObjMax out.node s.objQueue
      let s := { s with objQueue := objQueue }
      return if ret ≠ 0 then s.free d else s
  else
    some s

def addObj (buf : Text) (out : ObjAlloc) (s : State) : Option State :=
  let id := getIntValFromJson buf ["id"]
  let name := getStrValFromJson buf ["name"]
  let type := getStrValFromJson buf ["type"]
  let subtype := getStrValFromJson buf ["data", "subtype"]
  match name, type, subtype with
  | some _, some type, some subtype =>
    if id < 0 then
      some s
    else do
      let s ← s.malloc out.task
      let s ← s.malloc out.originaldata
      match out.task, out.originaldata with
      | some t, some d => initObj id (strncpy 16 subtype) type buf t d out s
      | _, _           => return s
  | _, _, _ => some s

def updateLoad (s : State) : State :=
  let load := (s.objQueue.length * 100 : Int).tdiv s.configArgs.slaveObjMax
  { s with slaveArgs := { s.slaveArgs with load := load } }

def delObj (buf : Text) (s : State) : State :=
  let condition r := r.id = getIntValFromJson buf ["id"]
  match searchFromQueue (condition ·) s.objQueue with
  | none   => s
  | some r =>
    let s := { s with objQueue := delFromQueue (condition ·) s.objQueue }
    ((s.free r.task).free r.originaldata).free r.objArg

-- The requests that start and stop tasks write to the task of the object they find.
def requestSetting (f : TaskParams → TaskParams) (buf : Text) (s : State) : State :=
  match searchFromQueue (·.id = getIntValFromJson buf ["id"]) s.objQueue with
  | none   => s
  | some r => s.setTask r.task (f (s.tasks r.task))

def conditionByPidOps (id : Int) (name subName : CStr) (tmp : PidOps) (p : HostProc) : Bool :=
  Pids.conditionByPidOps2 name subName tmp p.ops ∧ (searchFromQueue (·.id = id) p.pobjQueue).isSome

def createProcess (tmp : PidOps) (out : Pids.AssignOutcome) (s : State) : Int × State :=
  let (msgKey, keyCache) := Pids.getMsgKey s.configArgs s.slaveArgs.keyCache
  let s := { s with slaveArgs := { s.slaveArgs with keyCache := keyCache } }
  if msgKey < 0 ∨ (tmp.procInit ∧ ¬out.procInit) then
    (-1, s)
  else
    let new := { ops := { tmp with msgKey := msgKey, pid := out.pid } }
    let max := s.configArgs.slaveObjMax * 3
    let pidQueue := (putToShmQueue new max out.opsNode s.pidQueue).2
    (out.pid, if out.semInit then { s with pidQueue := pidQueue } else s)

def hostLoad (p : HostProc) : HostProc :=
  { p with ops := { p.ops with load := (p.pobjQueue.length * 100 : Int).tdiv p.ops.taskMax } }

def putObj2pidQue (r : ObjRef) (out : Pids.AssignOutcome) (p : HostProc) : HostProc :=
  let ops := Pids.waitTaskMax out.taskMax p.ops
  if ops.taskMax ≤ 0 then
    { p with ops := ops }
  else
    hostLoad { ops := ops, pobjQueue := (putToShmQueue r ops.taskMax out.node p.pobjQueue).2 }

def delObjFromPidQue (id : Int) (p : HostProc) : HostProc :=
  hostLoad { p with pobjQueue := delFromQueue (·.id = id) p.pobjQueue }

def getEmptyProc (r : ObjRef) (name subName taskName : CStr) (out : Pids.AssignOutcome)
    (s : State) : State :=
  match Pids.getOpsByName name subName taskName with
  | none     => s
  | some tmp =>
    if s.pidQueue.any (conditionByPidOps r.id name subName tmp) then
      s
    else
      let (pid, s) :=
        match searchFromQueue (Pids.conditionByPidOps2 name subName tmp ·.ops) s.pidQueue with
        | some p => (p.ops.pid, s)
        | none   => if s.slaveArgs.load < SLAVE_LOAD_MAX then createProcess tmp out s else (-1, s)
      if pid > 0 then s.modify pid (putObj2pidQue r out) else s

-- What `objManager` does about one of the tasks of the object at `i`.
def objManager (i : Nat) (k : ObjTask) (nowSec : Int) (out : Pids.AssignOutcome) (s : State) :
    Option State := do
  let r ← s.objQueue[i]?
  let t := s.tasks r.task
  if k.flag t ∧ nowSec - k.beat t > PROC_BEAT_TIMEOUT then
    let s := getEmptyProc r "obj" r.subtype k.taskName out s
    return s.setTask r.task (k.setBeat nowSec (s.tasks r.task))
  else
    return s

-- What a beat thread of the process does to the object at `i` of its queue, which it reads through
-- the pointer of the copy.
def visit (pid : Int) (i : Nat) (f : Loop → TaskParams → TaskParams × Bool) (s : State) :
    Option State := do
  let p ← searchFromQueue (fun p => Pids.conditionByPid pid p.ops) s.pidQueue
  let l ← p.ops.proc.loop
  let r ← p.pobjQueue[i]?
  let (t, del) := f l (s.tasks r.task)
  let s := if del then s.modify pid (delObjFromPidQue r.id) else s
  return s.setTask r.task t

def creatProcByPid (oldPid tvSec pid : Int) (s : State) : State :=
  match searchFromQueue (fun p => Pids.conditionByPid oldPid p.ops) s.pidQueue with
  | none   => s
  | some p =>
    if p.ops.running = 0 then
      let keyCache := Pids.delMsgKey p.ops.msgKey s.slaveArgs.keyCache
      { s with
        pidQueue := delFromQueue (fun p => Pids.conditionByPid oldPid p.ops) s.pidQueue
        slaveArgs := { s.slaveArgs with keyCache := keyCache } }
    else if tvSec - p.ops.lastReboot < 300 then
      s
    else
      s.modify oldPid fun p => { p with ops := { p.ops with pid := pid, lastReboot := tvSec } }

-- `setting` is a request to start or stop a task, `procBeat` and `taskBeat` are what the loops of a
-- process do to one object, for which `ops` are the operations of the process.
inductive Label
  | objAdd (buf : Text) (out : ObjAlloc)
  | objDel (buf : Text)
  | setting (f : TaskParams → TaskParams) (buf : Text)
  | systemStatus
  | objManager (i : Nat) (k : ObjTask) (nowSec : Int) (out : Pids.AssignOutcome)
  | start (pid taskMax : Int)
  | procBeat (pid : Int) (i : Nat) (tvSec : Int)
  | taskBeat (pid : Int) (i : Nat) (nowSec : Int) (ops : TaskOps Unit)
  | callback (pid : Int) (i : Nat) (nowSec : Int)
  | childQuit (oldPid tvSec pid : Int)

def exec : Label → State → Option State
  | .objAdd buf out, s             => (addObj buf out s).map updateLoad
  | .objDel buf, s                 => some (delObj buf s)
  | .setting f buf, s              => some (requestSetting f buf s)
  | .systemStatus, s               => some (updateLoad s)
  | .objManager i k nowSec out, s  => objManager i k nowSec out s
  | .start pid taskMax, s          =>
    some (s.modify pid fun p => { p with ops := Pids.procStart taskMax p.ops })
  | .procBeat pid i tvSec, s       => visit pid i (fun l t => l.procBeat tvSec t) s
  | .taskBeat pid i nowSec ops, s  =>
    visit pid i (fun l t => ((l.taskBeat ops nowSec t ()).1, false)) s
  | .callback pid i nowSec, s      => visit pid i (fun l t => (l.callback nowSec t, false)) s
  | .childQuit oldPid tvSec pid, s => some (creatProcByPid oldPid tvSec pid s)

def Step (s : State) (l : Label) (s' : State) : Prop :=
  exec l s = some s'

def State.copies (s : State) : List ObjRef :=
  s.pidQueue.flatMap HostProc.pobjQueue

-- What the copies in the queues of the processes point to is allocated.
def Held (s : State) : Prop :=
  ∀ r ∈ s.copies, ∀ b ∈ r.blocks, s.blocks b = true

-- An object is deleted only while no process has a copy of it.
def Unheld (s : State) : Label → Prop
  | .objDel buf =>
    ∀ r ∈ searchFromQueue (·.id = getIntValFromJson buf ["id"]) s.objQueue, r ∉ s.copies
  | _           => True

instance (s : State) : (l : Label) → Decidable (Unheld s l)
  | .objDel _           => inferInstanceAs (Decidable (∀ _ ∈ (_ : Option _), _))
  | .objAdd _ _         => .isTrue trivial
  | .setting _ _        => .isTrue trivial
  | .systemStatus       => .isTrue trivial
  | .objManager _ _ _ _ => .isTrue trivial
  | .start _ _          => .isTrue trivial
  | .procBeat _ _ _     => .isTrue trivial
  | .taskBeat _ _ _ _   => .isTrue trivial
  | .callback _ _ _     => .isTrue trivial
  | .childQuit _ _ _    => .isTrue trivial

variable {s s' s'' : State} {l : Label} {r : ObjRef} {pid : Int}

-- What the steps that neither add nor delete an object leave alone.
structure Kept (s s' : State) : Prop where
  objQueue : s'.objQueue = s.objQueue
  blocks   : s'.blocks = s.blocks
  copies   : ∀ r ∈ s'.copies, r ∈ s.copies ∨ r ∈ s.objQueue

namespace Kept

theorem of_eq (hq : s'.objQueue = s.objQueue) (hb : s'.blocks = s.blocks)
    (hp : s'.pidQueue = s.pidQueue) : Kept s s' :=
  ⟨hq, hb, fun _ hr => .inl (by rwa [State.copies, hp] at hr)⟩

theorem refl (s : State) : Kept s s :=
  of_eq rfl rfl rfl

theorem trans (h₁ : Kept s s') (h₂ : Kept s' s'') : Kept s s'' := by
  refine ⟨h₂.objQueue.trans h₁.objQueue, h₂.blocks.trans h₁.blocks, fun r hr => ?_⟩
  cases h₂.copies r hr
  case inl hr => exact h₁.copies r hr
  case inr hr => exact .inr (h₁.objQueue ▸ hr)

theorem modify {f : HostProc → HostProc}
    (h : ∀ p, ∀ r ∈ (f p).pobjQueue, r ∈ p.pobjQueue ∨ r ∈ s.objQueue) :
    Kept s (s.modify pid f) := by
  refine ⟨rfl, rfl, fun r hr => ?_⟩
  rcases modifyFound_cases (fun p => Pids.conditionByPid pid p.ops) f s.pidQueue with
    ⟨q₁, p, q₂, hq, -, -, hm⟩ | ⟨-, -, hm⟩
  case inl =>
    simp only [State.copies, State.modify, hm, List.flatMap_append, List.flatMap_cons,
      List.mem_append] at hr
    simp only [State.copies, hq, List.flatMap_append, List.flatMap_cons, List.mem_append]
    rcases hr with hr | hr | hr
    · exact .inl (.inl hr)
    · exact (h p r hr).imp_left fun hr => .inr (.inl hr)
    · exact .inl (.inr (.inr hr))
  case inr =>
    simp only [State.copies, State.modify, hm] at hr
    exact .inl hr

end Kept

theorem kept_requestSetting (f : TaskParams → TaskParams) (buf : Text) (s : State) :
    Kept s (requestSetting f buf s) := by
  simp only [requestSetting]
  split <;> exact .of_eq rfl rfl rfl

theorem mem_putToShmQueue {α : Type} {x y : α} {max : Int} {malloc : Bool} {q : List α}
    (h : y ∈ (putToShmQueue x max malloc q).2) : y ∈ q ∨ y = x := by
  rcases putToShmQueue_cases x max malloc q with ⟨-, hp⟩ | ⟨-, hp⟩
  · simpa [hp] using h
  · exact .inl (by simpa [hp] using h)

theorem kept_createProcess (tmp : PidOps) (out : Pids.AssignOutcome) (s : State) :
    Kept s (createProcess tmp out s).2 := by
  simp only [createProcess]
  split
  case isTrue => exact .of_eq rfl rfl rfl
  case isFalse =>
    split
    case isFalse => exact .of_eq rfl rfl rfl
    case isTrue =>
      refine ⟨rfl, rfl, fun r hr => .inl ?_⟩
      have ⟨p, hp, hr⟩ := List.mem_flatMap.mp hr
      cases mem_putToShmQueue hp
      case inl hp => exact List.mem_flatMap.mpr ⟨p, hp, hr⟩
      case inr hp =>
        rw [hp] at hr
        cases hr

theorem kept_getEmptyProc (name subName taskName : CStr) (out : Pids.AssignOutcome)
    (hr : r ∈ s.objQueue) : Kept s (getEmptyProc r name subName taskName out s) := by
  have hput : ∀ p, ∀ r' ∈ (putObj2pidQue r out p).pobjQueue, r' ∈ p.pobjQueue ∨ r' = r := by
    intro p r' hr'
    simp only [putObj2pidQue] at hr'
    split at hr'
    case isTrue  => exact .inl hr'
    case isFalse => exact mem_putToShmQueue hr'
  -- Whichever process is chosen, it is given nothing else.
  have hgive : ∀ (pid : Int) (s' : State), Kept s s' →
      Kept s (if pid > 0 then s'.modify pid (putObj2pidQue r out) else s') := by
    intro pid s' hk
    split
    case isFalse => exact hk
    case isTrue =>
      refine hk.trans (.modify fun p r' hr' => (hput p r' hr').imp_right ?_)
      rintro rfl
      exact hk.objQueue ▸ hr
  simp only [getEmptyProc]
  split
  case h_1 => exact .refl s
  case h_2 tmp _ =>
    split
    case isTrue => exact .refl s
    case isFalse =>
      split
      case h_1 => exact hgive _ _ (.refl s)
      case h_2 =>
        split
        case isTrue  => exact hgive _ _ (kept_createProcess tmp out s)
        case isFalse => exact hgive _ _ (.refl s)

theorem kept_objManager {i : Nat} {k : ObjTask} {nowSec : Int} {out : Pids.AssignOutcome}
    (e : objManager i k nowSec out s = some s') : Kept s s' := by
  simp only [objManager, Option.bind_eq_bind, Option.bind_eq_some_iff] at e
  have ⟨r, hr, e⟩ := e
  have hk := kept_getEmptyProc "obj" r.subtype k.taskName out (List.mem_of_getElem? hr)
  split at e <;> cases e
  case isTrue  => exact hk.trans (.of_eq rfl rfl rfl)
  case isFalse => exact .refl s

theorem kept_visit {i : Nat} {f : Loop → TaskParams → TaskParams × Bool}
    (e : visit pid i f s = some s') : Kept s s' := by
  simp only [visit, Option.bind_eq_bind, Option.bind_eq_some_iff] at e
  obtain ⟨p, -, l, -, r, -, e⟩ := e
  cases e
  have hdel : Kept s (if (f l (s.tasks r.task)).2 then s.modify pid (delObjFromPidQue r.id)
      else s) := by
    split
    case isFalse => exact .refl s
    case isTrue  => exact .modify fun p r' hr' => .inl (List.eraseP_subset hr')
  exact hdel.trans (.of_eq rfl rfl rfl)

theorem kept_creatProcByPid (oldPid tvSec pid : Int) (s : State) :
    Kept s (creatProcByPid oldPid tvSec pid s) := by
  simp only [creatProcByPid]
  split
  case h_1 => exact .refl s
  case h_2 =>
    split
    case isTrue =>
      refine ⟨rfl, rfl, fun r hr => .inl ?_⟩
      have ⟨p, hp, hr⟩ := List.mem_flatMap.mp hr
      exact List.mem_flatMap.mpr ⟨p, List.eraseP_subset hp, hr⟩
    case isFalse =>
      split
      case isTrue  => exact .refl s
      case isFalse => exact .modify fun _ _ hr => .inl hr

theorem malloc_spec {p : Ptr} (e : s.malloc p = some s') :
    s' = { s with blocks := s'.blocks } ∧
      (∀ b, s'.blocks b = true ↔ s.blocks b = true ∨ p = some b) ∧
      ∀ b, p = some b → s.blocks b = false := by
  cases p
  case none =>
    cases e
    exact ⟨rfl, by simp, nofun⟩
  case some a =>
    have ⟨ha, e⟩ := Option.ite_none_left_eq_some.mp e
    cases e
    refine ⟨rfl, fun b => ?_, fun b hb => ?_⟩
    case refine_1 =>
      simp only [Function.update_apply, Option.some.injEq, eq_comm (a := a)]
      split <;> simp [*]
    case refine_2 =>
      cases hb
      simpa using ha

-- Either all is as before but for blocks that no one points to, or there is a new object whose
-- blocks were not in use.
inductive Added (s s' : State) : Prop
  | lost : s'.objQueue = s.objQueue → s'.pidQueue = s.pidQueue →
    (∀ b, s.blocks b = true → s'.blocks b = true) → Added s s'
  | queued (r : ObjRef) : s'.objQueue = s.objQueue ++ [r] → s'.pidQueue = s.pidQueue →
    (∀ b, s'.blocks b = true ↔ s.blocks b = true ∨ b ∈ r.blocks) → r.blocks.Nodup →
    (∀ b ∈ r.blocks, s.blocks b = false) → Added s s'

theorem initObjArg_spec {type : CStr} {p : Ptr} (e : initObjArg type p s = some s') :
    s.malloc (if type = "camera" then p else none) = some s' := by
  simp only [initObjArg] at e
  split at e
  case isTrue ht  => rwa [if_pos ht]
  case isFalse ht => rwa [if_neg ht]

theorem added_initObj {id : Int} {subtype type : CStr} {buf : Text} {t d : Addr} {out : ObjAlloc}
    (e : initObj id subtype type buf t d out s' = some s'') (ho : s'.objQueue = s.objQueue)
    (hp : s'.pidQueue = s.pidQueue)
    (hb : ∀ b, s'.blocks b = true ↔ s.blocks b = true ∨ b = t ∨ b = d)
    (htd : t ≠ d) (ht : s.blocks t = false) (hd : s.blocks d = false) : Added s s'' := by
  simp only [initObj] at e
  split at e
  case isFalse =>
    cases e
    exact .lost ho hp fun b h => (hb b).mpr (.inl h)
  case isTrue =>
    simp only [Option.bind_eq_bind, Option.bind_eq_some_iff] at e
    have ⟨s₁, e₁, e⟩ := e
    have ⟨hs, hv, hn⟩ := malloc_spec (initObjArg_spec e₁)
    rw [hs] at e
    have hmono : ∀ b, s.blocks b = true → s₁.blocks b = true :=
      fun b h => (hv b).mpr (.inl ((hb b).mpr (.inl h)))
    split at e
    case h_1 =>
      cases e
      exact .lost ho hp hmono
    case h_2 g hg =>
      rw [hg] at hv hn
      -- The new block is none of those that were given out before.
      have hg := hn g rfl
      have hgt : g ≠ t ∧ g ≠ d ∧ s.blocks g = false := by
        have hb := hb g
        simp only [State.setTask] at hg
        simp only [hg, Bool.false_eq_true, false_iff, not_or, Bool.not_eq_true] at hb
        exact ⟨hb.right.left, hb.right.right, hb.left⟩
      rcases putToShmQueue_cases ({ id := id, subtype := subtype, task := t, objArg := g
                                    originaldata := d } : ObjRef)
        s'.configArgs.slaveObjMax out.node s'.objQueue with ⟨-, hq⟩ | ⟨-, hq⟩
      case inl =>
        simp only [State.setTask, hq] at e
        cases e
        refine .queued _ (congrArg (· ++ _) ho) hp (fun b => ?_) ?_ ?_
        · simp only [ne_eq, not_true, if_false, hv, State.setTask, hb, ObjRef.blocks,
            List.mem_cons, List.not_mem_nil, or_false, Option.some.injEq]
          grind
        · simp only [ObjRef.blocks, List.nodup_cons, List.mem_cons]
          grind
        · simp only [ObjRef.blocks, List.forall_mem_cons]
          exact ⟨ht, hgt.right.right, hd, nofun⟩
      case inr =>
        simp only [State.setTask, hq] at e
        cases e
        refine .lost ho hp fun b h => ?_
        have hne : b ≠ d := by
          rintro rfl
          simp [hd] at h
        simpa [State.free, hne] using hmono b h

theorem added_addObj {buf : Text} {out : ObjAlloc} (e : addObj buf out s = some s') :
    Added s s' := by
  have hsame : Added s s := .lost rfl rfl fun _ => id
  simp only [addObj] at e
  split at e
  case h_2 =>
    cases e
    exact hsame
  case h_1 =>
    split at e
    case isTrue =>
      cases e
      exact hsame
    case isFalse =>
      simp only [Option.bind_eq_bind, Option.bind_eq_some_iff] at e
      have ⟨s₁, e₁, s₂, e₂, e⟩ := e
      have ⟨hs₁, hv₁, hn₁⟩ := malloc_spec e₁
      have ⟨hs₂, hv₂, hn₂⟩ := malloc_spec e₂
      have ho : s₂.objQueue = s.objQueue := by rw [hs₂, hs₁]
      have hp : s₂.pidQueue = s.pidQueue := by rw [hs₂, hs₁]
      split at e
      case h_1 t d ht hd =>
        rw [ht] at hv₁ hn₁
        rw [hd] at hv₂ hn₂
        have hd₁ := hn₂ d rfl
        have ht₁ := (hv₁ t).mpr (.inr rfl)
        refine added_initObj e ho hp (fun b => ?_) ?_ (hn₁ t rfl) ?_
        · rw [hv₂, hv₁, Option.some.injEq, Option.some.injEq, or_assoc, eq_comm (a := t),
            eq_comm (a := d)]
        · rintro rfl
          simp [hd₁] at ht₁
        · have := (hv₁ d).not.mp (by simp [hd₁])
          simpa using fun h => this (.inl h)
      case h_2 =>
        cases e
        exact .lost ho hp fun b h => (hv₂ b).mpr (.inl ((hv₁ b).mpr (.inl h)))

-- A copy is one of a queued object, whose blocks belong to no other.
structure Inv (s : State) : Prop where
  copies : ∀ r ∈ s.copies, r ∈ s.objQueue
  nodup  : (s.objQueue.flatMap ObjRef.blocks).Nodup
  valid  : ∀ b ∈ s.objQueue.flatMap ObjRef.blocks, s.blocks b = true

theorem Inv.held (h : Inv s) : Held s :=
  fun r hr b hb => h.valid b (List.mem_flatMap.mpr ⟨r, h.copies r hr, hb⟩)

theorem Inv.kept (h : Inv s) (hk : Kept s s') : Inv s' where
  copies r hr := hk.objQueue ▸ (hk.copies r hr).elim (h.copies r) id
  nodup       := hk.objQueue ▸ h.nodup
  valid       := by
    rw [hk.objQueue, hk.blocks]
    exact h.valid

theorem Inv.added (h : Inv s) (ha : Added s s') : Inv s' := by
  cases ha
  case lost ho hp hb =>
    refine ⟨?_, ho ▸ h.nodup, fun b hm => hb b (h.valid b (ho ▸ hm))⟩
    rw [State.copies, hp, ho]
    exact h.copies
  case queued r ho hp hb hn hf =>
    have hmem : ∀ b, b ∈ s'.objQueue.flatMap ObjRef.blocks ↔
        b ∈ s.objQueue.flatMap ObjRef.blocks ∨ b ∈ r.blocks := by
      simp [ho]
    constructor
    case copies =>
      intro r' hr'
      rw [State.copies, hp] at hr'
      rw [ho]
      exact List.mem_append_left _ (h.copies r' hr')
    case nodup =>
      simp only [ho, List.flatMap_append, List.flatMap_singleton, List.nodup_append]
      refine ⟨h.nodup, hn, fun b hb c hc he => ?_⟩
      have hv := h.valid b hb
      rw [he, hf c hc] at hv
      cases hv
    case valid =>
      intro b hm
      refine (hb b).mpr (((hmem b).mp hm).imp_left (h.valid b))

-- What is left once an object is deleted.
theorem delObj_cases (buf : Text) (s : State) :
    (∃ q₁ r q₂, s.objQueue = q₁ ++ r :: q₂ ∧
      searchFromQueue (·.id = getIntValFromJson buf ["id"]) s.objQueue = some r ∧
      (delObj buf s).objQueue = q₁ ++ q₂ ∧ (delObj buf s).pidQueue = s.pidQueue ∧
      ∀ b, (delObj buf s).blocks b = true ↔ s.blocks b = true ∧ b ∉ r.blocks) ∨
    (searchFromQueue (·.id = getIntValFromJson buf ["id"]) s.objQueue = none ∧
      delObj buf s = s) := by
  rcases delFromQueue_cases (fun r : ObjRef => r.id = getIntValFromJson buf ["id"]) s.objQueue with
    ⟨q₁, r, q₂, hq, hs, hd⟩ | ⟨hs, -⟩
  case inl =>
    refine .inl ⟨q₁, r, q₂, hq, hs, ?_, ?_, fun b => ?_⟩
    · simp only [delObj, hs]
      exact hd
    · simp only [delObj, hs]
      rfl
    · simp only [delObj, hs, State.free, Function.update_apply, ObjRef.blocks, List.mem_cons,
        List.not_mem_nil, or_false, not_or]
      grind
  case inr => exact .inr ⟨hs, by simp only [delObj, hs]⟩

theorem Inv.delObj {buf : Text} (h : Inv s) (hu : Unheld s (.objDel buf)) :
    Inv (delObj buf s) := by
  rcases delObj_cases buf s with ⟨q₁, r, q₂, hq, hs, ho, hp, hb⟩ | ⟨-, hd⟩
  case inr => exact hd.symm ▸ h
  case inl =>
    have hn := h.nodup
    simp only [hq, List.flatMap_append, List.flatMap_cons, List.nodup_append, List.mem_append] at hn
    obtain ⟨hn₁, ⟨-, hn₂, hr₂⟩, hd⟩ := hn
    constructor
    case copies =>
      intro r' hr'
      rw [State.copies, hp] at hr'
      have hm := h.copies r' hr'
      have hne : r' ≠ r := by
        rintro rfl
        exact hu r' hs hr'
      rw [ho, List.mem_append]
      rw [hq, List.mem_append, List.mem_cons] at hm
      exact hm.imp_right (·.resolve_left hne)
    case nodup =>
      rw [ho, List.flatMap_append, List.nodup_append]
      exact ⟨hn₁, hn₂, fun b hb c hc => hd b hb c (.inr hc)⟩
    case valid =>
      intro b hm
      rw [ho, List.flatMap_append, List.mem_append] at hm
      refine (hb b).mpr ⟨h.valid b ?_, fun hr => ?_⟩
      · simp only [hq, List.flatMap_append, List.flatMap_cons, List.mem_append]
        exact hm.imp_right .inr
      · cases hm
        case inl hm => exact hd b hm b (.inl hr) rfl
        case inr hm => exact hr₂ b hr b hm rfl

theorem Step.kept_or (e : Step s l s') :
    Kept s s' ∨ Added s s' ∨ ∃ buf, l = .objDel buf ∧ s' = SlaveHost.delObj buf s := by
  cases l
  case objAdd buf out =>
    have ⟨s₁, e₁, e⟩ := Option.map_eq_some_iff.mp e
    cases e
    refine .inr (.inl ?_)
    cases added_addObj e₁
    case lost ho hp hb           => exact .lost ho hp hb
    case queued r ho hp hb hn hf => exact .queued r ho hp hb hn hf
  case objDel buf =>
    cases e
    exact .inr (.inr ⟨buf, rfl, rfl⟩)
  case setting f buf =>
    cases e
    exact .inl (kept_requestSetting f buf s)
  case systemStatus =>
    cases e
    exact .inl (.of_eq rfl rfl rfl)
  case objManager => exact .inl (kept_objManager e)
  case start pid taskMax =>
    cases e
    exact .inl (.modify fun _ _ hr => .inl hr)
  case procBeat => exact .inl (kept_visit e)
  case taskBeat =>
    simp only [Step, exec] at e
    exact .inl (kept_visit e)
  case callback =>
    simp only [Step, exec] at e
    exact .inl (kept_visit e)
  case childQuit oldPid tvSec pid =>
    cases e
    exact .inl (kept_creatProcByPid oldPid tvSec pid s)

theorem Step.inv (h : Inv s) (hu : Unheld s l) (e : Step s l s') : Inv s' := by
  rcases e.kept_or with hk | ha | ⟨buf, rfl, rfl⟩
  · exact h.kept hk
  · exact h.added ha
  · exact h.delObj hu

-- Otherwise the copy is left with blocks that are freed.
theorem Step.unheld (e : Step s l s') (h : Held s') : Unheld s l := by
  cases l <;> try trivial
  case objDel buf =>
    cases e
    intro r hr hm
    rcases delObj_cases buf s with ⟨q₁, r', q₂, hq, hs, ho, hp, hb⟩ | ⟨hs, -⟩
    case inl =>
      cases hr.symm.trans hs
      have hr : r ∈ (delObj buf s).copies := by rwa [State.copies, hp]
      exact ((hb r.task).mp (h r hr _ List.mem_cons_self)).right List.mem_cons_self
    case inr => cases hr.symm.trans hs

theorem init_inv (cfg : ConfigParams) (slaveArgs : SlaveParams) (pidQueue : List PidOps) :
    Inv (init cfg slaveArgs pidQueue) := by
  refine ⟨fun r hr => ?_, .nil, nofun⟩
  have ⟨p, hp, hr⟩ := List.mem_flatMap.mp hr
  obtain ⟨ops, -, rfl⟩ := List.mem_map.mp hp
  cases hr

-- What the copies point to stays allocated in exactly those runs in which no object is deleted that
-- a process has a copy of.
theorem held_iff_unheld {cfg : ConfigParams} {slaveArgs : SlaveParams} {pidQueue : List PidOps}
    {tr : List (State × Label)} (r : Run Step (init cfg slaveArgs pidQueue) tr s) :
    Run.Always Held tr s ↔ Run.Meets Unheld tr :=
  r.always_iff_meets (fun _ _ _ h hu e => e.inv h hu) (fun _ h => h.held)
    (fun _ _ _ _ e h => e.unheld h) (init_inv cfg slaveArgs pidQueue)

section

def cfg : ConfigParams where
  masterEnable := 0
  masterObjMax := 100
  slaveObjMax := 100
  msgKeyStart := 1000
  msgKeyMax := 100

def camera : Text :=
  some (.object [("id", .number 5), ("name", .string "gate"), ("type", .string "camera"),
    ("data", .object [("subtype", .string "rtsp")])])

def slave : State :=
  init cfg { keyCache := .replicate 100 0 } []

-- A camera is added, its stream is started, and it is given to a new process.
def assigned : List Label := [
  .objAdd camera { task := some 64, originaldata := some 72, objArg := some 80 },
  .setting (fun t => { t with livestream := 1 }) camera,
  .objManager 0 .live 100 { pid := 71, taskMax := some 10 }]

-- And after its stream is stopped, the process gives it back.
def released : List Label := assigned ++ [
  .setting (fun t => { t with livestream := 0 }) camera, .procBeat 71 0 105, .objDel camera]

theorem held_iff_unheld_witness :
    ∃ s, Run Step slave (Run.partialTrace exec released slave) s ∧
      Run.Always Held (Run.partialTrace exec released slave) s ∧ s.objQueue = [] := by
  have ⟨s, r, hs⟩ := Run.exists_partialTrace exec released slave (·.objQueue = []) (by decide)
  exact ⟨s, r, (held_iff_unheld r).mpr (by decide), by simpa using hs⟩

-- An object is deleted while a process still has it.
theorem not_held :
    ¬∀ (cfg : ConfigParams) (slaveArgs : SlaveParams) (pidQueue : List PidOps)
      (tr : List (State × Label)) (s : State),
      Run Step (init cfg slaveArgs pidQueue) tr s → Held s := by
  intro h
  have ⟨s, r, hs⟩ := Run.exists_partialTrace exec (assigned ++ [.objDel camera]) slave
    (fun s => s.copies = [⟨5, "rtsp", 64, 80, 72⟩] ∧ s.blocks 64 = false) (by decide)
  simp only [decide_eq_true_eq] at hs
  have hb := h _ _ _ _ s r ⟨5, "rtsp", 64, 80, 72⟩ (by simp [hs.left]) 64 List.mem_cons_self
  exact absurd (hb.symm.trans hs.right) (by decide)

end

end SlaveHost
