import Aiotc.Objects.Misc

-- pids.cpp: the table of the processes that main guards.

inductive ProcFunc
  | master
  | rest
  | work
  | rtsp
  | preview
  | record
  | ehome
  | stream
  | decode
  | face
  | gat1400
  deriving DecidableEq

-- `procInit` tells if there is one.
structure PidOps where
  name : CStr
  subName : CStr
  taskName : CStr
  proc : ProcFunc
  procInit : Bool := false
  pid : Int := 0
  msgKey : Int := 0
  pobjQueue : List ObjParam := []
  load : Int := 0
  taskMax : Int := 0
  lastReboot : Int := 0
  running : Int := 0

def PROC_LOAD_MAX : Int := 100

namespace Pids

-- `g_pid_ops` up to its "null".
def pidOps : List PidOps := [
  { name := "master", subName := "null",    taskName := "null",    proc := .master },
  { name := "rest",   subName := "null",    taskName := "null",    proc := .rest },
  { name := "work",   subName := "null",    taskName := "null",    proc := .work
    procInit := true },
  { name := "obj",    subName := "rtsp",    taskName := "live",    proc := .rtsp },
  { name := "obj",    subName := "rtsp",    taskName := "preview", proc := .preview },
  { name := "obj",    subName := "rtsp",    taskName := "record",  proc := .record },
  { name := "obj",    subName := "ehome",   taskName := "live",    proc := .ehome },
  { name := "obj",    subName := "ehome",   taskName := "capture", proc := .ehome },
  { name := "obj",    subName := "ehome",   taskName := "preview", proc := .preview },
  { name := "obj",    subName := "ehome",   taskName := "record",  proc := .record },
  { name := "obj",    subName := "tcp",     taskName := "live",    proc := .stream },
  { name := "decode", subName := "video",   taskName := "null",    proc := .decode },
  { name := "alg",    subName := "face",    taskName := "null",    proc := .face },
  { name := "obj",    subName := "gat1400", taskName := "capture", proc := .gat1400 }]

-- The inner loop of `getMsgKey` for the key `i`: if the key is used, the place at which the loop
-- was left, and the first place of a deleted key.
def scanKeys (i : Int) : (keyCache : List Int) → (j : Nat) → (empty : Option Nat) →
    Bool × Nat × Option Nat
  | [], j, empty     => (true, j, empty)
  | k :: ks, j, empty =>
    if k = i ∨ k = 0 then
      (k ≠ 0, j, empty)
    else
      scanKeys i ks (j + 1) (if k = -1 ∧ empty = none then some j else empty)

-- The new `keyCache` is returned next to the key.
def getMsgKey (cfg : ConfigParams) (keyCache : List Int) : Int × List Int :=
  go (cfg.msgKeyMax - 1).toNat (cfg.msgKeyStart + 1) none
where
  go : (fuel : Nat) → (i : Int) → (empty : Option Nat) → Int × List Int
  | 0, _, _            => (-1, keyCache)
  | fuel + 1, i, empty =>
    let (used, j, empty) := scanKeys i keyCache 0 empty
    if used then go fuel (i + 1) empty else (i, keyCache.set (empty.getD j) i)

def delMsgKey (key : Int) : (keyCache : List Int) → List Int
  | []      => []
  | k :: ks =>
    if k = key ∨ k = 0 then (if k = key then -1 else k) :: ks else k :: delMsgKey key ks

def sameName (a b : CStr) : Bool :=
  strncpy 24 a = strncpy 24 b

def getOpsByName (name subName taskName : CStr) : Option PidOps :=
  pidOps.find? fun ops =>
    sameName name ops.name ∧ sameName subName ops.subName ∧ sameName taskName ops.taskName

def conditionByPid (pid : Int) (ops : PidOps) : Bool :=
  pid = ops.pid

-- `tmp` is what `getOpsByName` returns.
def conditionByPidOps2 (name subName : CStr) (tmp ops : PidOps) : Bool :=
  sameName name ops.name ∧ sameName subName ops.subName ∧ ops.proc = tmp.proc ∧
  ops.load < PROC_LOAD_MAX

def conditionByPidOps (id : Int) (name subName : CStr) (tmp ops : PidOps) : Bool :=
  conditionByPidOps2 name subName tmp ops ∧
  (Queue.searchFromQueue (conditionByObjId id) ops.pobjQueue).isSome

def getOpsByPid (pid : Int) (pidQueue : List PidOps) : Option PidOps :=
  Queue.searchFromQueue (conditionByPid pid) pidQueue

def put2PidQueue (ops : PidOps) (semInit node : Bool) (cfg : ConfigParams)
    (pidQueue : List PidOps) : List PidOps :=
  if semInit then
    (Queue.putToShmQueue ops (cfg.slaveObjMax * 3) node pidQueue).2
  else
    pidQueue

def updateLoad (ops : PidOps) : PidOps :=
  { ops with load := (ops.pobjQueue.length * 100 : Int).tdiv ops.taskMax }

-- The wait for `taskMax` is over.
def putObj2pidQue (o : ObjParam) (node : Bool) (ops : PidOps) : PidOps :=
  if ops.taskMax ≤ 0 then
    ops
  else
    let pobjQueue := (Queue.putToShmQueue o ops.taskMax node ops.pobjQueue).2
    updateLoad { ops with pobjQueue := pobjQueue }

def delObjFromPidQue (id : Int) (ops : PidOps) : PidOps :=
  let pobjQueue := Queue.delFromQueue (conditionByObjId id) ops.pobjQueue
  updateLoad { ops with pobjQueue := pobjQueue }

-- A process that `createProcess` has forked and that `put2PidQueue` is still to put into the
-- table, for the object of `getEmptyProc`.
structure Creating where
  ops : PidOps
  obj : Option ObjParam := none

-- A process that `creatProcByPid` has forked, and whose pid it is still to write to the entry it
-- found for `oldPid`.
structure Restarting where
  oldPid : Int
  pid : Int
  tvSec : Int

-- `zombies` are the processes that have exited and that `wait` has not returned yet, `assigning`
-- the objects that `getEmptyProc` is still to put to the process it chose, whose entry it keeps
-- while it waits: this is named by the pid that stands in it.
structure State where
  ap : AiotcParams
  pidQueue : List PidOps := []
  live : List Int := []
  zombies : List Int := []
  creating : List Creating := []
  restarting : List Restarting := []
  assigning : List (ObjParam × Int) := []

namespace State

def setKeyCache (keyCache : List Int) (s : State) : State :=
  { s with ap := { s.ap with slaveArgs := { s.ap.slaveArgs with keyCache := keyCache } } }

def modify (pid : Int) (f : PidOps → PidOps) (s : State) : State :=
  { s with pidQueue := Queue.modifyFound (conditionByPid pid) f s.pidQueue }

-- What the process `pid` does to its entry.
def act (pid : Int) (f : PidOps → PidOps) (s : State) : Option State :=
  if pid ∈ s.live then some (s.modify pid f) else none

-- The pid is not one of a process, nor of one whose `creatProcByPid` is not over. Where fork fails
-- main exits.
def fork (pid : Int) (s : State) : Option State :=
  if 0 < pid ∧ pid ∉ s.live ∧ pid ∉ s.zombies ∧ pid ∉ s.restarting.map Restarting.oldPid then
    some { s with live := s.live ++ [pid] }
  else
    none

end State

-- What is put to an entry after this is not part of the table any more.
def delOpsByPid (pid : Int) (s : State) : State :=
  match getOpsByPid pid s.pidQueue with
  | none     => s
  | some ops =>
    let keyCache := delMsgKey ops.msgKey s.ap.slaveArgs.keyCache
    { s.setKeyCache keyCache with
      pidQueue := Queue.delFromQueue (conditionByPid pid) s.pidQueue
      assigning := s.assigning.filter (·.2 ≠ pid) }

-- Up to the fork, by which `pid` is created. `procInit` tells if the init of the process succeeds.
def createProcess (name subName taskName : CStr) (procInit : Bool) (pid : Int)
    (obj : Option ObjParam) (s : State) : Option State :=
  match getOpsByName name subName taskName with
  | none     => some s
  | some ops =>
    let (msgKey, keyCache) := getMsgKey s.ap.configArgs s.ap.slaveArgs.keyCache
    let s := s.setKeyCache keyCache
    if msgKey < 0 ∨ (ops.procInit ∧ ¬procInit) then
      some s
    else do
      let s ← s.fork pid
      let ops := { ops with msgKey := msgKey, pid := pid }
      return { s with creating := s.creating ++ [{ ops := ops, obj := obj }] }

-- The rest of it.
def created (i : Nat) (semInit node : Bool) (s : State) : Option State := do
  let c ← s.creating[i]?
  return { s with
    pidQueue := put2PidQueue c.ops semInit node s.ap.configArgs s.pidQueue
    creating := s.creating.eraseIdx i
    assigning := s.assigning ++ c.obj.toList.map (·, c.ops.pid) }

-- Up to the fork, by which `pid` is created.
def creatProcByPid (oldPid : Int) (tvSec : Int) (pid : Int) (s : State) : Option State :=
  match getOpsByPid oldPid s.pidQueue with
  | none     => some s
  | some ops =>
    if ops.running = 0 then
      some (delOpsByPid oldPid s)
    else if tvSec - ops.lastReboot < 300 then
      some s
    else do
      let s ← s.fork pid
      return { s with restarting := s.restarting ++ [⟨oldPid, pid, tvSec⟩] }

-- The rest of it. The entry that a call of `getEmptyProc` has kept stays the same one.
def restarted (i : Nat) (s : State) : Option State := do
  let r ← s.restarting[i]?
  let s := s.modify r.oldPid fun ops => { ops with pid := r.pid, lastReboot := r.tvSec }
  return { s with
    restarting := s.restarting.eraseIdx i
    assigning := s.assigning.map fun (obj, pid) => (obj, if pid = r.oldPid then r.pid else pid) }

-- `main_child_quit_signal` for the child `quitPid`.
def childQuit (quitPid : Int) (tvSec : Int) (pid : Int) (s : State) : Option State :=
  if quitPid ∈ s.zombies then do
    let s ← creatProcByPid quitPid tvSec pid s
    return { s with zombies := s.zombies.erase quitPid }
  else
    none

-- The two searches of `getEmptyProc`.
def searchProc (obj : ObjParam) (name subName : CStr) (tmp : PidOps) (pidQueue : List PidOps) :
    Option PidOps :=
  (Queue.searchFromQueue (conditionByPidOps obj.id name subName tmp) pidQueue).or
    (Queue.searchFromQueue (conditionByPidOps2 name subName tmp) pidQueue)

-- Up to the fork of `createProcess` or the object's assignment.
def getEmptyProc (obj : ObjParam) (name subName taskName : CStr) (procInit : Bool) (pid : Int)
    (s : State) : Option State :=
  match getOpsByName name subName taskName with
  | none     => some s
  | some tmp =>
    match Queue.searchFromQueue (conditionByPidOps obj.id name subName tmp) s.pidQueue with
    | some _ => some s
    | none   =>
      match Queue.searchFromQueue (conditionByPidOps2 name subName tmp) s.pidQueue with
      | some ops => some { s with assigning := s.assigning ++ [(obj, ops.pid)] }
      | none     =>
        if s.ap.slaveArgs.load < SLAVE_LOAD_MAX then
          createProcess name subName taskName procInit pid (some obj) s
        else
          some s

-- The rest of it.
def assigned (i : Nat) (node : Bool) (s : State) : Option State := do
  let (obj, pid) ← s.assigning[i]?
  let s := s.modify pid (putObj2pidQue obj node)
  return { s with assigning := s.assigning.eraseIdx i }

-- The steps of main, and of the process `pid`: it sets `running` and `taskMax` when it starts, lets
-- go of an object, clears `running` when it is to stop, and exits.
inductive Label
  | createProcess (name subName taskName : CStr) (procInit : Bool) (pid : Int)
  | created (i : Nat) (semInit node : Bool)
  | getEmptyProc (obj : ObjParam) (name subName taskName : CStr) (procInit : Bool) (pid : Int)
  | assigned (i : Nat) (node : Bool)
  | childQuit (quitPid : Int) (tvSec : Int) (pid : Int)
  | restarted (i : Nat)
  | start (pid : Int) (taskMax : Int)
  | delObj (pid : Int) (id : Int)
  | stop (pid : Int)
  | exit (pid : Int)

def exec : Label → State → Option State
  | .createProcess name subName taskName procInit pid, s =>
    createProcess name subName taskName procInit pid none s
  | .created i semInit node, s => created i semInit node s
  | .getEmptyProc obj name subName taskName procInit pid, s =>
    getEmptyProc obj name subName taskName procInit pid s
  | .assigned i node, s => assigned i node s
  | .childQuit quitPid tvSec pid, s => childQuit quitPid tvSec pid s
  | .restarted i, s => restarted i s
  | .start pid taskMax, s => s.act pid fun ops => { ops with running := 1, taskMax := taskMax }
  | .delObj pid id, s => s.act pid (delObjFromPidQue id)
  | .stop pid, s => s.act pid fun ops => { ops with running := 0 }
  | .exit pid, s =>
    if pid ∈ s.live then
      some { s with live := s.live.erase pid, zombies := s.zombies ++ [pid] }
    else
      none

def Step (s : State) (l : Label) (s' : State) : Prop :=
  exec l s = some s'

end Pids
